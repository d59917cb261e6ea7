/-
  Engram.Proofs.Control.Dispatching — which dispatches lead to the same state.

  A dispatch composes the hidden pattern of its target from the old state, the code of the token and
  the offset of the layer. Each unit is on if the majority of three is on: the unit of the old state,
  that of the code, and the reversed one of the offset (`bits_compose`). Two of the three settle the
  matter where they agree, and the third is not seen there. So two states are taken to one on a token if
  they differ only where the code is the reverse of the offset, and two tokens take a state to one if
  their codes differ only where the state agrees with the reverse of the offset (`merged_iff`). Codes are
  drawn at random and not compared with what was drawn before. With thirty-two units there are seeds for
  which two tokens take one state to the same bits (`tokens_and_states_merge`).
-/

import Engram.Proofs.Control.Failing
import Engram.Proofs.Control.Realizing

namespace Engram

open LayerId

/-! ## Majorities -/

/-- What most of three bits are: the unit of a state, that of a code, and the reverse of an offset. -/
def majority (unit code offset : Bool) : Bool := unit && code || unit && !offset || code && !offset

theorem majority_comm (unit code offset : Bool) : majority unit code offset = majority code unit offset := by
  cases unit <;> cases code <;> cases offset <;> rfl

/-- The majority of each unit. -/
def majorities (state code offset : Bits) : Bits :=
  (state.zip (code.zip offset)).map fun (a, c, o) => majority a c o

section

variable {state state' code code' offset : Bits}

theorem length_majorities (hcode : code.length = state.length) (hoffset : offset.length = state.length) :
    (majorities state code offset).length = state.length := by
  simp [majorities, hcode, hoffset]

theorem getElem?_majorities (hcode : code.length = state.length) (hoffset : offset.length = state.length) {i : Nat}
    (hi : i < state.length) : (majorities state code offset)[i]? = some (majority state[i] code[i] offset[i]) := by
  have hlength := length_majorities hcode hoffset
  rw [List.getElem?_eq_getElem (by omega)]
  simp [majorities]

/-- The state and the code count alike. -/
theorem majorities_comm (state code offset : Bits) : majorities state code offset = majorities code state offset := by
  refine List.ext_getElem (by simp [majorities]; omega) fun i _ _ => ?_
  simp only [majorities, List.getElem_map, List.getElem_zip]
  exact majority_comm _ _ _

/-- Another unit of the state is seen unless the code and the offset settle the majority. -/
theorem majority_eq_iff (a a' c o : Bool) : majority a c o = majority a' c o ↔ (a ≠ a' → c ≠ o) := by
  cases a <;> cases a' <;> cases c <;> cases o <;> decide

/-- On one code two states are told apart unless they differ only where the code is the reverse of the
offset. -/
theorem majorities_state_iff (hstate : state'.length = state.length) (hcode : code.length = state.length)
    (hoffset : offset.length = state.length) : majorities state code offset = majorities state' code offset ↔
      ∀ i : Nat, state[i]? ≠ state'[i]? → code[i]? ≠ offset[i]? := by
  rw [List.ext_getElem?_iff]
  refine forall_congr' fun i => ?_
  by_cases hi : i < state.length
  · rw [getElem?_majorities hcode hoffset hi, getElem?_majorities (by omega) (by omega) (by omega)]
    rw [List.getElem?_eq_getElem hi, List.getElem?_eq_getElem (by omega), List.getElem?_eq_getElem (by omega),
      List.getElem?_eq_getElem (by omega)]
    simp only [Option.some.injEq, ne_eq]
    exact majority_eq_iff _ _ _ _
  · have hlength := length_majorities hcode hoffset
    have hlength' : (majorities state' code offset).length = state'.length := length_majorities (by omega) (by omega)
    rw [List.getElem?_eq_none (by omega), List.getElem?_eq_none (by omega), List.getElem?_eq_none (by omega),
      List.getElem?_eq_none (by omega)]
    simp

/-- From one state two codes are told apart unless they differ only where the state is the reverse of
the offset. -/
theorem majorities_code_iff (hcode : code.length = state.length) (hcode' : code'.length = state.length)
    (hoffset : offset.length = state.length) : majorities state code offset = majorities state code' offset ↔
      ∀ i : Nat, code[i]? ≠ code'[i]? → state[i]? ≠ offset[i]? := by
  rw [majorities_comm state code, majorities_comm state code']
  exact majorities_state_iff (by omega) (by omega) (by omega)

end

/-! ## Composed states -/

namespace Sequencer

/-- A composed unit is on if most of what it is composed of is. -/
theorem isOn_composed {a : Activator ℝ} (ha : a.Proper) (x : Bool × Bool × Bool) :
    a.isOn (a.composed x) = majority x.1 x.2.1 x.2.2 := by
  have hthird : 0 < third a := div_pos ha.depth_pos three_pos
  rw [composed_eq ha]
  refine ha.isOn_squash_of_sign ?_
  rw [mul_left_comm]
  refine mul_pos hthird ?_
  obtain ⟨unit, code, offset⟩ := x
  cases unit <;> cases code <;> cases offset <;> norm_num [majority, Activator.sign]

/-- The bits of a composed pattern. -/
theorem bits_compose {a : Activator ℝ} (ha : a.Proper) (p : Pattern ℝ) (code offset : Bits) :
    a.bits (compose a p code offset) = majorities (a.bits p) code offset := by
  rw [compose_eq, Activator.bits, List.map_map, majorities]
  exact List.map_congr_left fun x _ => isOn_composed ha x

end Sequencer

/-! ## Whatever was called -/

namespace Sequencer.Recording

variable {α : Type} [Scalar α] {n : Network α} {r : Recording α} {cs : List Call} {layer : LayerId} {token : String}
  {old next : ControlState α}

theorem calls_append (r : Recording α) (cs cs' : List Call) : r.calls (cs ++ cs') = (r.calls cs).calls cs' :=
  List.foldl_append

/-- One of the calls was a dispatch from a state on a token of a layer, and returned another state. -/
def Dispatched (r : Recording α) (cs : List Call) (layer : LayerId) (token : String) (old next : ControlState α) : Prop :=
  ∃ before i after later, cs = before ++ Call.dispatch i layer token :: after ∧ (r.calls before).states[i]? = some old ∧
    Does (Sequencer.dispatch old layer token) (r.calls before).sequencer next later

/-- What is called later takes nothing back. -/
theorem Admitted.retains (h : r.Admitted n) (cs : List Call) : Retains r.sequencer (r.calls cs).sequencer := by
  induction cs generalizing r with
  | nil => exact .refl _
  | cons c cs ih =>
    have hcall : Retains r.sequencer (r.call c).sequencer := by
      obtain ⟨-, hretains, -⟩ := yields_perform h.states c h.sequencer
      unfold Recording.call
      rcases hrun : (c.perform r.states).run.run r.sequencer with ⟨e | states, s⟩ <;> rw [hrun] at hretains <;> exact hretains
    exact hcall.trans (ih (h.call c))

theorem perform_dispatch {states : List (ControlState α)} {i : Nat} (hold : states[i]? = some old) :
    (Call.dispatch i layer token).perform states = (do return states ++ [← Sequencer.dispatch old layer token]) := by
  simp only [Call.perform]
  rw [hold]

theorem call_dispatch {i : Nat} {later : Sequencer α} (hold : r.states[i]? = some old)
    (hdoes : Does (Sequencer.dispatch old layer token) r.sequencer next later) :
    r.call (.dispatch i layer token) = ⟨later, r.states ++ [next]⟩ := by
  have hreturns : Does (do return r.states ++ [← Sequencer.dispatch old layer token]) r.sequencer (r.states ++ [next]) later :=
    does_of_bind hdoes rfl
  unfold Does at hreturns
  unfold Recording.call
  rw [perform_dispatch hold, hreturns]

/-- A dispatch that added a state to those that were returned. -/
theorem exists_dispatched {before : List Call} {i : Nat} (after : List Call)
    (hlength : (r.calls (before ++ [.dispatch i layer token])).states.length = (r.calls before).states.length + 1) :
    ∃ old next, (r.calls before).states[i]? = some old ∧
      (r.calls (before ++ [.dispatch i layer token])).states = (r.calls before).states ++ [next] ∧
      r.Dispatched (before ++ .dispatch i layer token :: after) layer token old next := by
  rw [calls_append] at hlength ⊢
  show ∃ old next, (r.calls before).states[i]? = some old ∧
    ((r.calls before).call (.dispatch i layer token)).states = (r.calls before).states ++ [next] ∧ _
  have hlength : ((r.calls before).call (.dispatch i layer token)).states.length = (r.calls before).states.length + 1 := hlength
  cases hold : (r.calls before).states[i]? with
  | none =>
    have hsame : (r.calls before).call (.dispatch i layer token) = r.calls before := by
      unfold Recording.call
      simp only [Call.perform]
      rw [hold]
      rfl
    rw [hsame] at hlength
    exact absurd hlength (Nat.ne_of_lt (Nat.lt_succ_self _))
  | some old =>
    rcases hrun : (Sequencer.dispatch old layer token).run.run (r.calls before).sequencer with ⟨e | next, later⟩
    · have hfails : Fails (do return (r.calls before).states ++ [← Sequencer.dispatch old layer token])
          (r.calls before).sequencer e later := Fails.bind hrun
      unfold Fails at hfails
      unfold Recording.call at hlength
      rw [perform_dispatch hold, hfails] at hlength
      exact absurd hlength (Nat.ne_of_lt (Nat.lt_succ_self _))
    · exact ⟨old, next, rfl, congrArg Recording.states (call_dispatch hold hrun), before, i, after, later, rfl, hold, hrun⟩

/-- What a dispatch returned is composed with the code of its token and the offset of its layer. -/
theorem Dispatched.admits (h : r.Dispatched cs layer token old next) (hr : r.Admitted n) :
    Sized n old ∧ (r.calls cs).sequencer.keying.lookup layer = some .dispatch ∧
      Admits n (r.calls cs).sequencer old next (some ⟨layer, token⟩) := by
  obtain ⟨before, i, after, later, rfl, hold, hdoes⟩ := h
  have hbefore := hr.calls before
  have hsized : Sized n old := hbefore.states old (List.mem_of_getElem? hold)
  obtain ⟨-, -, hyields⟩ := yields_dispatch hsized layer token hbefore.sequencer
  have hlater := (hbefore.call (.dispatch i layer token)).retains after
  rw [call_dispatch hold hdoes] at hlater
  unfold Does at hdoes
  rw [hdoes] at hyields
  obtain ⟨-, hkeying, hadmits⟩ := hyields next rfl
  have hcalls : r.calls (before ++ .dispatch i layer token :: after) =
      ((r.calls before).call (.dispatch i layer token)).calls after := calls_append r before (.dispatch i layer token :: after)
  rw [hcalls, call_dispatch hold hdoes]
  exact ⟨hsized, hlater.keying _ _ hkeying, hadmits.of_retains hlater⟩

end Sequencer.Recording

namespace Sequencer

/-- A state that was composed for another one and a token, with the code of the token and the offset of
the layer. -/
structure Composed (s : Sequencer ℝ) (layer : LayerId) (token : String) (old next : ControlState ℝ) (code offset : Bits) :
    Prop where
  ofToken : s.codes.lookup ⟨layer, token⟩ = some code
  ofLayer : s.offsets.lookup layer = some offset
  sized : code.length = (s.hiddenBits old).length ∧ offset.length = (s.hiddenBits old).length
  bits : s.hiddenBits next = majorities (s.hiddenBits old) code offset

variable {n : Network ℝ} {r : Recording ℝ} {cs : List Call} {layer : LayerId} {token : String} {old next : ControlState ℝ}

theorem Recording.Dispatched.composed (h : r.Dispatched cs layer token old next) (hr : r.Admitted n)
    (hproper : (n.activator gh).Proper) : ∃ code offset, Composed (r.calls cs).sequencer layer token old next code offset := by
  obtain ⟨hold, hkeying, hadmits⟩ := h.admits hr
  have hs := (hr.calls cs).sequencer
  have hbits : ∀ state : ControlState ℝ, (r.calls cs).sequencer.hiddenBits state = (n.activator gh).bits state.hidden :=
    fun state => congrArg (·.bits state.hidden) (hs.keeps.activator gh)
  have hlength : ((r.calls cs).sequencer.hiddenBits old).length = n.size gh := by
    rw [hbits, Activator.bits_length, hold.hidden]
  cases hadmits with
  | select reader =>
    rw [hkeying] at reader
    cases reader
  | @dispatch c code offset _ hcode hoffset hidden _ =>
    refine ⟨code, offset, hcode, hoffset, ⟨(hs.codes _ _ hcode).trans hlength.symm, (hs.offsets _ _ hoffset).trans hlength.symm⟩, ?_⟩
    rw [hbits, hbits, hidden, bits_compose hproper]

/-- Two dispatches on one layer, and what decides whether they returned states with the same bits. On one
token the states are told apart unless they differ only where the code is the reverse of the offset; from
one state the tokens are unless their codes differ only where the state is the reverse of the offset. -/
structure Decided (s : Sequencer ℝ) (layer : LayerId) (token : String) (old next : ControlState ℝ) (token' : String)
    (old' next' : ControlState ℝ) (offset code code' : Bits) : Prop where
  first : Composed s layer token old next code offset
  second : Composed s layer token' old' next' code' offset
  states : token = token' → (s.hiddenBits next = s.hiddenBits next' ↔
    ∀ i : Nat, (s.hiddenBits old)[i]? ≠ (s.hiddenBits old')[i]? → code[i]? ≠ offset[i]?)
  tokens : s.hiddenBits old = s.hiddenBits old' → (s.hiddenBits next = s.hiddenBits next' ↔
    ∀ i : Nat, code[i]? ≠ code'[i]? → (s.hiddenBits old)[i]? ≠ offset[i]?)

theorem Composed.decided {s : Sequencer ℝ} {token' : String} {old' next' : ControlState ℝ} {code offset code' offset' : Bits}
    (h : Composed s layer token old next code offset) (h' : Composed s layer token' old' next' code' offset') :
    Decided s layer token old next token' old' next' offset code code' := by
  obtain rfl : offset' = offset := Option.some.inj (h'.ofLayer.symm.trans h.ofLayer)
  obtain ⟨hcode, hoffset⟩ := h.sized
  obtain ⟨hcode', hoffset'⟩ := h'.sized
  refine ⟨h, h', fun htoken => ?_, fun hold => ?_⟩
  · subst htoken
    obtain rfl : code' = code := Option.some.inj (h'.ofToken.symm.trans h.ofToken)
    rw [h.bits, h'.bits]
    exact majorities_state_iff (by omega) hcode hoffset
  · rw [h.bits, h'.bits, ← hold]
    exact majorities_code_iff hcode (by omega) hoffset

/-- Whatever calls a sequencer was given, what dispatches on one layer returned is told apart exactly as
far as the signs that were drawn allow. -/
theorem merged_iff {c : Config ℝ} {built : Network ℝ} (hbuild : (Network.build c).value = .ok built)
    (hbooks : built.Keeps (fun _ _ => False) n) (hsound : n.Sound) {given : List (ControlState ℝ)}
    (hgiven : ∀ state ∈ given, Sized n state) {token' : String} {old' next' : ControlState ℝ}
    (h : (⟨.new n, given⟩ : Recording ℝ).Dispatched cs layer token old next)
    (h' : (⟨.new n, given⟩ : Recording ℝ).Dispatched cs layer token' old' next') :
    ∃ offset code code', Decided ((⟨.new n, given⟩ : Recording ℝ).calls cs).sequencer layer token old next token' old' next'
      offset code code' := by
  have hbuilt := Network.builtFrom_of_build hbuild
  have hproper : (n.activator gh).Proper := by
    rw [hbooks.activator, hbuilt.activator_eq (Nat.lt_of_lt_of_le (by decide) hbuilt.numbered.control)]
    exact (Config.sized_of_validate hbuilt.valid).proper
  have hadmitted : (⟨.new n, given⟩ : Recording ℝ).Admitted n := Recording.admitted_of_build hbuild hbooks hsound hgiven []
  obtain ⟨code, offset, hcomposed⟩ := h.composed hadmitted hproper
  obtain ⟨code', offset', hcomposed'⟩ := h'.composed hadmitted hproper
  exact ⟨offset, code, code', hcomposed.decided hcomposed'⟩

/-- Another seed for the small configuration, with which states are not told apart. -/
def mergingConfig : Config Fixed := { smallConfig with seed := 31093594 }

def mergingNetwork : Network Fixed :=
  match (Network.build mergingConfig).value with
  | .ok n => n
  | .error _ => smallNetwork

theorem build_mergingConfig : (Network.build mergingConfig).value = .ok mergingNetwork := by
  have hok : (Network.build mergingConfig).value.toOption.isSome = true := by decide +kernel
  unfold mergingNetwork
  cases h : (Network.build mergingConfig).value with
  | ok n => rfl
  | error e =>
    rw [h] at hok
    cases hok

/-- Two states that read an operand. -/
def twoReaders : List Call := [
  .initial "start",
  .initial "again",
  .transit (Microcode.read op1) 0 none none,
  .transit (Microcode.read op1) 1 none none]

/-- The first of them dispatches on two tokens. -/
def twoTokens : List Call := twoReaders ++ [.dispatch 2 op1 "x"] ++ [.dispatch 2 op1 "y"]

/-- The second one dispatches on the first token. -/
def mergingCalls : List Call := twoTokens ++ [.dispatch 3 op1 "x"]

/-- The hidden bits of the states that calls returned. -/
def Recording.bits {α : Type} [Scalar α] (r : Recording α) : List Bits := r.states.map r.sequencer.hiddenBits

/-- If every dispatch succeeds, their results follow the states that were there. -/
theorem dispatched_of_mergingCalls {α : Type} [Scalar α] {r : Recording α}
    (hreaders : (r.calls twoReaders).states.length = 4)
    (hfirst : (r.calls (twoReaders ++ [.dispatch 2 op1 "x"])).states.length = 5)
    (hsecond : (r.calls twoTokens).states.length = 6) (hthird : (r.calls mergingCalls).states.length = 7) :
    ∃ a b ax ay bx : ControlState α,
      r.Dispatched mergingCalls op1 "x" a ax ∧ r.Dispatched mergingCalls op1 "y" a ay ∧
      r.Dispatched mergingCalls op1 "x" b bx ∧ (r.calls twoReaders).states[2]? = some a ∧
      (r.calls twoReaders).states[3]? = some b ∧
      (r.calls mergingCalls).states = (r.calls twoReaders).states ++ [ax] ++ [ay] ++ [bx] := by
  obtain ⟨a, ax, ha, hax, hx⟩ := Recording.exists_dispatched [.dispatch 2 op1 "y", .dispatch 3 op1 "x"]
    (hfirst.trans (congrArg (· + 1) hreaders.symm))
  obtain ⟨a', ay, ha', hay, hy⟩ := Recording.exists_dispatched [.dispatch 3 op1 "x"]
    (hsecond.trans (congrArg (· + 1) hfirst.symm))
  obtain ⟨b, bx, hb, hbx, hx'⟩ := Recording.exists_dispatched [] (hthird.trans (congrArg (· + 1) hsecond.symm))
  have hbefore : (r.calls twoTokens).states = (r.calls twoReaders).states ++ [ax] ++ [ay] := hay.trans (congrArg (· ++ [ay]) hax)
  have hsame : some a' = some a := by
    rw [← ha', hax, List.getElem?_append_left (by omega), ha]
  have hother : (r.calls twoReaders).states[3]? = some b := by
    have hb : (r.calls twoTokens).states[3]? = some b := hb
    rw [hbefore, List.append_assoc, List.getElem?_append_left (by omega)] at hb
    exact hb
  rw [Option.some.inj hsame] at hy
  exact ⟨a, b, ax, ay, bx, hx, hy, hx', ha, hother, hbx.trans (congrArg (· ++ [bx]) hbefore)⟩

/-- The dispatches succeed, from states with different bits, and return states with the same bits. -/
theorem mergingCalls_merge : ((⟨.new mergingNetwork, []⟩ : Recording Fixed).calls twoReaders).states.length = 4 ∧
    ((⟨.new mergingNetwork, []⟩ : Recording Fixed).calls (twoReaders ++ [.dispatch 2 op1 "x"])).states.length = 5 ∧
    ((⟨.new mergingNetwork, []⟩ : Recording Fixed).calls twoTokens).states.length = 6 ∧
    ((⟨.new mergingNetwork, []⟩ : Recording Fixed).calls mergingCalls).states.length = 7 ∧
    ((⟨.new mergingNetwork, []⟩ : Recording Fixed).calls mergingCalls).bits[2]? ≠
      ((⟨.new mergingNetwork, []⟩ : Recording Fixed).calls mergingCalls).bits[3]? ∧
    ((⟨.new mergingNetwork, []⟩ : Recording Fixed).calls mergingCalls).bits[4]? =
      ((⟨.new mergingNetwork, []⟩ : Recording Fixed).calls mergingCalls).bits[5]? ∧
    ((⟨.new mergingNetwork, []⟩ : Recording Fixed).calls mergingCalls).bits[4]? =
      ((⟨.new mergingNetwork, []⟩ : Recording Fixed).calls mergingCalls).bits[6]? := by
  decide +kernel

theorem validate_mergingConfig : (mergingConfig.image : Config ℝ).validate = .ok () := validate_realConfig

theorem build_realMergingConfig :
    (Network.build (mergingConfig.image : Config ℝ)).value = .ok (mergingNetwork.image Fixed.real) :=
  Network.build_image build_mergingConfig Fixed.real validate_mergingConfig

/-- The same calls over the real numbers. -/
theorem merging_calls_real (cs : List Call) : (⟨.new (mergingNetwork.image Fixed.real), []⟩ : Recording ℝ).calls cs =
    ((⟨.new mergingNetwork, []⟩ : Recording Fixed).calls cs).image Fixed.real :=
  Recording.calls_image (r := ⟨.new mergingNetwork, []⟩) Fixed.embeds_real
    ((Network.builtFrom_of_build build_mergingConfig).standard rfl) cs

theorem merging_bits_real : ((⟨.new (mergingNetwork.image Fixed.real), []⟩ : Recording ℝ).calls mergingCalls).bits =
    ((⟨.new mergingNetwork, []⟩ : Recording Fixed).calls mergingCalls).bits := by
  have hbuilt := Network.builtFrom_of_build build_mergingConfig
  have hadmitted := (Recording.admitted_of_build build_mergingConfig (.refl _) hbuilt.sound
    (fun _ h => (List.not_mem_nil h).elim) mergingCalls).sequencer
  rw [merging_calls_real]
  generalize (⟨.new mergingNetwork, []⟩ : Recording Fixed).calls mergingCalls = r at *
  show (r.states.map (ControlState.image Fixed.real)).map (r.sequencer.image Fixed.real).hiddenBits = r.bits
  rw [List.map_map]
  refine List.map_congr_left fun state _ => ?_
  exact hiddenBits_image Fixed.embeds_real ((hbuilt.standard rfl).of_keeps hadmitted.keeps) state

/-- One state is taken to the same bits on two tokens of a layer, and two states with different bits are
taken to the same bits on one token. -/
def Recording.Merges {α : Type} [Scalar α] (r : Recording α) (cs : List Call) (layer : LayerId) (token token' : String) : Prop :=
  ∃ a b ax ay bx : ControlState α, r.Dispatched cs layer token a ax ∧ r.Dispatched cs layer token' a ay ∧
    r.Dispatched cs layer token b bx ∧ (r.calls cs).sequencer.hiddenBits a ≠ (r.calls cs).sequencer.hiddenBits b ∧
    (r.calls cs).sequencer.hiddenBits ax = (r.calls cs).sequencer.hiddenBits ay ∧
    (r.calls cs).sequencer.hiddenBits ax = (r.calls cs).sequencer.hiddenBits bx

theorem mergingCalls_merge_real :
    (⟨.new (mergingNetwork.image Fixed.real), []⟩ : Recording ℝ).Merges mergingCalls op1 "x" "y" := by
  obtain ⟨h₄, h₅, h₆, h₇, hapart, htokens, hstates⟩ := mergingCalls_merge
  rw [← merging_bits_real] at hapart htokens hstates
  have hlength : ∀ cs, ((⟨.new (mergingNetwork.image Fixed.real), []⟩ : Recording ℝ).calls cs).states.length =
      ((⟨.new mergingNetwork, []⟩ : Recording Fixed).calls cs).states.length := by
    intro cs
    rw [merging_calls_real]
    exact List.length_map _
  rw [← hlength] at h₄ h₅ h₆ h₇
  unfold Recording.Merges
  generalize (⟨.new (mergingNetwork.image Fixed.real), []⟩ : Recording ℝ) = r at *
  obtain ⟨a, b, ax, ay, bx, hx, hy, hx', ha, hb, hall⟩ := dispatched_of_mergingCalls h₄ h₅ h₆ h₇
  unfold Recording.bits at hapart htokens hstates
  rw [hall] at hapart htokens hstates
  generalize (r.calls mergingCalls).sequencer = s at *
  generalize (r.calls twoReaders).states = states at *
  refine ⟨a, b, ax, ay, bx, hx, hy, hx', ?_, ?_, ?_⟩
  · intro hsame
    apply hapart
    rw [List.getElem?_map, List.getElem?_map, List.append_assoc, List.append_assoc, List.getElem?_append_left (by omega),
      List.getElem?_append_left (by omega), ha, hb, Option.map_some, Option.map_some, hsame]
  · simpa [h₄] using htokens
  · simpa [h₄] using hstates

/-- There the codes of the two tokens differ only where the state is the reverse of the offset. -/
theorem merging_signs : ∃ (a ax ay : ControlState ℝ) (offset code code' : Bits),
    Decided ((⟨.new (mergingNetwork.image Fixed.real), []⟩ : Recording ℝ).calls mergingCalls).sequencer op1 "x" a ax "y" a ay
      offset code code' ∧
    ∀ i : Nat, code[i]? ≠ code'[i]? →
      (((⟨.new (mergingNetwork.image Fixed.real), []⟩ : Recording ℝ).calls mergingCalls).sequencer.hiddenBits a)[i]? ≠
        offset[i]? := by
  have hsound := (Network.builtFrom_of_build build_realMergingConfig).sound
  obtain ⟨a, b, ax, ay, bx, hx, hy, -, -, htokens, -⟩ := mergingCalls_merge_real
  obtain ⟨offset, code, code', hdecided⟩ := merged_iff build_realMergingConfig (.refl _) hsound
    (fun _ h => (List.not_mem_nil h).elim) hx hy
  exact ⟨a, ax, ay, offset, code, code', hdecided, (hdecided.tokens rfl).mp htokens⟩

/-- With some seed a state is taken to one state on two tokens, and two states are on one token; no call
fails. -/
theorem tokens_and_states_merge : ∃ n : Network ℝ, (Network.build (mergingConfig.image : Config ℝ)).value = .ok n ∧
    (⟨.new n, []⟩ : Recording ℝ).Merges mergingCalls op1 "x" "y" :=
  ⟨_, build_realMergingConfig, mergingCalls_merge_real⟩

end Sequencer

end Engram
