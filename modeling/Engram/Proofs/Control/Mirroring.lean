/-
  Engram.Proofs.Control.Mirroring — the same automaton over other numbers.

  What a sequencer records depends on the numbers only through the bits of patterns. A map of
  numbers that takes the levels to the levels, leaves each number on its side of the midpoint and
  takes what is composed to what is composed there (`Embeds`) therefore takes any sequence of calls
  over the one kind of numbers to the same calls over the other (`calls_image`). So a recording
  over the real numbers can be read off one over numbers that it can be computed with.
-/

import Mathlib
import Engram.Proofs.Control.Calls
import Engram.Proofs.Network.Built

namespace Engram

open LayerId Sequencer

variable {α β : Type} [Scalar α] [Scalar β]

/-- A unit of a composed state, by the three bits that it is composed of. -/
def Activator.composed (a : Activator α) (x : Bool × Bool × Bool) : α :=
  let mid := a.inverse a.midpoint
  let unit := (a.inverse a.on - mid) / ((3 : Nat) : α)
  a.squash (mid + unit * (signed x.1 + signed x.2.1 - signed x.2.2))

theorem Sequencer.compose_eq (a : Activator α) (p : Pattern α) (code offset : Bits) :
    compose a p code offset = (((a.bits p).zip (code.zip offset)).map a.composed).toArray := by
  unfold compose
  dsimp only
  rw [List.map_map]
  rfl

/-- A map of numbers that a sequencer with standard activators does not notice. -/
structure Embeds (f : α → β) : Prop where
  zero : f 0 = 0
  level : ∀ b, f (Activator.standard.level b) = Activator.standard.level b
  isOn : ∀ x, Activator.standard.isOn (f x) = Activator.standard.isOn x
  composed : ∀ x, f (Activator.standard.composed x) = Activator.standard.composed x

/-! ## Images -/

variable (f : α → β)

def CodeBook.image (b : CodeBook α) : CodeBook β :=
  ⟨b.size, .standard, b.stream, b.bindings.map fun x => (x.1, x.2.map f), b.history, b.family⟩

def Layer.image (l : Layer α) : Layer β := ⟨l.name, l.book.image f⟩

def Network.image (n : Network α) : Network β := ⟨n.layers.map (Layer.image f), n.registers, n.gates, n.rule, n.seed⟩

def ControlState.image (state : ControlState α) : ControlState β := ⟨state.gates.map f, state.hidden.map f⟩

def Transit.image (t : Transit α) : Transit β := ⟨t.key, t.input.map f, t.target.image f⟩

def Sequencer.image (s : Sequencer α) : Sequencer β :=
  ⟨s.network.image f, s.transits.map (Transit.image f), s.keying, s.offsets, s.codes, s.stream, s.context, s.named⟩

def Sequencer.Recording.image (r : Recording α) : Recording β :=
  ⟨r.sequencer.image f, r.states.map (ControlState.image f)⟩

variable {f}

/-! ## Code books -/

theorem lookup_map_snd {γ δ : Type} (g : γ → δ) (l : List (String × γ)) (k : String) :
    (l.map fun x => (x.1, g x.2)).lookup k = (l.lookup k).map g := by
  induction l with
  | nil => rfl
  | cons x l ih =>
    rw [List.map_cons, lookup_cons_eq, lookup_cons_eq, ih]
    split
    · rfl
    · rfl

theorem bindKey_map_snd {γ δ : Type} (g : γ → δ) (k : String) (v : γ) (l : List (String × γ)) :
    bindKey k (g v) (l.map fun x => (x.1, g x.2)) = (bindKey k v l).map fun x => (x.1, g x.2) := by
  induction l with
  | nil => rfl
  | cons x l ih =>
    rw [List.map_cons, bindKey, bindKey]
    split
    · rfl
    · rw [ih]
      rfl

namespace Embeds

theorem bits (h : Embeds f) (p : Pattern α) : Activator.standard.bits (p.map f) = Activator.standard.bits p := by
  unfold Activator.bits
  rw [Array.toList_map, List.map_map]
  exact List.map_congr_left fun x _ => h.isOn x

theorem pattern (h : Embeds f) (b : Bits) :
    Array.map f (Activator.standard.pattern b) = Activator.standard.pattern b := by
  unfold Activator.pattern
  rw [List.map_toArray, List.map_map]
  exact congrArg List.toArray (List.map_congr_left fun x _ => h.level x)

theorem compose (h : Embeds f) (p : Pattern α) (code offset : Bits) :
    (Sequencer.compose .standard p code offset).map f = Sequencer.compose .standard (p.map f) code offset := by
  rw [compose_eq, compose_eq, h.bits, List.map_toArray, List.map_map]
  exact congrArg List.toArray (List.map_congr_left fun x _ => h.composed x)

theorem zeros (h : Embeds f) (n : Nat) : (Pattern.zero n).map f = Pattern.zero n := by
  rw [Pattern.zero, Array.map_replicate, h.zero]
  rfl

end Embeds

namespace CodeBook

variable {b : CodeBook α}

omit [Scalar α] in
theorem pattern?_image (b : CodeBook α) (token : String) :
    (b.image f).pattern? token = (b.pattern? token).map (Array.map f) :=
  lookup_map_snd _ _ _

theorem bind_image (h : Embeds f) (hb : b.activator = .standard) (token : String) (p : Pattern α) :
    (b.image f).bind token (p.map f) = (b.bind token p).image f := by
  have hbits : (Activator.standard : Activator β).bits (p.map f) = b.activator.bits p := by rw [h.bits, hb]
  have hbindings := bindKey_map_snd (Array.map f) token p b.bindings
  show (⟨_, _, _, bindKey token (p.map f) (b.bindings.map _), (Activator.standard.bits (p.map f), token) :: b.history, _⟩ :
    CodeBook β) = _
  rw [hbits, hbindings]
  rfl

theorem encode_image (h : Embeds f) (hb : b.activator = .standard) (token : String) :
    (b.image f).encode token = ((b.encode token).1.map f, (b.encode token).2.image f) := by
  unfold encode
  rw [pattern?_image]
  cases b.pattern? token with
  | some p => rfl
  | none =>
    have hdraw : (b.image f).drawRandom = (b.drawRandom.1.map f, b.drawRandom.2.image f) := by
      unfold drawRandom
      dsimp only
      rw [hb, h.pattern]
      rfl
    have hbind := bind_image (b := b.drawRandom.2) h hb token b.drawRandom.1
    simp only [Option.map_none, hdraw]
    rw [hbind]

end CodeBook

theorem Layer.encode_image {l : Layer α} (h : Embeds f) (hl : l.activator = .standard) (token : String) :
    (l.image f).encode token = ((l.encode token).1.map f, (l.encode token).2.image f) := by
  have hbook := CodeBook.encode_image (b := l.book) h hl token
  simp only [Layer.encode, Layer.image, hbook]

/-! ## Networks -/

namespace Network

/-- Every layer has the standard activator. -/
def Standard (n : Network α) : Prop := ∀ l, n.activator l = .standard

variable {n : Network α}

theorem Standard.of_keeps {keep : LayerId → String → Prop} {later : Network α} (h : n.Standard) (hk : n.Keeps keep later) :
    later.Standard := fun l => (hk.activator l).trans (h l)

theorem layer_image (n : Network α) (l : LayerId) : (n.image f).layer l = (n.layer l).image f := by
  unfold layer image
  rw [Array.getD_eq_getD_getElem?, Array.getD_eq_getD_getElem?, Array.getElem?_map]
  cases n.layers[l.position]? with
  | some layer => rfl
  | none => rfl

theorem size_image (n : Network α) (l : LayerId) : (n.image f).size l = n.size l := by
  unfold size
  rw [layer_image]
  rfl

theorem activator_image (n : Network α) (l : LayerId) : (n.image f).activator l = .standard := by
  unfold activator
  rw [layer_image]
  rfl

theorem bits_image (h : Embeds f) (hn : n.Standard) (l : LayerId) (p : Pattern α) :
    ((n.image f).layer l).bits (p.map f) = (n.layer l).bits p := by
  rw [layer_image]
  have hl : (n.layer l).activator = .standard := hn l
  exact (h.bits p).trans (by rw [Layer.bits, hl])

omit [Scalar α] in
theorem modifyLayer_image (n : Network α) (l : LayerId) (layer : Layer α) :
    (n.image f).modifyLayer l (layer.image f) = (n.modifyLayer l layer).image f := by
  unfold modifyLayer image
  rw [Array.map_setIfInBounds]

theorem bindToken_image (h : Embeds f) (hn : n.Standard) (l : LayerId) (token : String) (p : Pattern α) :
    (n.image f).bindToken l token (p.map f) = (n.bindToken l token p).image f := by
  unfold bindToken
  rw [← modifyLayer_image, layer_image]
  congr 1
  exact congrArg (Layer.mk _) (CodeBook.bind_image h (hn l) token p)

theorem encode_image (h : Embeds f) (hn : n.Standard) (l : LayerId) (token : String) :
    (n.image f).encode l token = ((n.encode l token).1.map f, (n.encode l token).2.image f) := by
  have hlayer := Layer.encode_image h (hn l) token
  rw [Network.encode, layer_image, hlayer, Network.encode, ← modifyLayer_image]

theorem toOption_unit_image (n : Network α) (g : Gate) : ((n.image f).unit g).toOption = (n.unit g).toOption := by
  have hgates : (n.image f).gates = n.gates := rfl
  unfold unit
  rw [hgates]
  cases n.gates.unit? g with
  | some u => rfl
  | none => rfl

end Network

/-! ## Checks -/

section

variable {ε ε' γ δ : Type}

theorem toOption_bind (x : Except ε γ) (g : γ → Except ε δ) :
    (x >>= g).toOption = x.toOption.bind fun c => (g c).toOption := by
  cases x with
  | error e => rfl
  | ok c => rfl

theorem toOption_mapM {g : γ → Except ε δ} {g' : γ → Except ε' δ} (h : ∀ x, (g x).toOption = (g' x).toOption)
    (l : List γ) : (l.mapM g).toOption = (l.mapM g').toOption := by
  induction l with
  | nil => rfl
  | cons x l ih =>
    rw [List.mapM_cons, List.mapM_cons, toOption_bind, toOption_bind, h]
    refine congrArg _ (funext fun c => ?_)
    rw [toOption_bind, toOption_bind, ih]
    rfl

theorem toOption_forM {g : γ → Except ε Unit} {g' : γ → Except ε' Unit} (h : ∀ x, (g x).toOption = (g' x).toOption)
    (l : List γ) : (l.forM g).toOption = (l.forM g').toOption := by
  induction l with
  | nil => rfl
  | cons x l ih =>
    show (g x >>= fun _ => l.forM g).toOption = (g' x >>= fun _ => l.forM g').toOption
    rw [toOption_bind, toOption_bind, h, ih]

end

namespace Sequencer

variable {n : Network α} {s : Sequencer α} {old : ControlState α} {condition : Option Condition}

theorem toOption_makeGates_image (h : Embeds f) (hn : n.Standard) (gates : List Gate) :
    (makeGates (n.image f) gates).toOption = (makeGates n gates).toOption.map (Array.map f) := by
  have hfold : ∀ (units : List Nat) (p : Pattern α),
      units.foldl (fun p u => p.setIfInBounds u (Activator.standard (α := β)).on) (p.map f) =
        (units.foldl (fun p u => p.setIfInBounds u (Activator.standard (α := α)).on) p).map f := by
    intro units
    induction units with
    | nil => exact fun _ => rfl
    | cons u units ih =>
      intro p
      have hon : f (Activator.standard (α := α)).on = (Activator.standard (α := β)).on := h.level true
      rw [List.foldl_cons, List.foldl_cons, ← ih, Array.map_setIfInBounds, hon]
  have hoff : f (Activator.standard (α := α)).off = (Activator.standard (α := β)).off := h.level false
  unfold makeGates
  rw [toOption_bind, toOption_bind, toOption_mapM n.toOption_unit_image]
  cases ((defaultGates ++ gates).mapM n.unit).toOption with
  | none => rfl
  | some units =>
    dsimp only [Option.bind_some]
    rw [Network.activator_image, hn go, Network.size_image, ← hoff, ← Array.map_replicate, hfold]
    rfl

theorem entry_image (h : Embeds f) (p : Pattern α) (i : Nat) : Pattern.entry (p.map f) i = f (p.entry i) := by
  unfold Pattern.entry
  rw [Array.getD_eq_getD_getElem?, Array.getD_eq_getD_getElem?, Array.getElem?_map]
  cases p[i]? with
  | some x => rfl
  | none => exact h.zero.symm

theorem toOption_checkCondition_image (h : Embeds f) (hs : s.network.Standard) :
    ((s.image f).checkCondition (old.image f) condition).toOption = (s.checkCondition old condition).toOption := by
  have hlayer : ∀ l, ((s.image f).checkLayer (old.image f) condition l).toOption =
      (s.checkLayer old condition l).toOption := by
    intro l
    unfold checkLayer
    rw [toOption_bind, toOption_bind]
    show (((s.network.image f).unit (.copy gh l)).toOption.bind _) = _
    rw [Network.toOption_unit_image]
    cases (s.network.unit (.copy gh l)).toOption with
    | none => rfl
    | some u =>
      have hisOn : ((s.image f).network.activator go).isOn ((old.image f).gates.entry u) =
          (s.network.activator go).isOn (old.gates.entry u) := by
        show ((s.network.image f).activator go).isOn (Pattern.entry (old.gates.map f) u) = _
        rw [Network.activator_image, hs go, entry_image h, h.isOn]
      dsimp only [Option.bind_some]
      rw [hisOn]
      generalize (s.network.activator go).isOn (old.gates.entry u) = isOpen
      generalize condition.any (·.layer == l) = isKeyed
      cases isOpen <;> cases isKeyed <;> rfl
  unfold checkCondition
  cases condition with
  | none => exact toOption_forM hlayer conditions
  | some c =>
    by_cases hmem : conditions.contains c.layer = true
    · dsimp only
      rw [if_pos hmem, if_pos hmem]
      exact toOption_forM hlayer conditions
    · dsimp only
      rw [if_neg hmem, if_neg hmem]
      rfl

theorem hiddenBits_image (h : Embeds f) (hs : s.network.Standard) (state : ControlState α) :
    (s.image f).hiddenBits (state.image f) = s.hiddenBits state := Network.bits_image h hs gh state.hidden

theorem gateBits_image (h : Embeds f) (hs : s.network.Standard) (state : ControlState α) :
    (s.image f).gateBits (state.image f) = s.gateBits state := Network.bits_image h hs go state.gates

theorem key_image (h : Embeds f) (hs : s.network.Standard) (old : ControlState α) (condition : Option Condition) :
    (s.image f).key (old.image f) condition = s.key old condition := by
  unfold key
  rw [hiddenBits_image h hs, gateBits_image h hs]

theorem sameState_image (h : Embeds f) (hs : s.network.Standard) (a b : ControlState α) :
    (s.image f).sameState (a.image f) (b.image f) = s.sameState a b := by
  unfold sameState
  rw [hiddenBits_image h hs, hiddenBits_image h hs, gateBits_image h hs, gateBits_image h hs]

omit [Scalar α] in
theorem find?_image (s : Sequencer α) (k : TransitKey) : (s.image f).find? k = (s.find? k).map (Transit.image f) := by
  unfold find?
  exact List.find?_map

/-! ## Operations -/

/-- The operation does to the image of the sequencer what the other does to the sequencer, and
returns the image of the result, or fails as well. -/
def Mirrors (f : α → β) (s : Sequencer α) {γ δ : Type} (x : Sequencing α γ) (y : Sequencing β δ) (g : γ → δ) : Prop :=
  s.network.Standard → (x.run.run s).2.network.Standard ∧ (y.run.run (s.image f)).2 = (x.run.run s).2.image f ∧
    (y.run.run (s.image f)).1.toOption = (x.run.run s).1.toOption.map g

section

variable {γ δ γ' δ' : Type} {g : γ → δ} {g' : γ' → δ'}

namespace Mirrors

theorem pure {c : γ} {d : δ} (h : d = g c) : Mirrors f s (pure c) (pure d) g :=
  fun hs => ⟨hs, rfl, congrArg some h⟩

theorem throw (e : Fault α) (e' : Fault β) : Mirrors f s (throw e) (throw e') g := fun hs => ⟨hs, rfl, rfl⟩

theorem set {t : Sequencer α} {u : Sequencer β} (hu : u = t.image f) (ht : s.network.Standard → t.network.Standard) :
    Mirrors f s (set t) (set u) id :=
  fun hs => ⟨ht hs, hu, rfl⟩

theorem modify {p : Sequencer α → Sequencer α} {q : Sequencer β → Sequencer β}
    (hq : s.network.Standard → q (s.image f) = (p s).image f) (hp : s.network.Standard → (p s).network.Standard) :
    Mirrors f s (modify p) (modify q) id :=
  fun hs => ⟨hp hs, hq hs, rfl⟩

theorem bind {x : Sequencing α γ} {y : Sequencing β δ} {k : γ → Sequencing α γ'} {k' : δ → Sequencing β δ'}
    (h : Mirrors f s x y g) (hk : ∀ c t, t.network.Standard → Mirrors f t (k c) (k' (g c)) g') :
    Mirrors f s (x >>= k) (y >>= k') g' := by
  intro hs
  obtain ⟨h₁, h₂, h₃⟩ := h hs
  have hx : (x >>= k).run.run s = (ExceptT.bindCont k (x.run.run s).1).run (x.run.run s).2 := rfl
  have hy : (y >>= k').run.run (s.image f) =
      (ExceptT.bindCont k' (y.run.run (s.image f)).1).run (y.run.run (s.image f)).2 := rfl
  rw [hx, hy]
  rcases hrun : x.run.run s with ⟨e | c, t⟩
  · rw [hrun] at h₁ h₂ h₃
    rcases hrun' : y.run.run (s.image f) with ⟨e' | d, u⟩
    · rw [hrun'] at h₂
      exact ⟨h₁, h₂, rfl⟩
    · rw [hrun'] at h₃
      cases h₃
  · rw [hrun] at h₁ h₂ h₃
    rcases hrun' : y.run.run (s.image f) with ⟨e' | d, u⟩
    · rw [hrun'] at h₃
      cases h₃
    · rw [hrun'] at h₂ h₃
      obtain rfl : d = g c := Option.some.inj h₃
      obtain rfl : u = t.image f := h₂
      exact hk c t h₁ h₁

theorem get_bind {k : Sequencer α → Sequencing α γ} {k' : Sequencer β → Sequencing β δ}
    (h : s.network.Standard → Mirrors f s (k s) (k' (s.image f)) g) : Mirrors f s (get >>= k) (get >>= k') g :=
  fun hs => h hs hs

theorem lift_bind {r : Except (Fault α) γ} {r' : Except (Fault β) δ} {k : γ → Sequencing α γ'} {k' : δ → Sequencing β δ'}
    (hr : r'.toOption = r.toOption.map g) (hk : ∀ c, r = .ok c → Mirrors f s (k c) (k' (g c)) g') :
    Mirrors f s (liftM r >>= k) (liftM r' >>= k') g' := by
  cases r with
  | error e =>
    cases r' with
    | error e' => exact .throw e e'
    | ok d => cases hr
  | ok c =>
    cases r' with
    | error e' => cases hr
    | ok d =>
      obtain rfl : d = g c := Option.some.inj hr
      exact hk c rfl

end Mirrors

theorem mirrors_setContext (context : String) : Mirrors f s (setContext context) (setContext context) id :=
  .modify (fun _ => rfl) id

theorem mirrors_claim (old : ControlState α) (layer : LayerId) (keying : Keying) :
    Mirrors f s (claim old layer keying) (claim (old.image f) layer keying) id := by
  refine .get_bind fun hs => ?_
  have hkeying : (s.image f).keying = s.keying := rfl
  rw [hkeying]
  cases s.keying.lookup layer with
  | none => exact .set rfl id
  | some earlier =>
    dsimp only
    by_cases heq : earlier = keying
    · rw [if_neg (fun hne => hne heq), if_neg (fun hne => hne heq)]
      exact .pure rfl
    · rw [if_pos heq, if_pos heq]
      exact .throw _ _

theorem mirrors_freshName : Mirrors f s (freshName (α := α)) (freshName (α := β)) id :=
  .get_bind fun _ => Mirrors.bind (.set rfl id) fun _ _ _ => .pure rfl

theorem mirrors_freshHidden (h : Embeds f) : Mirrors f s freshHidden freshHidden (Array.map f) := by
  refine mirrors_freshName.bind fun name t _ => .get_bind fun ht => ?_
  have hencode := Network.encode_image h ht gh name
  show Mirrors f t _ (do
    set ({ (t.image f) with network := ((t.network.image f).encode gh name).2 } : Sequencer β)
    return ((t.network.image f).encode gh name).1) (Array.map f)
  rw [hencode]
  exact Mirrors.bind (.set rfl fun ht => ht.of_keeps (Network.grows_encode _ _ _)) fun _ _ _ => .pure rfl

theorem mirrors_nameState (h : Embeds f) (state : ControlState α) (name : String) :
    Mirrors f s (nameState state name) (nameState (state.image f) name) id := by
  refine .modify (fun hs => ?_) fun hs => hs.of_keeps (Network.keeps_bindToken _ _ _ _)
  have hbind := Network.bindToken_image h hs gh name state.hidden
  show ({ (s.image f) with network := (s.network.image f).bindToken gh name (state.hidden.map f) } : Sequencer β) = _
  rw [hbind]
  rfl

theorem mirrors_offset (layer : LayerId) : Mirrors f s (offset layer) (offset layer) id := by
  refine .get_bind fun _ => ?_
  have hoffsets : (s.image f).offsets = s.offsets := rfl
  dsimp only
  rw [hoffsets]
  cases s.offsets.lookup layer with
  | some signs => exact .pure rfl
  | none =>
    have hsize : (s.image f).network.size gh = s.network.size gh := Network.size_image _ _
    dsimp only
    rw [hsize]
    exact Mirrors.bind (.set rfl id) fun _ _ _ => .pure rfl

theorem mirrors_code (condition : Condition) : Mirrors f s (code condition) (code condition) id := by
  refine .get_bind fun _ => ?_
  have hcodes : (s.image f).codes = s.codes := rfl
  dsimp only
  rw [hcodes]
  cases s.codes.lookup condition with
  | some signs => exact .pure rfl
  | none =>
    have hsize : (s.image f).network.size gh = s.network.size gh := Network.size_image _ _
    dsimp only
    rw [hsize]
    exact Mirrors.bind (.set rfl id) fun _ _ _ => .pure rfl

theorem conditionSize_image (n : Network α) : conditionSize (n.image f) = conditionSize n := by
  unfold conditionSize
  simp only [Network.size_image]

theorem layered_image (h : Embeds f) (layer : LayerId) (p : Pattern α) (layers : List LayerId) (x : Pattern α) :
    layered (n.image f) layer (p.map f) layers (x.map f) = (layered n layer p layers x).map f := by
  induction layers generalizing x with
  | nil => rfl
  | cons l layers ih =>
    rw [layered_cons, layered_cons, ← ih, Array.map_append, Network.size_image]
    split
    · rfl
    · rw [h.zeros]

theorem mirrors_jointInput (h : Embeds f) (old : ControlState α) (condition : Option Condition) :
    Mirrors f s (jointInput old condition) (jointInput (old.image f) condition) (Array.map f) := by
  cases condition with
  | none =>
    refine .get_bind fun _ => .pure ?_
    show old.hidden.map f ++ Pattern.zero (conditionSize (s.network.image f)) = _
    rw [conditionSize_image, Array.map_append, h.zeros]
  | some c =>
    refine .get_bind fun hs => ?_
    have hencode := Network.encode_image h hs c.layer c.token
    show Mirrors f s _ (do
      set ({ (s.image f) with network := ((s.network.image f).encode c.layer c.token).2 } : Sequencer β)
      return layered ((s.network.image f).encode c.layer c.token).2 c.layer ((s.network.image f).encode c.layer c.token).1
        conditions (old.hidden.map f)) (Array.map f)
    rw [hencode, layered_image h]
    exact Mirrors.bind (.set rfl fun ht => ht.of_keeps (Network.grows_encode _ _ _)) fun _ _ _ => .pure rfl

theorem mirrors_record (h : Embeds f) (old : ControlState α) (condition : Option Condition) (target : ControlState α) :
    Mirrors f s (record old condition target) (record (old.image f) condition (target.image f)) (ControlState.image f) := by
  refine (mirrors_jointInput h old condition).bind fun input t _ => Mirrors.bind (.modify (fun ht => ?_) id)
    fun _ _ _ => .pure rfl
  show ({ t.image f with transits := t.transits.map (Transit.image f) ++
    [⟨(t.image f).key (old.image f) condition, input.map f, target.image f⟩] } : Sequencer β) = _
  rw [key_image h ht]
  unfold image
  rw [List.map_append]
  rfl

theorem mirrors_complete (h : Embeds f) (gates : List Gate) (old : ControlState α) (condition : Option Condition)
    (target : Option (ControlState α)) : Mirrors f s (complete gates old condition target)
      (complete gates (old.image f) condition (target.map (ControlState.image f))) (ControlState.image f) := by
  refine .get_bind fun hs => ?_
  have hfind : (s.image f).find? ((s.image f).key (old.image f) condition) =
      (s.find? (s.key old condition)).map (Transit.image f) := by
    rw [key_image h hs, find?_image]
  rcases hearlier : s.find? (s.key old condition) with _ | earlier
  · rw [hearlier] at hfind
    rw [hfind]
    cases target with
    | some target => exact mirrors_record h old condition target
    | none =>
      exact Mirrors.lift_bind (toOption_makeGates_image h hs gates) fun p _ =>
        (mirrors_freshHidden h).bind fun hidden _ _ => mirrors_record h old condition ⟨p, hidden⟩
  · rw [hearlier] at hfind
    rw [hfind]
    cases target with
    | some target =>
      have hsame : (s.image f).sameState (earlier.image f).target (target.image f) = s.sameState earlier.target target :=
        sameState_image h hs _ _
      dsimp only [Option.map_some]
      rw [hsame]
      split
      · exact .pure rfl
      · exact .throw _ _
    | none => exact .throw _ _

theorem mirrors_transit (h : Embeds f) (gates : List Gate) (old : ControlState α) (condition : Option Condition)
    (target : Option (ControlState α)) : Mirrors f s (transit gates old condition target)
      (transit gates (old.image f) condition (target.map (ControlState.image f))) (ControlState.image f) := by
  refine .get_bind fun hs => Mirrors.lift_bind
    ((toOption_checkCondition_image h hs).trans (congrFun Option.map_id _).symm) fun _ _ => ?_
  cases condition with
  | none => exact mirrors_complete h gates old none target
  | some c =>
    refine .get_bind fun hs => ?_
    have hclaim : Mirrors f s (claim old c.layer (.select (s.hiddenBits old)))
        (claim (old.image f) c.layer (.select ((s.image f).hiddenBits (old.image f)))) id := by
      rw [hiddenBits_image h hs]
      exact mirrors_claim old c.layer _
    exact hclaim.bind fun _ _ _ => mirrors_complete h gates old (some c) target

theorem mirrors_dispatch (h : Embeds f) (old : ControlState α) (layer : LayerId) (token : String) :
    Mirrors f s (dispatch old layer token) (dispatch (old.image f) layer token) (ControlState.image f) := by
  refine .get_bind fun hs => Mirrors.lift_bind
    ((toOption_checkCondition_image h hs).trans (congrFun Option.map_id _).symm) fun _ _ =>
      (mirrors_claim old layer .dispatch).bind fun _ t _ => .get_bind fun ht => ?_
  have hfind : (t.image f).find? ((t.image f).key (old.image f) (some ⟨layer, token⟩)) =
      (t.find? (t.key old (some ⟨layer, token⟩))).map (Transit.image f) := by
    rw [key_image h ht, find?_image]
  rcases hearlier : t.find? (t.key old (some ⟨layer, token⟩)) with _ | earlier
  · rw [hearlier] at hfind
    rw [hfind]
    refine (mirrors_offset layer).bind fun offset _ _ => (mirrors_code _).bind fun code u _ => .get_bind fun hu => ?_
    have hcompose : compose ((u.image f).network.activator gh) (old.image f).hidden code offset =
        (compose (u.network.activator gh) old.hidden code offset).map f := by
      show compose ((u.network.image f).activator gh) (old.hidden.map f) code offset = _
      rw [Network.activator_image, hu gh, h.compose]
    dsimp only [id]
    rw [hcompose]
    exact Mirrors.lift_bind (toOption_makeGates_image h hu []) fun p _ => mirrors_freshName.bind fun name _ _ =>
      (mirrors_nameState h ⟨p, compose (u.network.activator gh) old.hidden code offset⟩ name).bind fun _ _ _ =>
        mirrors_record h old (some ⟨layer, token⟩) _
  · rw [hearlier] at hfind
    rw [hfind]
    exact .pure rfl

theorem mirrors_initial (h : Embeds f) (name : String) :
    Mirrors f s (initial name) (initial name) (ControlState.image f) :=
  .get_bind fun hs => Mirrors.lift_bind (toOption_makeGates_image h hs []) fun p _ =>
    (mirrors_freshHidden h).bind fun hidden _ _ => (mirrors_nameState h ⟨p, hidden⟩ name).bind fun _ _ _ => .pure rfl

theorem mirrors_settle (h : Embeds f) (old : ControlState α) (ticks : Nat) :
    Mirrors f s (settle old ticks) (settle (old.image f) ticks) (ControlState.image f) := by
  induction ticks generalizing s old with
  | zero => exact .pure rfl
  | succ ticks ih => exact (mirrors_transit h [] old none none).bind fun next _ _ => ih next

/-! ## Calls -/

theorem mirrors_perform (h : Embeds f) (states : List (ControlState α)) (c : Call) :
    Mirrors f s (c.perform states) (c.perform (states.map (ControlState.image f))) (List.map (ControlState.image f)) := by
  have hreturn : ∀ {x : Sequencing α (ControlState α)} {y : Sequencing β (ControlState β)},
      Mirrors f s x y (ControlState.image f) → Mirrors f s (do return states ++ [← x])
        (do return states.map (ControlState.image f) ++ [← y]) (List.map (ControlState.image f)) := fun hx =>
    hx.bind fun _ _ _ => .pure (by rw [List.map_append]; rfl)
  cases c with
  | context name => exact (mirrors_setContext name).bind fun _ _ _ => .pure rfl
  | initial name => exact hreturn (mirrors_initial h name)
  | transit gates old condition target =>
    have htarget : target.mapM ((states.map (ControlState.image f))[·]?) =
        (target.mapM (states[·]?)).map (Option.map (ControlState.image f)) := by
      cases target with
      | none => rfl
      | some i =>
        show some <$> (states.map (ControlState.image f))[i]? = Option.map _ (some <$> states[i]?)
        rw [List.getElem?_map]
        cases states[i]? with
        | none => rfl
        | some state => rfl
    simp only [Call.perform]
    rw [htarget, List.getElem?_map]
    cases states[old]? with
    | none => exact .pure rfl
    | some old =>
      cases target.mapM (states[·]?) with
      | none => exact .pure rfl
      | some target => exact hreturn (mirrors_transit h gates old condition target)
  | dispatch old layer token =>
    simp only [Call.perform, List.getElem?_map]
    cases states[old]? with
    | none => exact .pure rfl
    | some old => exact hreturn (mirrors_dispatch h old layer token)
  | settle old ticks =>
    simp only [Call.perform, List.getElem?_map]
    cases states[old]? with
    | none => exact .pure rfl
    | some old => exact hreturn (mirrors_settle h old ticks)
  | label state name =>
    simp only [Call.perform, List.getElem?_map]
    cases states[state]? with
    | none => exact .pure rfl
    | some state => exact (mirrors_nameState h state name).bind fun _ _ _ => .pure rfl

end

namespace Recording

variable {r : Recording α}

theorem call_image (h : Embeds f) (hr : r.sequencer.network.Standard) (c : Call) :
    (r.image f).call c = (r.call c).image f ∧ (r.call c).sequencer.network.Standard := by
  obtain ⟨h₁, h₂, h₃⟩ := mirrors_perform h r.states c hr
  have hsequencer : (r.image f).sequencer = r.sequencer.image f := rfl
  have hstates : (r.image f).states = r.states.map (ControlState.image f) := rfl
  unfold Recording.call
  rw [hsequencer, hstates]
  rcases hrun : (c.perform r.states).run.run r.sequencer with ⟨e | states, s⟩
  · rw [hrun] at h₁ h₂ h₃
    rcases hrun' : (c.perform (r.states.map (ControlState.image f))).run.run (r.sequencer.image f) with ⟨e' | states', s'⟩
    · rw [hrun'] at h₂
      exact ⟨congrArg (Recording.mk · _) h₂, h₁⟩
    · rw [hrun'] at h₃
      cases h₃
  · rw [hrun] at h₁ h₂ h₃
    rcases hrun' : (c.perform (r.states.map (ControlState.image f))).run.run (r.sequencer.image f) with ⟨e' | states', s'⟩
    · rw [hrun'] at h₃
      cases h₃
    · rw [hrun'] at h₂ h₃
      exact ⟨congrArg₂ Recording.mk h₂ (Option.some.inj h₃), h₁⟩

omit [Scalar α] in
theorem sequencer_image (r : Recording α) : (r.image f).sequencer = r.sequencer.image f := rfl

/-- Any calls do to the image of a recording what they do to the recording. -/
theorem calls_image (h : Embeds f) (hr : r.sequencer.network.Standard) (cs : List Call) :
    (r.image f).calls cs = (r.calls cs).image f := by
  induction cs generalizing r with
  | nil => rfl
  | cons c cs ih =>
    obtain ⟨hcall, hlater⟩ := call_image h hr c
    show ((r.image f).call c).calls cs = _
    rw [hcall]
    exact ih hlater

end Recording

end Sequencer

/-! ## Networks that are built -/

/-- The same configuration over other numbers, with the standard activator. -/
def Config.image (c : Config α) : Config β :=
  ⟨c.registers, c.layerSize, c.hiddenSize, .tanh, Activator.standard.pad, c.rule, c.orthogonal, c.pointerSlots, c.seed,
    c.maxTicks⟩

namespace Network

variable {c : Config α} {n : Network α}

theorem BuiltFrom.standard (h : n.BuiltFrom c) (hc : c.activator = .standard) : n.Standard := by
  intro l
  by_cases hl : l.position < n.layers.size
  · rw [h.activator_eq hl, hc]
  · unfold Network.activator Network.layer
    rw [Array.getD_eq_getD_getElem?, Array.getElem?_eq_none (Nat.not_lt.mp hl)]
    rfl

/-- The image of a network is the network of the image of its configuration. -/
theorem build_image (h : (Network.build c).value = .ok n) (f : α → β) (hvalid : (c.image : Config β).validate = .ok ()) :
    (Network.build (c.image : Config β)).value = .ok (n.image f) := by
  have hlayers : n.layers.map (Layer.image f) =
      ((controlNames ++ c.registers).mapIdx (buildLayer (c.image : Config β) n.gates.size)).toArray := by
    rw [(builtFrom_of_build h).layers]
    refine Array.ext (by simp) fun i h₁ h₂ => ?_
    simp only [Array.getElem_map, List.getElem_toArray, List.getElem_mapIdx]
    rfl
  unfold Network.build at h ⊢
  split at h
  · cases h
  rw [hvalid]
  dsimp only at h ⊢
  split at h
  · cases h
  next gates hgates =>
  simp only [Noted.value_bind, Noted.value_pure] at h
  cases h
  rw [show (c.image : Config β).registers = c.registers from rfl, hgates]
  simp only [Noted.value_bind, Noted.value_pure]
  unfold Network.image
  rw [hlayers]
  rfl

end Network

/-! ## Numbers in millionths as real numbers -/

namespace Fixed

/-- What the squashing function makes of a number, with the upper level in the scale of the levels
in millionths. -/
noncomputable def real (x : Fixed) : ℝ :=
  (Activator.standard : Activator ℝ).squash ((Activator.standard : Activator ℝ).depth * (x.millionths / 999000))

theorem real_injective : Function.Injective real := by
  intro x y h
  have hdepth := Activator.proper_standard.depth_pos
  have hle : ∀ u v : ℝ, (Activator.standard : Activator ℝ).squash u = (Activator.standard : Activator ℝ).squash v → u ≤ v :=
    fun u v h => (Activator.proper_standard.squash_le_squash u v).mp h.le
  have heq : (Activator.standard : Activator ℝ).depth * ((x.millionths : ℝ) / 999000) =
      (Activator.standard : Activator ℝ).depth * ((y.millionths : ℝ) / 999000) :=
    le_antisymm (hle _ _ h) (hle _ _ h.symm)
  have hquotient := mul_left_cancel₀ hdepth.ne' heq
  have hcast : (x.millionths : ℝ) = y.millionths := by linarith
  cases x
  cases y
  exact congrArg Fixed.mk (Int.cast_injective hcast)

/-- The composed units, in thirds of what saturates. -/
theorem composed_eq (x : Bool × Bool × Bool) : (Activator.standard : Activator Fixed).composed x =
    ⟨333000 * ((if x.1 then 1 else -1) + (if x.2.1 then 1 else -1) - (if x.2.2 then 1 else -1))⟩ := by
  obtain ⟨a, c, o⟩ := x
  cases a <;> cases c <;> cases o <;> decide +kernel

theorem embeds_real : Embeds real where
  zero := by
    show (Activator.standard : Activator ℝ).squash (_ * (((0 : Int) : ℝ) / 999000)) = 0
    rw [Int.cast_zero, zero_div, mul_zero, Activator.proper_standard.squash_zero, Activator.midpoint_tanh rfl]
  level b := by
    have hlevel : ((Activator.standard : Activator Fixed).level b).millionths = if b then 999000 else -999000 := by
      cases b <;> decide +kernel
    rw [real, hlevel, ← Activator.proper_standard.squash_level]
    congr 1
    cases b
    · norm_num
    · norm_num
  isOn x := by
    have hiff : (Activator.standard : Activator Fixed).isOn x = Fixed.positive x.millionths := by
      have hmid : (Activator.standard : Activator Fixed).midpoint = ⟨0⟩ := by decide +kernel
      show Fixed.positive (x.millionths - (Activator.standard : Activator Fixed).midpoint.millionths) = _
      rw [hmid, Int.sub_zero]
    rw [hiff, Bool.eq_iff_iff, real, Activator.proper_standard.isOn_squash, positive_iff,
      mul_pos_iff_of_pos_left Activator.proper_standard.depth_pos, div_pos_iff_of_pos_right (by norm_num), Int.cast_pos]
  composed x := by
    have hmid := Activator.proper_standard.inverse_midpoint
    rw [real, composed_eq, Activator.composed, hmid]
    congr 1
    obtain ⟨a, c, o⟩ := x
    simp only [signed, Activator.depth]
    push_cast
    cases a <;> cases c <;> cases o <;> norm_num <;> ring

end Fixed

/-! ## The small network over the real numbers -/

namespace Sequencer

theorem validate_realConfig : (smallConfig.image : Config ℝ).validate = .ok () := by
  have hregs : Config.registersFault? [] ["r0"] = (none : Option (ConfigFault ℝ)) := by rfl
  have hpower : Sylvester.isPowerOfTwo 8 = true := by decide
  unfold Config.validate Config.fault?
  simp only [smallConfig, Config.image, Config.standard, Activator.standard, hregs, hpower]
  norm_num

theorem build_realConfig :
    (Network.build (smallConfig.image : Config ℝ)).value = .ok (smallNetwork.image Fixed.real) :=
  Network.build_image build_smallConfig Fixed.real validate_realConfig

theorem calls_real (cs : List Call) : (⟨.new (smallNetwork.image Fixed.real), []⟩ : Recording ℝ).calls cs =
    ((⟨.new smallNetwork, []⟩ : Recording Fixed).calls cs).image Fixed.real :=
  Recording.calls_image (r := ⟨.new smallNetwork, []⟩) Fixed.embeds_real
    ((Network.builtFrom_of_build build_smallConfig).standard rfl) cs

end Sequencer

end Engram
