/-
  Engram.Proofs.Data.Stock — what the layers know of the programs of a session.

  A call that succeeds gives patterns to the literals of its program on every register, to the
  operands on the layers that they are loaded into, and to the entry, the lines and the labels on
  the instruction pointer. No later call takes any of it away (`stocked_of_reach`). Each call also
  tells every data pathway to recall all that both of its layers know at that time, so a data
  pathway carries what the programs have on both of its layers (`HoldsShared.target`). What is
  encoded after the last call, it need not carry.
-/

import Engram.Proofs.Data.Namespaces

namespace Engram.Session

open LayerId

/-- The token is the entry, a line or a label of one of the programs. -/
def isPlace (calls : List Call) (token : String) : Bool :=
  calls.any fun c => (ownTokens c.program c.name).contains token

/-- The token is a literal of one of the programs, as they were assembled. -/
def IsLiteral (calls : List Call) (registers : List String) (token : String) : Prop :=
  ∃ c ∈ calls, token ∈ (c.program.withScope c.name).literals registers

theorem isPlace_iff {calls : List Call} {token : String} :
    isPlace calls token = true ↔ ∃ c ∈ calls, token ∈ ownTokens c.program c.name := by
  simp only [isPlace, List.any_eq_true, List.contains_iff_mem]

variable {α : Type} [Scalar α] {n later : Network α} {s : Session α} {calls : List Call} {c : Call}

/-- The layers know the tokens of the programs. -/
structure Stocked (calls : List Call) (n : Network α) : Prop where
  literals : ∀ t, IsLiteral calls n.registerNames t → ∀ l ∈ ci :: n.registers, (n.layer l).knows t = true
  operands : ∀ c ∈ calls, ∀ i ∈ (c.program.withScope c.name).instructions, ∀ f layer, (f, layer) ∈ fieldLayers →
    (n.layer layer).knows (i.field f) = true
  places : ∀ t, isPlace calls t = true → (n.layer ip).knows t = true

theorem stocked_nil (n : Network α) : Stocked [] n :=
  ⟨fun _ ⟨_, hc, _⟩ => (List.not_mem_nil hc).elim, fun _ hc => (List.not_mem_nil hc).elim, nofun⟩

theorem Stocked.of_grows (h : Stocked calls n) (hgrows : n.Grows later) : Stocked calls later := by
  refine ⟨fun t ht l hl => ?_, fun c hc i hi f layer hf => ?_, fun t ht => ?_⟩
  · rw [hgrows.registerNames] at ht
    rw [hgrows.registers] at hl
    exact hgrows.knows trivial (h.literals t ht l hl)
  · exact hgrows.knows trivial (h.operands c hc i hi f layer hf)
  · exact hgrows.knows trivial (h.places t ht)

/-- A call adds to what the layers know. -/
theorem Stocked.call {t : Session α} {ps : List (Pattern α)} (h : Stocked calls s.network) (hnumbered : s.network.Numbered)
    (ht : Taught s t (c.program.withScope c.name) c.name ps) : Stocked (calls ++ [c]) t.network := by
  have hregisters := ht.keeps.registers
  have hnames := ht.keeps.registerNames
  have hkept {l : LayerId} (hl : l ≠ ip) {x : String} (hx : (s.network.layer l).knows x = true) :
      (t.network.layer l).knows x = true := ht.keeps.knows (fun hlabel => hl hlabel.1) hx
  have hlayers : ∀ x ∈ fieldLayers, x.2 ≠ ip := by decide
  refine ⟨fun x hx l hl => ?_, fun d hd i hi f layer hf => ?_, fun x hx => ?_⟩
  · obtain ⟨d, hd, hx⟩ := hx
    rcases List.mem_append.mp hd with hd | hd
    · rw [hnames] at hx
      rw [hregisters] at hl
      exact hkept (of_mem_literalLayers hnumbered hl).2 (h.literals x ⟨d, hd, hx⟩ l hl)
    · rw [List.mem_singleton.mp hd] at hx
      exact ht.literals l hl x hx
  · rcases List.mem_append.mp hd with hd | hd
    · exact hkept (hlayers _ hf) (h.operands d hd i hi f layer hf)
    · rw [List.mem_singleton.mp hd] at hi
      obtain ⟨qs, hqs, -⟩ := ht.fields f layer hf
      obtain ⟨k, hk, heq⟩ := List.getElem_of_mem (List.mem_map_of_mem (f := fun i : Instruction => i.field f) hi)
      have hpattern := (List.forall₂_iff_get.mp hqs).2 k hk (hqs.length_eq ▸ hk)
      rw [List.get_eq_getElem, heq] at hpattern
      exact Option.isSome_iff_exists.mpr ⟨_, hpattern⟩
  · -- a label that is bound again is known by its new pattern
    by_cases hlabel : x ∈ labelTokens c.program c.name
    · obtain ⟨l, hl, rfl⟩ := List.mem_map.mp hlabel
      exact Option.isSome_iff_exists.mpr ⟨_, ht.labels l hl⟩
    obtain ⟨d, hd, hown⟩ := isPlace_iff.mp hx
    rcases List.mem_append.mp hd with hd | hd
    · exact ht.keeps.knows (fun hbound => hlabel hbound.2) (h.places x (isPlace_iff.mpr ⟨d, hd, hown⟩))
    · rw [List.mem_singleton.mp hd] at hown
      have hpointer := (mem_ownTokens.mp hown).resolve_right hlabel
      rw [← Program.size_withScope c.program c.name] at hpointer
      obtain ⟨k, hk, rfl⟩ := List.getElem_of_mem hpointer
      exact Option.isSome_iff_exists.mpr ⟨_, (List.forall₂_iff_get.mp ht.pointers).2 k hk (ht.pointers.length_eq ▸ hk)⟩

/-- After calls that succeeded the layers know the tokens of all programs; and the data pathways are
told to recall what their layers knew after the last of them. -/
theorem stocked_of_reach [SameLaws α] (hsound : n.Sound) (hnumbered : n.Numbered) (h : Reach n calls s) :
    Stocked calls s.network ∧ (calls ≠ [] → ∃ earlier : Network α, earlier.Grows s.network ∧ Stocked calls earlier ∧
      ∀ p ∈ dataPathways earlier.registers, HoldsShared earlier s.pairs p) := by
  induction h with
  | start => exact ⟨stocked_nil n, fun hne => (hne rfl).elim⟩
  | encode _ hgrows _ ih =>
    refine ⟨ih.1.of_grows hgrows, fun hne => ?_⟩
    obtain ⟨earlier, hbefore, hstocked, hshared⟩ := ih.2 hne
    exact ⟨earlier, hbefore.trans hgrows, hstocked, hshared⟩
  | @call calls s t c source a hreach hparse hdoes ih =>
    have hgood := (known_of_reach hsound hnumbered hreach).good
    obtain ⟨-, ⟨ps, hps⟩, -⟩ := does_assemble hgood (Program.labelled_of_parse hparse) hdoes
    have hstocked := ih.1.call hgood.numbered hps
    exact ⟨hstocked, fun _ => ⟨t.network, .refl _, hstocked, hps.shared⟩⟩

/-- Every program of a session was read over the registers of the network. -/
theorem Reach.parsed (h : Reach n calls s) : ∀ c ∈ calls, ∃ source, Program.parse n.registerNames source = .ok c.program := by
  induction h with
  | start => exact fun c hc => (List.not_mem_nil hc).elim
  | encode _ _ _ ih => exact ih
  | call _ hparse _ ih =>
    intro c hc
    rcases List.mem_append.mp hc with hc | hc
    · exact ih c hc
    · rw [List.mem_singleton.mp hc]
      exact ⟨_, hparse⟩

/-- Calls rebind tokens on the instruction pointer only. -/
theorem Reach.keeps [SameLaws α] (hsound : n.Sound) (hnumbered : n.Numbered) (h : Reach n calls s) :
    n.Keeps (fun l _ => l ≠ ip) s.network := by
  induction h with
  | start => exact .refl n
  | encode _ hgrows _ ih => exact ih.trans (hgrows.mono fun _ _ _ => trivial)
  | call hreach hparse hdoes ih =>
    obtain ⟨-, ⟨ps, hps⟩, -⟩ := does_assemble (known_of_reach hsound hnumbered hreach).good (Program.labelled_of_parse hparse) hdoes
    exact ih.trans (hps.keeps.mono fun _ _ hl h => hl h.1)

/-- A data pathway is told to recall what both of its layers knew, if the patterns of its source tell
the tokens apart. -/
theorem HoldsShared.target {p : Pathway} {m : PairMap α} (h : HoldsShared n m p)
    (hexact : ∀ x y : α, Scalar.same x y = true → x = y) (hgrows : n.Grows later)
    (hapart : ∀ t t' x, (later.layer p.source).pattern? t = some x → (later.layer p.source).pattern? t' = some x → t' = t)
    {t : String} (hsource : (n.layer p.source).knows t = true) (htarget : (n.layer p.target).knows t = true)
    {x : Pattern α} (hx : (later.layer p.source).pattern? t = some x) :
    ∃ y, (later.layer p.target).pattern? t = some y ∧ m.target? p x = some y := by
  obtain ⟨x', hx'⟩ := Option.isSome_iff_exists.mp hsource
  obtain ⟨y, hy⟩ := Option.isSome_iff_exists.mp htarget
  have hlater {u : String} {z : Pattern α} (hz : (n.layer p.source).pattern? u = some z) :
      (later.layer p.source).pattern? u = some z := hgrows.pattern _ u z trivial hz
  obtain rfl := Option.some.inj ((hlater hx').symm.trans hx)
  refine ⟨y, hgrows.pattern _ _ y trivial hy, h t x' y hx' hy fun u z hz hsame => ?_⟩
  exact hapart t u x' hx (Pairs.eq_of_samePattern hexact hsame ▸ hlater hz)

end Engram.Session
