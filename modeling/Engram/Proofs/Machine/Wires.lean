/-
  Engram.Proofs.Machine.Wires — the wiring of a session.

  Pathways of four kinds carry tokens: the plastic ones, which are taught while a machine runs, the
  moves of the pointers, those that load an instruction from its place, and the data pathways.
  No pathway is of two kinds, so what each leads a token to can be listed (`Network.wiring`): a move
  leads a slot to the one beside it, the place of an instruction leads to its fields and to the
  place after it, and a data pathway leads what both of its layers know to itself. The session is
  told to recall all of this (`wired`), and it is all that an instruction needs (`loads`, `serves`).
-/

import Engram.Proofs.Data.Stock
import Engram.Proofs.Machine.Recall

namespace Engram

open LayerId
open Session (dataPathways fieldLayers Stocked isPlace IsLiteral)

/-- What `load` brings to a layer from the place of an instruction. -/
def Instruction.loaded (i : Instruction) (after : String) (l : LayerId) : Option String :=
  if l = ip then some after else (fieldLayers.find? (·.2 == l)).map (i.field ·.1)

variable {α : Type} [Scalar α]

namespace Network

/-- Whether a data pathway leads a token to itself: both of its layers know it, and what comes to the
instruction pointer is a place. -/
def carries (stock : Network α) (place : String → Bool) (p : Pathway) (token : String) : Bool :=
  (dataPathways stock.registers).contains p && (stock.layer p.source).knows token && (stock.layer p.target).knows token &&
    (p.target != ip || place token)

/-- What the pathways lead tokens to, at the place of an instruction. -/
def wiring (stock : Network α) (slots : Nat) (place : String → Bool) (i : Instruction) (here after : String) : Wiring :=
  fun p => if p ∈ stock.plastic then none else some fun token =>
    match Pointer.moves.lookup p with
    | some shift => shift.token? slots token
    | none =>
      if p.source = ip then if token = here then i.loaded after p.target else none
      else if stock.carries place p token then some token else none

end Network

/-! ## Kinds of pathways -/

section

variable {registers : List LayerId} {p : Pathway} {l : LayerId}

theorem lookup_moves {x : Pathway × Pointer.Shift} (hx : x ∈ Pointer.moves) : Pointer.moves.lookup x.1 = some x.2 := by
  have hall : ∀ x ∈ Pointer.moves, Pointer.moves.lookup x.1 = some x.2 := by decide
  exact hall x hx

theorem lookup_moves_none (h : p.source ∉ Pointer.layers) : Pointer.moves.lookup p = none := by
  refine List.lookup_eq_none_iff.mpr fun x hx => bne_iff_ne.mpr ?_
  rintro rfl
  exact h (Pointer.ends_of_moves x hx).1

theorem mem_moves_of_lookup {shift : Pointer.Shift} (h : Pointer.moves.lookup p = some shift) : (p, shift) ∈ Pointer.moves := by
  obtain ⟨before, after, heq, -⟩ := List.lookup_eq_some_iff.mp h
  rw [heq]
  exact List.mem_append_right _ List.mem_cons_self

variable (hbeyond : ∀ r ∈ registers, ¬ IsControl r)

include hbeyond

/-- What is plastic besides the fixed pathways joins a register. -/
theorem not_mem_plastic (hsource : IsControl p.source) (htarget : IsControl p.target) (h : p ∉ plasticPathways []) :
    p ∉ plasticPathways registers := by
  intro hp
  rcases List.mem_append.mp ((plasticPathways_perm registers).mem_iff.mp hp) with hp | hp
  · exact h hp
  · obtain ⟨r, hr, hp⟩ := List.mem_flatMap.mp hp
    rcases joins_registerPlastic p hp with ⟨rfl, -⟩ | ⟨rfl, -⟩
    · exact hbeyond _ hr hsource
    · exact hbeyond _ hr htarget

theorem not_mem_plastic_of_move {x : Pathway × Pointer.Shift} (hx : x ∈ Pointer.moves) : x.1 ∉ plasticPathways registers := by
  have hall : ∀ x ∈ Pointer.moves, IsControl x.1.source ∧ IsControl x.1.target ∧ x.1 ∉ plasticPathways [] := by decide
  obtain ⟨hsource, htarget, hx⟩ := hall x hx
  exact not_mem_plastic hbeyond hsource htarget hx

theorem not_mem_plastic_of_load (hl : l = ip ∨ l ∈ fieldLayers.map (·.2)) : ⟨l, ip⟩ ∉ plasticPathways registers := by
  have hall : ∀ l, l = ip ∨ l ∈ fieldLayers.map (·.2) → IsControl l ∧ (⟨l, ip⟩ : Pathway) ∉ plasticPathways [] := by
    rintro l (rfl | hl)
    · decide
    · revert l
      decide
  exact not_mem_plastic hbeyond (by decide : IsControl ip) (hall l hl).1 (hall l hl).2

omit hbeyond in
theorem ends_of_data (hp : p ∈ dataPathways registers) : (p.source ∈ registers ∨ p.source ∈ [op1, op2]) ∧
    (p.target ∈ registers ∨ p.target ∈ [ci, ip]) := by
  simp only [dataPathways, List.mem_append, List.mem_flatMap, List.mem_map, List.mem_cons, List.not_mem_nil, or_false] at hp
  rcases hp with ⟨r, hr, ⟨r', hr', rfl⟩ | rfl | rfl | rfl⟩ | rfl | rfl
  · exact ⟨.inl hr', .inl hr⟩
  · exact ⟨.inr (by simp), .inl hr⟩
  · exact ⟨.inl hr, .inr (by simp)⟩
  · exact ⟨.inl hr, .inr (by simp)⟩
  · exact ⟨.inr (by simp), .inr (by simp)⟩
  · exact ⟨.inr (by simp), .inr (by simp)⟩

/-- A control layer that no data pathway comes from. -/
theorem source_ne_of_data (hp : p ∈ dataPathways registers) (hl : IsControl l) (hother : l ∉ [op1, op2]) : p.source ≠ l := by
  rintro rfl
  exact (ends_of_data hp).1.elim (fun hr => hbeyond _ hr hl) hother

/-- A control layer that no data pathway leads into. -/
theorem target_ne_of_data (hp : p ∈ dataPathways registers) (hl : IsControl l) (hother : l ∉ [ci, ip]) : p.target ≠ l := by
  rintro rfl
  exact (ends_of_data hp).2.elim (fun hr => hbeyond _ hr hl) hother

theorem not_mem_plastic_of_data (hp : p ∈ dataPathways registers) : p ∉ plasticPathways registers := by
  intro hplastic
  rcases List.mem_append.mp ((plasticPathways_perm registers).mem_iff.mp hplastic) with hfixed | hjoins
  · have hsources : ∀ q ∈ plasticPathways [], IsControl q.source ∧ q.source ∉ [op1, op2] := by decide
    exact source_ne_of_data hbeyond hp (hsources p hfixed).1 (hsources p hfixed).2 rfl
  · obtain ⟨r, -, hjoins⟩ := List.mem_flatMap.mp hjoins
    simp only [registerPlastic, List.mem_cons, List.not_mem_nil, or_false] at hjoins
    rcases hjoins with rfl | rfl | rfl
    · exact source_ne_of_data (l := mf) hbeyond hp (by decide) (by decide) rfl
    · exact target_ne_of_data (l := mf) hbeyond hp (by decide) (by decide) rfl
    · exact target_ne_of_data (l := mb) hbeyond hp (by decide) (by decide) rfl

end

/-! ## What each kind leads to -/

section

variable {stock : Network α} {slots : Nat} {place : String → Bool} {i : Instruction} {here after : String} {p : Pathway}
  {l : LayerId} (hbeyond : ∀ r ∈ stock.registers, ¬ IsControl r)

theorem wiring_plastic (hp : p ∈ stock.plastic) : stock.wiring slots place i here after p = none := if_pos hp

include hbeyond

theorem wiring_move {x : Pathway × Pointer.Shift} (hx : x ∈ Pointer.moves) :
    stock.wiring slots place i here after x.1 = some (x.2.token? slots) := by
  unfold Network.wiring Network.plastic
  rw [if_neg (not_mem_plastic_of_move hbeyond hx), lookup_moves hx]

theorem wiring_load (hl : l = ip ∨ l ∈ fieldLayers.map (·.2)) : ∃ f, stock.wiring slots place i here after ⟨l, ip⟩ = some f ∧
    f here = i.loaded after l := by
  refine ⟨_, if_neg (not_mem_plastic_of_load hbeyond hl), ?_⟩
  rw [lookup_moves_none (p := ⟨l, ip⟩) (by decide : ip ∉ Pointer.layers)]
  dsimp only
  rw [if_pos rfl, if_pos rfl]

theorem wiring_data (hp : p ∈ dataPathways stock.registers) : stock.wiring slots place i here after p =
    some fun token => if stock.carries place p token then some token else none := by
  have hcontrol : ∀ l ∈ Pointer.layers, IsControl l ∧ l ∉ [op1, op2] := by decide
  unfold Network.wiring Network.plastic
  rw [if_neg (not_mem_plastic_of_data hbeyond hp), lookup_moves_none fun hl =>
    source_ne_of_data hbeyond hp (hcontrol _ hl).1 (hcontrol _ hl).2 rfl]
  have hsource : p.source ≠ ip := source_ne_of_data hbeyond hp (by decide) (by decide)
  exact congrArg some (funext fun _ => if_neg hsource)

/-- The place of the instruction leads to what is loaded. -/
theorem loads : Processor.Loads (stock.wiring slots place i here after) i here after :=
  ⟨wiring_load hbeyond (.inl rfl), wiring_load hbeyond (.inr (by decide)), wiring_load hbeyond (.inr (by decide)),
    wiring_load hbeyond (.inr (by decide))⟩

/-- A data pathway leads what both of its layers know to itself. -/
theorem wiring_known {source : LayerId} (hp : ⟨l, source⟩ ∈ dataPathways stock.registers) : ∃ f,
    stock.wiring slots place i here after ⟨l, source⟩ = some f ∧ ∀ t, (stock.layer source).knows t = true →
      (stock.layer l).knows t = true → (l = ip → place t = true) → f t = some t := by
  refine ⟨_, wiring_data hbeyond hp, fun t hsource htarget hplace => if_pos ?_⟩
  simp only [Network.carries, Bool.and_eq_true, List.contains_iff_mem, Bool.or_eq_true, bne_iff_ne]
  exact ⟨⟨⟨hp, hsource⟩, htarget⟩, Decidable.not_or_of_imp hplace⟩

/-- The wiring carries what an instruction of one of the programs needs. -/
theorem serves {calls : List Session.Call} (hstocked : Stocked calls stock) {c : Session.Call} (hc : c ∈ calls)
    (hi : i ∈ (c.program.withScope c.name).instructions)
    (hliteral : .literal ∈ i.opcode.operands → IsLiteral calls stock.registerNames i.second)
    (hlabel : .label ∈ i.opcode.operands → isPlace calls i.first = true) :
    (stock.wiring slots (isPlace calls) i here after).Serves stock.registers slots (isPlace calls)
      (IsLiteral calls stock.registerNames) i := by
  have hmem {r : LayerId} (hr : r ∈ stock.registers) {p : Pathway}
      (hp : p ∈ stock.registers.map (⟨r, ·⟩) ++ [⟨r, op2⟩, ⟨ci, r⟩, ⟨ip, r⟩]) : p ∈ dataPathways stock.registers :=
    List.mem_append_left _ (List.mem_flatMap.mpr ⟨r, hr, hp⟩)
  have hne {l : LayerId} (hl : l ∈ ci :: stock.registers) : l ≠ ip := by
    rintro rfl
    rcases List.mem_cons.mp hl with hci | hl
    · exact absurd hci (by decide)
    · exact hbeyond ip hl (by decide)
  refine ⟨fun x hx => wiring_move hbeyond hx, fun p hp => wiring_plastic hp, fun h l hl => ?_, fun h => ?_, fun r hr l hl => ?_,
    fun r hr => ?_⟩
  · have hp : ⟨l, op2⟩ ∈ dataPathways stock.registers := by
      rcases List.mem_cons.mp hl with rfl | hl
      · exact List.mem_append_right _ List.mem_cons_self
      · exact hmem hl (List.mem_append_right _ List.mem_cons_self)
    obtain ⟨f, hf, hknown⟩ := wiring_known hbeyond hp
    exact ⟨f, hf, hknown _ (hstocked.operands c hc i hi .second op2 (by decide)) (hstocked.literals _ (hliteral h) l hl)
      fun hip => (hne hl hip).elim⟩
  · obtain ⟨f, hf, hknown⟩ := wiring_known hbeyond (List.mem_append_right _ (by decide) : ⟨ip, op1⟩ ∈ dataPathways stock.registers)
    exact ⟨f, hf, hknown _ (hstocked.operands c hc i hi .first op1 (by decide)) (hstocked.places _ (hlabel h)) fun _ => hlabel h⟩
  · have hp : ⟨l, r⟩ ∈ dataPathways stock.registers := by
      rcases List.mem_cons.mp hl with rfl | hl
      · exact hmem hr (List.mem_append_right _ (by simp))
      · exact hmem hl (List.mem_append_left _ (List.mem_map_of_mem hr))
    obtain ⟨f, hf, hknown⟩ := wiring_known hbeyond hp
    exact ⟨f, hf, fun t ht => hknown t (hstocked.literals t ht r (List.mem_cons_of_mem _ hr)) (hstocked.literals t ht l hl)
      fun hip => (hne hl hip).elim⟩
  · have hp : ⟨ip, r⟩ ∈ dataPathways stock.registers := hmem hr (List.mem_append_right _ (by simp))
    refine ⟨_, wiring_data hbeyond hp, fun t ht => if_congr ?_ rfl rfl⟩
    simp only [Network.carries, Bool.and_eq_true, List.contains_iff_mem, bne_self_eq_false, Bool.false_or]
    exact ⟨fun h => h.2, fun h => ⟨⟨⟨hp, hstocked.literals t ht r (List.mem_cons_of_mem _ hr)⟩, hstocked.places t h⟩, h⟩⟩

end

/-! ## What the session recalls -/

/-- A shift takes slots to slots. -/
theorem Pointer.Shift.exists_slot {shift : Pointer.Shift} {slots : Nat} {t t' : String} (h : shift.token? slots t = some t') :
    ∃ k < slots, t' = Pointer.slotToken k := by
  obtain ⟨before, rest, heq, -⟩ := List.lookup_eq_some_iff.mp h
  have hmem : (t, t') ∈ shift.pairs ((List.range slots).map Pointer.slotToken) ((List.range slots).map Pointer.slotToken) :=
    heq ▸ List.mem_append_right _ List.mem_cons_self
  have hslot : t' ∈ (List.range slots).map Pointer.slotToken := by
    cases shift with
    | on => exact List.mem_of_mem_drop (List.of_mem_zip hmem).2
    | back => exact (List.of_mem_zip hmem).2
    | stay => exact (List.of_mem_zip hmem).2
  obtain ⟨k, hk, rfl⟩ := List.mem_map.mp hslot
  exact ⟨k, List.mem_range.mp hk, rfl⟩

/-- The tokens of a layer are told apart by their patterns. -/
theorem Network.Legible.apart {n : Network α} (h : n.Legible) {l : LayerId} (hip : l ≠ ip) (hgh : l ≠ gh) {t t' : String}
    {x : Pattern α} (hx : (n.layer l).pattern? t = some x) (hx' : (n.layer l).pattern? t' = some x) : t' = t := by
  rw [← h l hip hgh t x hx, h l hip hgh t' x hx']

/-- A session is told to recall all that its wiring leads to. -/
theorem wired {stock : Network α} {s : Session α} {slots : Nat} {place : String → Bool} {c : Session.Call}
    {ps : List (Pattern α)} {line : Nat} {i : Instruction} (hbeyond : ∀ r ∈ stock.registers, ¬ IsControl r)
    (hgrows : stock.Grows s.network) (hshared : ∀ p ∈ dataPathways stock.registers, Session.HoldsShared stock s.pairs p)
    (hexact : ∀ x y : α, Scalar.same x y = true → x = y) (hlegible : s.network.Legible)
    (hslots : ∀ l ∈ Pointer.layers, ∀ k < slots, (s.network.layer l).knows (Pointer.slotToken k) = true)
    (hheld : Session.Holds s c ps) (hi : (c.program.withScope c.name).instructions[line]? = some i) {here after : String}
    (hhere : c.tokens[line]? = some here) (hafter : c.tokens[line + 1]? = some after) :
    (stock.wiring slots place i here after).Wired s slots := by
  have hline : line < c.program.size := by
    rw [← Program.size_withScope c.program c.name]
    exact (List.getElem?_eq_some_iff.mp hi).1
  have hplace {k : Nat} {t : String} (ht : c.tokens[k]? = some t) : (s.network.layer ip).pattern? t = some (ps.getD k #[]) := by
    obtain ⟨hk, rfl⟩ := List.getElem?_eq_some_iff.mp ht
    have hk' : k < ps.length := hheld.pointers.length_eq ▸ hk
    rw [List.getD_eq_getElem _ _ hk']
    exact (List.forall₂_iff_get.mp hheld.pointers).2 k hk hk'
  have hregisters := hgrows.registers
  unfold Network.wiring
  refine ⟨fun p hp => ?_, fun p f hp t t' x hf hx => ?_⟩
  · by_contra hplastic
    unfold Network.plastic at hplastic hp
    rw [hregisters] at hplastic
    rw [if_neg hplastic] at hp
    cases hp
  split at hp
  · cases hp
  cases hp
  dsimp only at hf
  split at hf
  next shift hshift =>
    have hmove := mem_moves_of_lookup hshift
    obtain ⟨k, hk, rfl⟩ := Pointer.Shift.exists_slot hf
    have htargets : ∀ x ∈ Pointer.moves, x.1.target ∈ Pointer.layers := by decide
    obtain ⟨y, hy⟩ := Option.isSome_iff_exists.mp (hslots p.target (htargets _ hmove) k hk)
    exact ⟨y, hy, fun log => .pointer hmove hf hx hy⟩
  next =>
    split at hf
    next hsource =>
      -- from the place of the instruction
      split at hf
      next heq =>
        subst heq
        obtain ⟨l, source⟩ := p
        obtain rfl : source = ip := hsource
        obtain rfl := Option.some.inj (hx.symm.trans (hplace hhere))
        unfold Instruction.loaded at hf
        split at hf
        next hl =>
          have hl : l = ip := hl
          subst hl
          obtain rfl := Option.some.inj hf
          exact ⟨_, hplace hafter, fun log => .program (hheld.next line hline)⟩
        next hl =>
          obtain ⟨⟨field, layer⟩, hfound, rfl⟩ := Option.map_eq_some_iff.mp hf
          have hlayer : (layer == l) = true := List.find?_some (p := fun x : Field × LayerId => x.2 == l) hfound
          obtain rfl := beq_iff_eq.mp hlayer
          obtain ⟨q, hq, htarget⟩ := hheld.fields line i hi field layer (List.mem_of_find?_eq_some hfound)
          exact ⟨q, hq, fun log => .program htarget⟩
      next => cases hf
    next hsource =>
      -- by a data pathway
      split at hf
      next hcarries =>
        obtain rfl := Option.some.inj hf
        simp only [Network.carries, Bool.and_eq_true, List.contains_iff_mem] at hcarries
        obtain ⟨⟨⟨hdata, hfrom⟩, hto⟩, -⟩ := hcarries
        have hgh := source_ne_of_data (l := gh) hbeyond hdata (by decide) (by decide)
        obtain ⟨y, hy, htarget⟩ := (hshared p hdata).target hexact hgrows
          (fun t t' x hx hx' => hlegible.apart hsource hgh hx hx') hfrom hto hx
        exact ⟨y, hy, fun log => .program htarget⟩
      next => cases hf

end Engram
