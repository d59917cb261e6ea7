/-
  Engram.Proofs.Program.Scoping — what a scope does to the operands of a program.

  A scope puts the name of the program and a colon in front of every operand that spells a label.
  No label has a colon, so labels stay apart from each other and from `null`, and each still names
  its line (`position?_withScope`). Reading sees to it that no label is a register, but only as the
  label is written: a literal, or a register, can be spelled like a label under its scope. These are
  the only operands that a scope brings together, and the only ones it makes registers
  (`withScope_operands`).
-/

import Engram.Proofs.Program.Grammar
import Engram.Proofs.Program.Labels
import Engram.Proofs.Program.Tokens
import Engram.Proofs.Scalar.Fixed

namespace Engram

/-- The operands that are written, each with its kind. -/
def Instruction.typed (i : Instruction) : List (Operand × String) := i.opcode.operands.zip i.operands

namespace Program

open Session (isProgramName labelToken toList_labelToken)

/-- The tokens in both operand fields of every instruction. -/
def operandTokens (p : Program) : List String := p.instructions.flatMap Instruction.operands

/-! ## What reading sees to -/

section

variable {registers : List String} {source : String} {p : Program}

/-- Labels are no registers, are not `null`, and have no colon. -/
theorem labelStands_of_parse (h : parse registers source = .ok p) {label : String} (hl : p.hasLabel label = true) :
    LabelStands registers label := by
  obtain ⟨lines, -, hformed, rfl⟩ := (parse_eq_ok_iff _ _ _).mp h
  obtain ⟨l, hmem, heq⟩ := List.any_eq_true.mp hl
  refine hformed.labels label ?_
  rw [← Draft.map_fst_positionsOf, ← beq_iff_eq.mp heq]
  exact List.mem_map_of_mem hmem

theorem hasLabel_described {lines : List Statement} {label : String} (h : label ∈ labelsOf lines) :
    (described lines).hasLabel label = true := by
  rw [← Draft.map_fst_positionsOf] at h
  obtain ⟨l, hmem, rfl⟩ := List.mem_map.mp h
  exact List.any_eq_true.mpr ⟨l, hmem, beq_self_eq_true _⟩

/-- The operands of an instruction are those of its line. -/
theorem typed_eq_zip {op : Opcode} {operands : List String} (h : op.operands.length = operands.length) (line : Nat) :
    Instruction.typed ⟨op, operands.getD 0 nullToken, operands.getD 1 nullToken, line⟩ = op.operands.zip operands := by
  have htwo : operands.length ≤ 2 := h ▸ op.arity_le_two
  unfold Instruction.typed Instruction.operands
  match operands, htwo with
  | [], _ => rw [List.length_eq_zero_iff.mp h]; rfl
  | [first], _ =>
    obtain ⟨kind, hkind⟩ := List.length_eq_one_iff.mp h
    rw [hkind]
    rfl
  | [first, second], _ => rfl

/-- An instruction stands on a line, with the operands that are written there. -/
theorem exists_line (h : parse registers source = .ok p) {i : Instruction} (hi : i ∈ p.instructions) :
    ∃ lines, WellFormed registers lines ∧ p = described lines ∧ ∃ s ∈ lines, ∃ operands,
      s.instruction = some (i.opcode, operands) ∧ List.Forall₂ (Operand.Admits registers) i.opcode.operands operands ∧
        i.typed = i.opcode.operands.zip operands := by
  obtain ⟨lines, -, hformed, rfl⟩ := (parse_eq_ok_iff _ _ _).mp h
  obtain ⟨⟨s, number⟩, hmem, hinstruction⟩ := List.mem_filterMap.mp hi
  have hs : s ∈ lines := List.fst_mem_of_mem_zipIdx hmem
  obtain ⟨⟨op, operands⟩, hwritten, rfl⟩ := Option.map_eq_some_iff.mp hinstruction
  have hadmits := hformed.operands s hs op operands hwritten
  exact ⟨lines, hformed, rfl, s, hs, operands, hwritten, hadmits, typed_eq_zip hadmits.length_eq _⟩

/-- An operand that has to be a label is one. -/
theorem hasLabel_of_typed (h : parse registers source = .ok p) {i : Instruction} (hi : i ∈ p.instructions)
    {token : String} (htoken : (Operand.label, token) ∈ i.typed) : p.hasLabel token = true := by
  obtain ⟨lines, hformed, rfl, s, hs, operands, hwritten, -, htyped⟩ := exists_line h hi
  rw [htyped] at htoken
  refine hasLabel_described (hformed.defined s hs token ?_)
  simp only [Statement.labelOperands, hwritten]
  exact List.mem_map_of_mem (f := Prod.snd) (List.mem_filter.mpr ⟨htoken, rfl⟩)

/-- An operand that is written may stand where it does. -/
theorem admits_of_typed (h : parse registers source = .ok p) {i : Instruction} (hi : i ∈ p.instructions)
    {kind : Operand} {token : String} (htoken : (kind, token) ∈ i.typed) : kind.Admits registers token := by
  obtain ⟨-, -, -, -, -, operands, -, hadmits, htyped⟩ := exists_line h hi
  rw [htyped] at htoken
  exact (List.forall₂_iff_zip.mp hadmits).2 htoken

end

/-! ## Tokens under a scope -/

section

variable {p : Program} {scope a b : String}

theorem labelToken_injective (scope : String) : Function.Injective (labelToken scope) := by
  intro a b h
  have hlist := congrArg String.toList h
  rw [toList_labelToken, toList_labelToken] at hlist
  exact String.toList_inj.mp (List.cons.inj (List.append_cancel_left hlist)).2

theorem rename_label (h : p.hasLabel a = true) (scope : String) : p.rename scope a = labelToken scope a := if_pos h

theorem rename_other (h : ¬ p.hasLabel a = true) (scope : String) : p.rename scope a = a := if_neg h

/-- A scope brings a label together with what is spelled like it under the scope, and no other tokens. -/
theorem rename_eq_iff (p : Program) (scope a b : String) : p.rename scope a = p.rename scope b ↔ a = b ∨
    (p.hasLabel a = true ∧ ¬ p.hasLabel b = true ∧ b = labelToken scope a) ∨
    (p.hasLabel b = true ∧ ¬ p.hasLabel a = true ∧ a = labelToken scope b) := by
  by_cases ha : p.hasLabel a = true <;> by_cases hb : p.hasLabel b = true
  · rw [rename_label ha, rename_label hb, (labelToken_injective scope).eq_iff]
    simp [ha, hb]
  · rw [rename_label ha, rename_other hb]
    refine ⟨fun h => .inr (.inl ⟨ha, hb, h.symm⟩), ?_⟩
    rintro (rfl | ⟨-, -, h⟩ | ⟨h, -, -⟩)
    · exact (hb ha).elim
    · exact h.symm
    · exact (hb h).elim
  · rw [rename_other ha, rename_label hb]
    refine ⟨fun h => .inr (.inr ⟨hb, ha, h⟩), ?_⟩
    rintro (rfl | ⟨h, -, -⟩ | ⟨-, -, h⟩)
    · exact (ha hb).elim
    · exact (ha h).elim
    · exact h
  · rw [rename_other ha, rename_other hb]
    simp [ha, hb]

/-- Every label names under a scope the line that it named before. -/
theorem position?_withScope (h : p.hasLabel a = true) (scope : String) :
    (p.withScope scope).position? (p.rename scope a) = p.position? a := by
  rw [rename_label h, position?, position?, labels_withScope]
  clear h
  induction p.labels with
  | nil => rfl
  | cons l rest ih =>
    have hsame : (labelToken scope a == scope ++ ":" ++ l.1) = (a == l.1) := by
      rw [Bool.eq_iff_iff, beq_iff_eq, beq_iff_eq]
      exact (labelToken_injective scope).eq_iff
    rw [List.map_cons, List.lookup_cons, List.lookup_cons, hsame, ih]

/-- A label names a line. -/
theorem position?_of_hasLabel (h : p.hasLabel a = true) : ∃ line, p.position? a = some line := by
  obtain ⟨l, hmem, heq⟩ := List.any_eq_true.mp h
  refine Option.isSome_iff_exists.mp (List.lookup_isSome_iff.mpr ⟨l, hmem, ?_⟩)
  rw [beq_iff_eq.mp heq, beq_self_eq_true]

theorem mem_operandTokens_withScope : b ∈ (p.withScope scope).operandTokens ↔
    ∃ a ∈ p.operandTokens, p.rename scope a = b := by
  have hmap : (p.withScope scope).operandTokens = p.operandTokens.map (p.rename scope) := by
    simp only [operandTokens, withScope, List.flatMap_map, List.map_flatMap]
    rfl
  rw [hmap, List.mem_map]

theorem mem_literals {registers : List String} :
    a ∈ p.literals registers ↔ a ∈ p.operandTokens ∧ a ≠ nullToken ∧ a ∉ registers := by
  simp only [literals, operandTokens, Text.sortedSet, List.mem_eraseDups, List.mem_mergeSort, List.mem_flatMap,
    List.mem_filter, Bool.and_eq_true, bne_iff_ne, Bool.not_eq_true', List.contains_eq_mem, decide_eq_false_iff_not]
  constructor
  · rintro ⟨i, hi, ha, hliteral⟩
    exact ⟨⟨i, hi, ha⟩, hliteral⟩
  · rintro ⟨⟨i, hi, ha⟩, hliteral⟩
    exact ⟨i, hi, ha, hliteral⟩

theorem labelToken_ne_null (scope label : String) : labelToken scope label ≠ nullToken := by
  intro h
  have hcolon : ':' ∈ nullToken.toList := by
    rw [← h, toList_labelToken]
    simp
  exact absurd hcolon (by decide)

/-- Under a scope the operands of an instruction have the kinds they had. -/
theorem typed_rename (i : Instruction) (f : String → String) :
    Instruction.typed { i with first := f i.first, second := f i.second } = i.typed.map fun x => (x.1, f x.2) := by
  have hoperands : Instruction.operands { i with first := f i.first, second := f i.second } = i.operands.map f := rfl
  simp only [Instruction.typed, hoperands, List.zip_map_right]
  rfl

end

/-! ## Operands of each kind -/

section

variable {registers : List String} {source scope : String} {p : Program} {i : Instruction} {kind : Operand} {token : String}

theorem typed_first (h : i.opcode.operands[0]? = some kind) : (kind, i.first) ∈ i.typed :=
  List.mem_of_getElem? (i := 0) (List.getElem?_zip_eq_some.mpr ⟨h, rfl⟩)

theorem typed_second (h : i.opcode.operands[1]? = some kind) : (kind, i.second) ∈ i.typed :=
  List.mem_of_getElem? (i := 1) (List.getElem?_zip_eq_some.mpr ⟨h, rfl⟩)

theorem exists_typed (hi : i ∈ (p.withScope scope).instructions) (htoken : (kind, token) ∈ i.typed) :
    ∃ j ∈ p.instructions, ∃ a, (kind, a) ∈ j.typed ∧ p.rename scope a = token := by
  obtain ⟨j, hj, rfl⟩ := List.mem_map.mp hi
  rw [typed_rename, List.mem_map] at htoken
  obtain ⟨⟨k, a⟩, ha, heq⟩ := htoken
  cases heq
  exact ⟨j, hj, a, ha, rfl⟩

/-- No scope changes the name of a register. -/
theorem mem_registers_of_typed (h : parse registers source = .ok p) (hi : i ∈ (p.withScope scope).instructions)
    (htoken : (Operand.register, token) ∈ i.typed) : token ∈ registers := by
  obtain ⟨j, hj, a, ha, rfl⟩ := exists_typed hi htoken
  have hregister : a ∈ registers := (admits_of_typed h hj ha).register.mpr rfl
  rwa [rename_other fun hlabel => (labelStands_of_parse h hlabel).notRegister hregister]

/-- A label is one under every scope. -/
theorem mem_labels_of_typed (h : parse registers source = .ok p) (hi : i ∈ (p.withScope scope).instructions)
    (htoken : (Operand.label, token) ∈ i.typed) : token ∈ (p.withScope scope).labels.map (·.1) := by
  obtain ⟨j, hj, a, ha, rfl⟩ := exists_typed hi htoken
  obtain ⟨l, hl, heq⟩ := List.any_eq_true.mp (hasLabel_of_typed h hj ha)
  rw [← beq_iff_eq.mp heq]
  exact List.mem_map_of_mem (f := Prod.fst) (List.mem_map_of_mem (f := fun l => (p.rename scope l.1, l.2)) hl)

theorem typed_subset : ∀ x ∈ i.typed, x.2 ∈ i.operands := fun _ hx => (List.of_mem_zip hx).2

/-- A literal is one under every scope in which it is not spelled like a register. -/
theorem mem_literals_of_typed (h : parse registers source = .ok p) (hi : i ∈ (p.withScope scope).instructions)
    (htoken : (Operand.literal, token) ∈ i.typed) (hother : token ∉ registers) :
    token ∈ (p.withScope scope).literals registers := by
  refine mem_literals.mpr ⟨List.mem_flatMap.mpr ⟨i, hi, typed_subset _ htoken⟩, ?_, hother⟩
  obtain ⟨j, hj, a, ha, rfl⟩ := exists_typed hi htoken
  unfold rename
  split
  · exact labelToken_ne_null scope a
  · exact (admits_of_typed h hj ha).present

end

/-- What a scope does to the operands of a program that was read. Two are the same under the scope
if they were, or if one is a label and the other is spelled like it under the scope; one is a
register if it was, or if it is a label and a register is spelled like it under the scope, and the
literals are all others. An operand that has to be a label keeps its place, and names the line that
it named. -/
theorem withScope_operands {registers : List String} {source : String} {p : Program}
    (h : parse registers source = .ok p) (scope : String) :
    (∀ a b, p.rename scope a = p.rename scope b ↔ a = b ∨
      (p.hasLabel a = true ∧ ¬ p.hasLabel b = true ∧ b = labelToken scope a) ∨
      (p.hasLabel b = true ∧ ¬ p.hasLabel a = true ∧ a = labelToken scope b)) ∧
    (∀ a, p.rename scope a ∈ registers ↔ a ∈ registers ∨ (p.hasLabel a = true ∧ labelToken scope a ∈ registers)) ∧
    (∀ a ∈ p.operandTokens, a ≠ nullToken → (p.rename scope a ∈ (p.withScope scope).literals registers ↔
      a ∉ registers ∧ ¬ (p.hasLabel a = true ∧ labelToken scope a ∈ registers))) ∧
    ∀ (k : Nat) (i : Instruction), p.instructions[k]? = some i →
      ∃ renamed, (p.withScope scope).instructions[k]? = some renamed ∧
        renamed.typed = i.typed.map (fun x => (x.1, p.rename scope x.2)) ∧
        ∀ token, (Operand.label, token) ∈ i.typed → ∃ line, p.position? token = some line ∧
          (p.withScope scope).position? (p.rename scope token) = some line := by
  have hregister : ∀ a, p.rename scope a ∈ registers ↔
      a ∈ registers ∨ (p.hasLabel a = true ∧ labelToken scope a ∈ registers) := by
    intro a
    by_cases ha : p.hasLabel a = true
    · rw [rename_label ha]
      exact ⟨fun hr => .inr ⟨ha, hr⟩, fun hr => hr.elim (fun hr => ((labelStands_of_parse h ha).notRegister hr).elim) (·.2)⟩
    · rw [rename_other ha]
      exact ⟨.inl, fun hr => hr.elim id fun hr => (ha hr.1).elim⟩
  refine ⟨p.rename_eq_iff scope, hregister, fun a ha hnull => ?_, fun k i hi => ?_⟩
  · have hrenamed : p.rename scope a ≠ nullToken := by
      unfold rename
      split
      · exact labelToken_ne_null scope a
      · exact hnull
    rw [mem_literals, hregister, not_or]
    exact ⟨fun hl => hl.2.2, fun hl => ⟨mem_operandTokens_withScope.mpr ⟨a, ha, rfl⟩, hrenamed, hl⟩⟩
  · refine ⟨{ i with first := p.rename scope i.first, second := p.rename scope i.second }, ?_, typed_rename i _, ?_⟩
    · simp only [withScope, List.getElem?_map, hi, Option.map_some]
    · intro token htoken
      have hlabel := hasLabel_of_typed h (List.mem_of_getElem? hi) htoken
      obtain ⟨line, hline⟩ := position?_of_hasLabel hlabel
      exact ⟨line, hline, by rw [position?_withScope hlabel, hline]⟩

/-- A loop that also moves its label into a register. -/
def labelledLoop : Program := ⟨[⟨.movv, "r0", "x", 1⟩, ⟨.jmpv, "x", "null", 2⟩], [("x", 0)]⟩

theorem labelledLoop_operands :
    parse ["r0"] "x: movv r0 x\njmpv x" = .ok labelledLoop ∧
    labelledLoop.rename "p" "x" ∉ ["r0"] ∧
    labelledLoop.rename "p" "x" ∈ (labelledLoop.withScope "p").literals ["r0"] ∧
    (labelledLoop.withScope "p").position? (labelledLoop.rename "p" "x") = some 0 := by
  have hparse : parse ["r0"] "x: movv r0 x\njmpv x" = .ok labelledLoop := by decide +kernel
  obtain ⟨-, hregister, hliteral, hlabel⟩ := withScope_operands hparse "p"
  obtain ⟨-, -, -, hposition⟩ := hlabel 1 _ rfl
  obtain ⟨line, hline, hscoped⟩ := hposition "x" (by decide)
  refine ⟨hparse, ?_, (hliteral "x" (by decide) (by decide)).mpr (by decide +kernel), ?_⟩
  · rw [hregister]
    decide +kernel
  · rw [hscoped, ← hline]
    rfl

/-- A label becomes a register and is no literal any more where a register is spelled like it under
the scope, over registers that pass validation; and it becomes the same as a literal of its program
that is spelled so. -/
theorem scope_brings_together :
    (Config.validate { smallConfig with registers := ["r0", "p:x"] }).toBool = true ∧ isProgramName "p" = true ∧
    (∃ p, parse ["r0", "p:x"] "x: jmpv x" = .ok p ∧ "x" ∈ p.operandTokens ∧ "x" ∉ ["r0", "p:x"] ∧
      p.rename "p" "x" ∈ ["r0", "p:x"] ∧ (p.withScope "p").literals ["r0", "p:x"] = []) ∧
    ∃ q, parse ["r0"] "x: movv r0 p:x\njmpv x" = .ok q ∧ "p:x" ∈ q.operandTokens ∧ "x" ∈ q.operandTokens ∧
      q.rename "p" "p:x" = q.rename "p" "x" := by
  refine ⟨by decide +kernel, by decide +kernel, ⟨⟨[⟨.jmpv, "x", "null", 1⟩], [("x", 0)]⟩, ?_⟩,
    ⟨[⟨.movv, "r0", "p:x", 1⟩, ⟨.jmpv, "x", "null", 2⟩], [("x", 0)]⟩, ?_⟩
  · exact ⟨by decide +kernel, by decide, by decide, by decide +kernel, by decide +kernel⟩
  · exact ⟨by decide +kernel, by decide, by decide, by decide +kernel⟩

end Program

end Engram
