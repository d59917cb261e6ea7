/-
  Engram.Proofs.Program.Grammar — the language of program texts.

  A text is a list of lines, and a line says at most two things: a label and an instruction
  (`Statement`). The grammar has two halves. `Statement.Writes` says which words write a line:
  a label with a colon after it, then a mnemonic with its operands. `WellFormed` says what the
  whole text has to be: operands of the right kinds, labels that can stand and are defined once,
  some instruction, none but defined labels as label operands, and no label after the last
  instruction.

  Reading a text keeps a draft that holds exactly the lines so far (`Draft.Holds`). So the texts
  that are read are those of the grammar, and the program that is read is the one that the lines
  describe (`parse_eq_ok_iff`).
-/

import Engram.Program.Parser
import Engram.Proofs.Text.Pieces
import Mathlib.Data.List.DropRight
import Mathlib.Data.List.Forall2

namespace Engram

theorem Opcode.ofWord?_eq_some_iff {word : List Char} {op : Opcode} :
    Opcode.ofWord? (String.ofList word) = some op ↔ word.map Char.toLower = op.mnemonic.toList := by
  unfold Opcode.ofWord?
  rw [String.toList_ofList]
  constructor
  · intro h
    have hfound := List.find?_some h
    rw [beq_iff_eq] at hfound
    rw [hfound, String.toList_ofList]
  · intro h
    rw [h, String.ofList_toList]
    exact Opcode.ofMnemonic?_mnemonic op

/-- A token may stand as an operand of a kind. -/
@[mk_iff]
structure Operand.Admits (registers : List String) (kind : Operand) (token : String) : Prop where
  present : token ≠ nullToken
  register : token ∈ registers ↔ kind = .register

namespace Program

/-- What one line says. -/
structure Statement where
  label : Option String
  /-- The opcode and the operands that are written. -/
  instruction : Option (Opcode × List String)

/-- The words of each line before its first `#`. -/
def sourceWords (source : String) : List (List (List Char)) :=
  (source.toList.splitOn '\n').map fun line =>
    ((line.takeWhile (· != '#')).splitOnP Text.isBlank).filter (· ≠ [])

namespace Statement

/-- The words that define a label. -/
def WritesLabel : Option String → List (List Char) → Prop
  | none, words => words = []
  | some label, words => words = [label.toList ++ [':']]

/-- The words of an instruction: its mnemonic, in upper or lower case letters, and its operands. -/
def WritesInstruction : Option (Opcode × List String) → List (List Char) → Prop
  | none, words => words = []
  | some (op, operands), words =>
    ∃ word, word.map Char.toLower = op.mnemonic.toList ∧ words = word :: operands.map String.toList

/-- The words of the line. -/
def Writes (s : Statement) (words : List (List Char)) : Prop :=
  ∃ defining instructing, WritesLabel s.label defining ∧ WritesInstruction s.instruction instructing ∧
    words = defining ++ instructing

/-- The operands that have to be labels. -/
def labelOperands (s : Statement) : List String :=
  match s.instruction with
  | none => []
  | some (op, operands) => ((op.operands.zip operands).filter (·.1 == .label)).map (·.2)

/-- The instruction of the line of a number; operands that are not written are `null`. -/
def instructionAt (s : Statement) (line : Nat) : Option Instruction :=
  s.instruction.map fun (op, operands) =>
    ⟨op, operands.getD 0 nullToken, operands.getD 1 nullToken, line⟩

end Statement

/-- The labels that lines define, in order. -/
def labelsOf (lines : List Statement) : List String := lines.filterMap (·.label)

/-- The instructions of lines that are numbered from 1. -/
def instructionsOf (lines : List Statement) : List Instruction :=
  (lines.zipIdx 1).filterMap fun (s, number) => s.instructionAt number

/-- Each label with the number of instructions on the lines before its own. -/
def positionsOf (lines : List Statement) : List (String × Nat) :=
  lines.zipIdx.filterMap fun (s, i) => s.label.map fun label => (label, (instructionsOf (lines.take i)).length)

/-- The lines after the last one that has an instruction. -/
def tailOf (lines : List Statement) : List Statement := lines.rtakeWhile fun s => s.instruction.isNone

/-- A label can stand in a text over the given registers. -/
structure LabelStands (registers : List String) (label : String) : Prop where
  nonempty : label ≠ ""
  noColon : ':' ∉ label.toList
  notNull : label ≠ nullToken
  notRegister : label ∉ registers

/-- What holds of the lines of a text up to any point. -/
structure Checked (registers : List String) (lines : List Statement) : Prop where
  operands : ∀ s ∈ lines, ∀ op operands, s.instruction = some (op, operands) →
    List.Forall₂ (Operand.Admits registers) op.operands operands
  labels : ∀ label ∈ labelsOf lines, LabelStands registers label
  once : (labelsOf lines).Nodup

/-- The lines are those of a program. -/
structure WellFormed (registers : List String) (lines : List Statement) : Prop extends Checked registers lines where
  inhabited : ∃ s ∈ lines, s.instruction ≠ none
  closed : ∀ s ∈ tailOf lines, s.label = none
  defined : ∀ s ∈ lines, ∀ token ∈ s.labelOperands, token ∈ labelsOf lines

/-- The program that lines describe. -/
def described (lines : List Statement) : Program := ⟨instructionsOf lines, positionsOf lines⟩

/-! ## The words of one line -/

namespace Draft

theorem label?_eq_some_iff {word : List Char} {label : String} :
    label? word = some label ↔ word = label.toList ++ [':'] := by
  unfold label?
  constructor
  · intro h
    split at h
    next hlast =>
      cases h
      rw [String.toList_ofList]
      exact (List.dropLast_append_getLast? ':' hlast).symm
    · cases h
  · rintro rfl
    simp

/-- The word of an instruction opens no label. -/
theorem label?_mnemonic {word : List Char} {op : Opcode} (h : word.map Char.toLower = op.mnemonic.toList) :
    label? word = none := by
  cases hlabel : label? word with
  | none => rfl
  | some label =>
    rw [label?_eq_some_iff.mp hlabel, List.map_append] at h
    have hlast : op.mnemonic.toList.getLast? = some ':' := by
      rw [← h]
      simp
    cases op <;> exact absurd hlast (by decide)

end Draft

namespace Statement

variable {s : Statement} {word : List Char} {rest : List (List Char)}

/-- No words write a line that says nothing. -/
theorem writes_nil_iff : s.Writes [] ↔ s = ⟨none, none⟩ := by
  constructor
  · rintro ⟨defining, instructing, hlabel, hinstruction, hwords⟩
    obtain ⟨rfl, rfl⟩ := List.append_eq_nil_iff.mp hwords.symm
    obtain ⟨_ | label, _ | ⟨op, operands⟩⟩ := s
    · rfl
    · obtain ⟨_, _, h⟩ := hinstruction
      cases h
    · cases hlabel
    · cases hlabel
  · rintro rfl
    exact ⟨[], [], rfl, rfl, rfl⟩

/-- The words of a line whose first one opens a label. -/
theorem writes_cons_of_label {label : String} (h : Draft.label? word = some label) :
    s.Writes (word :: rest) ↔ s.label = some label ∧ WritesInstruction s.instruction rest := by
  constructor
  · rintro ⟨defining, instructing, hlabel, hinstruction, hwords⟩
    cases hs : s.label with
    | none =>
      rw [hs] at hlabel
      cases hlabel
      rw [List.nil_append] at hwords
      cases hi : s.instruction with
      | none =>
        rw [hi, ← hwords] at hinstruction
        cases hinstruction
      | some i =>
        rw [hi, ← hwords] at hinstruction
        obtain ⟨w, hw, hcons⟩ := hinstruction
        cases hcons
        rw [Draft.label?_mnemonic hw] at h
        cases h
    | some l =>
      rw [hs] at hlabel
      cases hlabel
      cases hwords
      rw [Draft.label?_eq_some_iff.mpr rfl] at h
      exact ⟨h, hinstruction⟩
  · rintro ⟨hs, hinstruction⟩
    refine ⟨[word], rest, ?_, hinstruction, rfl⟩
    rw [hs, Draft.label?_eq_some_iff.mp h]
    rfl

/-- The words of a line whose first one opens no label. -/
theorem writes_cons_of_no_label (h : Draft.label? word = none) :
    s.Writes (word :: rest) ↔ s.label = none ∧ WritesInstruction s.instruction (word :: rest) := by
  constructor
  · rintro ⟨defining, instructing, hlabel, hinstruction, hwords⟩
    cases hs : s.label with
    | none =>
      rw [hs] at hlabel
      cases hlabel
      rw [List.nil_append] at hwords
      exact ⟨rfl, hwords ▸ hinstruction⟩
    | some l =>
      rw [hs] at hlabel
      cases hlabel
      cases hwords
      rw [Draft.label?_eq_some_iff.mpr rfl] at h
      cases h
  · rintro ⟨hs, hinstruction⟩
    exact ⟨[], word :: rest, by rw [hs]; rfl, hinstruction, rfl⟩

end Statement

/-! ## One line more -/

section

variable (lines : List Statement) (s : Statement)

theorem labelsOf_concat : labelsOf (lines ++ [s]) = labelsOf lines ++ s.label.toList := by
  cases h : s.label <;> simp [labelsOf, h]

theorem instructionsOf_concat :
    instructionsOf (lines ++ [s]) = instructionsOf lines ++ (s.instructionAt (lines.length + 1)).toList := by
  unfold instructionsOf
  rw [List.zipIdx_append, List.filterMap_append, Nat.add_comm]
  cases h : s.instructionAt (lines.length + 1) <;> simp [h]

theorem instructionsOf_eq_nil_iff : instructionsOf lines = [] ↔ ∀ s ∈ lines, s.instruction = none := by
  induction lines using List.reverseRecOn with
  | nil => simp [instructionsOf]
  | append_singleton lines s ih =>
    rw [instructionsOf_concat, List.append_eq_nil_iff, ih, List.forall_mem_append, List.forall_mem_singleton]
    simp [Statement.instructionAt]

theorem positionsOf_concat : positionsOf (lines ++ [s]) =
    positionsOf lines ++ s.label.toList.map fun label => (label, (instructionsOf lines).length) := by
  unfold positionsOf
  rw [List.zipIdx_append, List.filterMap_append]
  congr 1
  · refine List.filterMap_congr fun p hp => ?_
    have hlt : p.2 < lines.length := by
      have := List.mem_zipIdx hp
      omega
    show Option.map _ p.1.label = Option.map _ p.1.label
    rw [List.take_append_of_le_length hlt.le]
  · cases h : s.label <;> simp [h]

theorem tailOf_concat : tailOf (lines ++ [s]) = if s.instruction.isNone then tailOf lines ++ [s] else [] := by
  unfold tailOf
  rw [List.rtakeWhile_concat]

theorem checked_nil (registers : List String) : Checked registers [] :=
  ⟨fun _ hs => (List.not_mem_nil hs).elim, fun _ hl => (List.not_mem_nil hl).elim, List.nodup_nil⟩

variable {lines s}

/-- What a line adds to what was checked. -/
structure Fits (registers : List String) (lines : List Statement) (s : Statement) : Prop where
  label : ∀ label ∈ s.label, LabelStands registers label ∧ label ∉ labelsOf lines
  operands : ∀ op operands, s.instruction = some (op, operands) →
    List.Forall₂ (Operand.Admits registers) op.operands operands

theorem fits_nothing (registers : List String) (lines : List Statement) : Fits registers lines ⟨none, none⟩ :=
  ⟨fun l hl => (Option.not_mem_none l hl).elim, fun _ _ h => (Option.some_ne_none _ h.symm).elim⟩

theorem checked_concat {registers : List String} :
    Checked registers (lines ++ [s]) ↔ Checked registers lines ∧ Fits registers lines s := by
  constructor
  · rintro ⟨hoperands, hlabels, honce⟩
    rw [labelsOf_concat] at hlabels honce
    rw [List.nodup_append] at honce
    refine ⟨⟨fun t ht => hoperands t (List.mem_append_left _ ht), fun l hl => hlabels l (List.mem_append_left _ hl),
      honce.1⟩, ⟨fun l hl => ?_, hoperands s (by simp)⟩⟩
    have hmem : l ∈ s.label.toList := Option.mem_toList.mpr hl
    exact ⟨hlabels l (List.mem_append_right _ hmem), fun hold => honce.2.2 l hold l hmem rfl⟩
  · rintro ⟨⟨hoperands, hlabels, honce⟩, hfits⟩
    refine ⟨fun t ht => ?_, fun l hl => ?_, ?_⟩
    · rcases List.mem_append.mp ht with ht | ht
      · exact hoperands t ht
      · exact List.mem_singleton.mp ht ▸ hfits.operands
    · rw [labelsOf_concat] at hl
      rcases List.mem_append.mp hl with hl | hl
      · exact hlabels l hl
      · exact (hfits.label l (Option.mem_toList.mp hl)).1
    · rw [labelsOf_concat, List.nodup_append]
      refine ⟨honce, by cases s.label <;> simp, fun a ha b hb heq => ?_⟩
      exact (hfits.label b (Option.mem_toList.mp hb)).2 (heq ▸ ha)

theorem Checked.of_append {registers : List String} {lines more : List Statement}
    (h : Checked registers (lines ++ more)) : Checked registers lines := by
  induction more using List.reverseRecOn with
  | nil => rwa [List.append_nil] at h
  | append_singleton more s ih =>
    rw [← List.append_assoc] at h
    exact ih (checked_concat.mp h).1

end

/-! ## The draft of the lines so far -/

namespace Draft

/-- The draft holds exactly what the lines say. -/
structure Holds (d : Draft) (lines : List Statement) : Prop where
  instructions : d.instructions = instructionsOf lines
  /-- A label that waits will name the instruction that is read next. -/
  labels : d.labels ++ d.pending.map (fun l => (l.1, d.instructions.length)) = positionsOf lines
  pending : d.pending.map (·.1) = labelsOf (tailOf lines)
  references : d.references.map (·.1) = lines.flatMap (·.labelOperands)

variable {registers : List String} {lines : List Statement} {d d' : Draft} {s : Statement}

theorem holds_empty : Draft.empty.Holds [] := ⟨rfl, rfl, rfl, rfl⟩

theorem map_fst_positionsOf (lines : List Statement) : (positionsOf lines).map (·.1) = labelsOf lines := by
  induction lines using List.reverseRecOn with
  | nil => rfl
  | append_singleton lines s ih =>
    rw [positionsOf_concat, labelsOf_concat, List.map_append, ih]
    cases s.label <;> rfl

theorem Holds.names (h : d.Holds lines) : (d.labels ++ d.pending).map (·.1) = labelsOf lines := by
  rw [← map_fst_positionsOf, ← h.labels]
  simp [List.map_append, List.map_map, Function.comp_def]

/-- The draft after a label. -/
theorem define_eq_ok_iff (h : d.Holds lines) {number : Nat} {label : String} :
    d.define registers number label = .ok d' ↔
      (LabelStands registers label ∧ label ∉ labelsOf lines) ∧
        d' = { d with pending := d.pending ++ [(label, number)] } := by
  have hempty : label.isEmpty = true ↔ label = "" := String.isEmpty_iff
  have hknown : (d.labels.any (·.1 == label) || d.pending.any (·.1 == label)) = true ↔ label ∈ labelsOf lines := by
    rw [← h.names, ← List.any_append, List.any_eq_true, List.mem_map]
    exact exists_congr fun l => and_congr_right fun _ => beq_iff_eq
  unfold define
  split
  next hinvalid =>
    refine iff_of_false (fun h => by cases h) fun hstands => ?_
    rw [Bool.or_eq_true, hempty, List.contains_iff_mem] at hinvalid
    exact hinvalid.elim hstands.1.1.nonempty hstands.1.1.noColon
  next hinvalid =>
  split
  next hreserved =>
    refine iff_of_false (fun h => by cases h) fun hstands => ?_
    rw [Bool.or_eq_true, beq_iff_eq, List.contains_iff_mem] at hreserved
    exact hreserved.elim hstands.1.1.notNull hstands.1.1.notRegister
  next hreserved =>
  split
  next hrepeated => exact iff_of_false (fun h => by cases h) fun hstands => hstands.1.2 (hknown.mp hrepeated)
  next hrepeated =>
  rw [Bool.or_eq_true, hempty, List.contains_iff_mem, not_or] at hinvalid
  rw [Bool.or_eq_true, beq_iff_eq, List.contains_iff_mem, not_or] at hreserved
  have hstands : LabelStands registers label ∧ label ∉ labelsOf lines :=
    ⟨⟨hinvalid.1, hinvalid.2, hreserved.1, hreserved.2⟩, fun hmem => hrepeated (hknown.mpr hmem)⟩
  simp only [hstands, not_false_eq_true, and_self, true_and, Except.ok.injEq, eq_comm]

theorem checkOperand_eq_ok_iff (op : Opcode) {kind : Operand} {token : String} :
    checkOperand registers op kind token = .ok () ↔ kind.Admits registers token := by
  unfold checkOperand
  by_cases hnull : token = nullToken
  · rw [if_pos (by simpa using hnull)]
    exact iff_of_false (fun h => by cases h) fun h => h.present hnull
  · rw [if_neg (by simpa using hnull), Operand.admits_iff]
    cases hmem : registers.contains token with
    | true =>
      have hin : token ∈ registers := List.contains_iff_mem.mp hmem
      cases kind <;> simp [hnull, hin]
    | false =>
      have hin : token ∉ registers := fun h => by
        rw [List.contains_iff_mem.mpr h] at hmem
        cases hmem
      cases kind <;> simp [hnull, hin]

theorem checkOperands_eq_ok_iff (registers : List String) (op : Opcode) {kinds : List Operand} {tokens : List String}
    (hlength : tokens.length = kinds.length) : checkOperands registers op kinds tokens = .ok () ↔
      List.Forall₂ (Operand.Admits registers) kinds tokens := by
  induction kinds generalizing tokens with
  | nil =>
    cases List.length_eq_zero_iff.mp hlength
    exact iff_of_true rfl .nil
  | cons kind kinds ih =>
    cases tokens with
    | nil => cases hlength
    | cons token tokens =>
      rw [checkOperands, List.forall₂_cons, ← checkOperand_eq_ok_iff op, ← ih (Nat.succ.inj hlength)]
      cases checkOperand registers op kind token with
      | error flaw => exact iff_of_false (fun h => by cases h) fun h => by cases h.1
      | ok u => exact (and_iff_right rfl).symm

/-- The draft after the instruction of a line, if it has one. -/
def instructed (number : Nat) : Option (Opcode × List String) → Draft → Draft
  | none, d => d
  | some (op, operands), d => {
      instructions := d.instructions ++ [⟨op, operands.getD 0 nullToken, operands.getD 1 nullToken, number⟩]
      labels := d.labels ++ d.pending.map fun l => (l.1, d.instructions.length)
      pending := []
      references := d.references ++ (labelOperands op operands).map (·, number) }

/-- The draft after a line. -/
def after (number : Nat) (s : Statement) (d : Draft) : Draft :=
  { d with pending := d.pending ++ s.label.toList.map (·, number) }.instructed number s.instruction

theorem append_eq_ok_iff {number : Nat} {word : List Char} {operands : List String} :
    d.append registers number (String.ofList word) operands = .ok d' ↔ ∃ op : Opcode,
      word.map Char.toLower = op.mnemonic.toList ∧
        List.Forall₂ (Operand.Admits registers) op.operands operands ∧
        d' = d.instructed number (some (op, operands)) := by
  unfold append
  cases hop : Opcode.ofWord? (String.ofList word) with
  | none =>
    refine iff_of_false (fun h => by cases h) fun ⟨op, hword, _⟩ => ?_
    rw [Opcode.ofWord?_eq_some_iff.mpr hword] at hop
    cases hop
  | some op =>
    have hword := Opcode.ofWord?_eq_some_iff.mp hop
    have hunique : ∀ o : Opcode, word.map Char.toLower = o.mnemonic.toList → o = op := fun o ho =>
      Opcode.mnemonic_injective (String.toList_injective (ho.symm.trans hword))
    by_cases hlength : operands.length = op.arity
    · dsimp only
      rw [if_neg (not_not.mpr hlength)]
      have hchecked := checkOperands_eq_ok_iff registers op hlength
      cases hcheck : checkOperands registers op op.operands operands with
      | error flaw =>
        refine iff_of_false (fun h => by cases h) fun ⟨o, ho, hadmits, _⟩ => ?_
        cases hunique o ho
        rw [hchecked.mpr hadmits] at hcheck
        cases hcheck
      | ok u =>
        constructor
        · intro h
          exact ⟨op, hword, hchecked.mp hcheck, (Except.ok.inj h).symm⟩
        · rintro ⟨o, ho, _, rfl⟩
          cases hunique o ho
          rfl
    · refine iff_of_false (fun h => ?_) fun ⟨o, ho, hadmits, _⟩ => ?_
      · dsimp only at h
        rw [if_pos hlength] at h
        cases h
      · cases hunique o ho
        exact hlength (List.Forall₂.length_eq hadmits).symm

theorem readInstruction_eq_ok_iff {number : Nat} {words : List (List Char)} :
    d.readInstruction registers number words = .ok d' ↔ ∃ instruction,
      Statement.WritesInstruction instruction words ∧
        (∀ op operands, instruction = some (op, operands) →
          List.Forall₂ (Operand.Admits registers) op.operands operands) ∧
        d' = d.instructed number instruction := by
  cases words with
  | nil =>
    constructor
    · intro h
      exact ⟨none, rfl, fun _ _ hnone => (Option.some_ne_none _ hnone.symm).elim, (Except.ok.inj h).symm⟩
    · rintro ⟨_ | ⟨op, operands⟩, hwrites, _, rfl⟩
      · rfl
      · obtain ⟨word, _, hwords⟩ := hwrites
        cases hwords
  | cons word rest =>
    rw [readInstruction, append_eq_ok_iff]
    constructor
    · rintro ⟨op, hword, hadmits, rfl⟩
      have hrest : rest = (rest.map String.ofList).map String.toList := by
        simp [List.map_map, Function.comp_def]
      exact ⟨some (op, rest.map String.ofList), ⟨word, hword, congrArg _ hrest⟩,
        fun _ _ h => by cases h; exact hadmits, rfl⟩
    · rintro ⟨_ | ⟨op, operands⟩, hwrites, hadmits, rfl⟩
      · cases hwrites
      · obtain ⟨_, hword, hwords⟩ := hwrites
        cases hwords
        have hrest : (operands.map String.toList).map String.ofList = operands := by
          simp [List.map_map, Function.comp_def]
        rw [hrest]
        exact ⟨op, hword, hadmits op operands rfl, rfl⟩

/-- A line is read as what its words write, if that fits the lines before. -/
theorem readWords_eq_ok_iff (h : d.Holds lines) {number : Nat} {words : List (List Char)} :
    d.readWords registers number words = .ok d' ↔
      ∃ s : Statement, s.Writes words ∧ Fits registers lines s ∧ d' = d.after number s := by
  cases words with
  | nil =>
    constructor
    · intro hread
      cases hread
      exact ⟨⟨none, none⟩, Statement.writes_nil_iff.mpr rfl, fits_nothing registers lines, by simp [after, instructed]⟩
    · rintro ⟨s, hwrites, _, rfl⟩
      cases Statement.writes_nil_iff.mp hwrites
      simp [readWords, after, instructed]
  | cons word rest =>
    rw [readWords]
    cases hlabel : label? word with
    | none =>
      rw [readInstruction_eq_ok_iff]
      constructor
      · rintro ⟨instruction, hwrites, hadmits, rfl⟩
        exact ⟨⟨none, instruction⟩, (Statement.writes_cons_of_no_label hlabel).mpr ⟨rfl, hwrites⟩,
          ⟨fun l hl => (Option.not_mem_none l hl).elim, hadmits⟩, by simp [after]⟩
      · rintro ⟨⟨_, instruction⟩, hwrites, hfits, rfl⟩
        obtain ⟨rfl, hwrites⟩ := (Statement.writes_cons_of_no_label hlabel).mp hwrites
        exact ⟨instruction, hwrites, hfits.operands, by simp [after]⟩
    | some label =>
      dsimp only
      constructor
      · intro hread
        cases hdefine : d.define registers number label with
        | error flaw =>
          rw [hdefine] at hread
          cases hread
        | ok e =>
        rw [hdefine] at hread
        obtain ⟨hstands, rfl⟩ := (define_eq_ok_iff h).mp hdefine
        obtain ⟨instruction, hwrites, hadmits, rfl⟩ := readInstruction_eq_ok_iff.mp hread
        exact ⟨⟨some label, instruction⟩, (Statement.writes_cons_of_label hlabel).mpr ⟨rfl, hwrites⟩,
          ⟨fun l hl => by cases hl; exact hstands, hadmits⟩, rfl⟩
      · rintro ⟨⟨_, instruction⟩, hwrites, hfits, rfl⟩
        obtain ⟨rfl, hwrites⟩ := (Statement.writes_cons_of_label hlabel).mp hwrites
        rw [(define_eq_ok_iff h).mpr ⟨hfits.label label rfl, rfl⟩]
        exact readInstruction_eq_ok_iff.mpr ⟨instruction, hwrites, hfits.operands, rfl⟩

/-- A line more is held with the lines before. -/
theorem Holds.after (h : d.Holds lines) (s : Statement) : (d.after (lines.length + 1) s).Holds (lines ++ [s]) := by
  obtain ⟨label, instruction⟩ := s
  constructor
  · rw [instructionsOf_concat, ← h.instructions]
    cases instruction <;> simp [Draft.after, instructed, Statement.instructionAt]
  · rw [positionsOf_concat, ← h.labels, ← h.instructions]
    cases instruction <;> simp [Draft.after, instructed, Function.comp_def]
  · rw [tailOf_concat]
    cases instruction with
    | none => simp [Draft.after, instructed, labelsOf_concat, h.pending, Function.comp_def]
    | some i => rfl
  · rw [List.flatMap_append, ← h.references]
    cases instruction with
    | none => simp [Draft.after, instructed, Statement.labelOperands]
    | some i => simp [Draft.after, instructed, Statement.labelOperands, labelOperands, Function.comp_def]

theorem readLines_sound {rest : List (List Char)} {done : List Statement} (h : d.Holds done)
    (hc : Checked registers done) (hread : d.readLines registers (done.length + 1) rest = .ok d') :
    ∃ more, List.Forall₂ Statement.Writes more (rest.map lineWords) ∧ Checked registers (done ++ more) ∧
      d'.Holds (done ++ more) := by
  induction rest generalizing d done with
  | nil =>
    cases hread
    exact ⟨[], .nil, by rwa [List.append_nil], by rwa [List.append_nil]⟩
  | cons line rest ih =>
    rw [readLines] at hread
    cases hwords : d.readWords registers (done.length + 1) (lineWords line) with
    | error flaw =>
      rw [hwords] at hread
      cases hread
    | ok e =>
      rw [hwords] at hread
      obtain ⟨s, hwrites, hfits, rfl⟩ := (readWords_eq_ok_iff h).mp hwords
      obtain ⟨more, hmore, hchecked, hholds⟩ := ih (h.after s) (checked_concat.mpr ⟨hc, hfits⟩)
        (by rwa [List.length_append])
      rw [List.append_assoc] at hchecked hholds
      exact ⟨s :: more, .cons hwrites hmore, hchecked, hholds⟩

theorem readLines_complete {rest : List (List Char)} {done more : List Statement} (h : d.Holds done)
    (hmore : List.Forall₂ Statement.Writes more (rest.map lineWords)) (hc : Checked registers (done ++ more)) :
    ∃ d', d.readLines registers (done.length + 1) rest = .ok d' ∧ d'.Holds (done ++ more) := by
  induction rest generalizing d done more with
  | nil =>
    cases hmore
    exact ⟨d, rfl, by rwa [List.append_nil]⟩
  | cons line rest ih =>
    cases hmore with
    | @cons s _ more _ hwrites hmore =>
    have hassoc : done ++ s :: more = done ++ [s] ++ more := by simp
    rw [hassoc] at hc ⊢
    obtain ⟨d', hread, hholds⟩ := ih (h.after s) hmore hc
    refine ⟨d', ?_, hholds⟩
    rw [readLines, (readWords_eq_ok_iff h).mpr ⟨s, hwrites, (checked_concat.mp hc.of_append).2, rfl⟩]
    rwa [List.length_append] at hread

/-- A text that was read to its end is a program if its lines are those of one. -/
theorem finish_eq_ok_iff (h : d.Holds lines) (hc : Checked registers lines) {count : Nat} {p : Program} :
    d.finish count = .ok p ↔ WellFormed registers lines ∧ p = described lines := by
  unfold finish
  cases hpending : d.pending with
  | cons l rest =>
    refine iff_of_false (fun h => by cases h) fun ⟨hwell, _⟩ => ?_
    have hmem : l.1 ∈ labelsOf (tailOf lines) := by
      rw [← h.pending, hpending]
      exact List.mem_cons_self
    obtain ⟨s, hs, hlabel⟩ := List.mem_filterMap.mp hmem
    rw [hwell.closed s hs] at hlabel
    cases hlabel
  | nil =>
  have hlabels : d.labels = positionsOf lines := by
    rw [← h.labels, hpending, List.map_nil, List.append_nil]
  have hclosed : ∀ s ∈ tailOf lines, s.label = none := by
    have hnone : labelsOf (tailOf lines) = [] := by rw [← h.pending, hpending, List.map_nil]
    exact List.filterMap_eq_nil_iff.mp hnone
  cases hinstructions : d.instructions with
  | nil =>
    refine iff_of_false (fun h => by cases h) fun ⟨hwell, _⟩ => ?_
    rw [h.instructions, instructionsOf_eq_nil_iff] at hinstructions
    obtain ⟨s, hs, hsome⟩ := hwell.inhabited
    exact hsome (hinstructions s hs)
  | cons i rest =>
  have hinhabited : ∃ s ∈ lines, s.instruction ≠ none := by
    by_contra hnone
    push Not at hnone
    rw [h.instructions, (instructionsOf_eq_nil_iff lines).mpr hnone] at hinstructions
    cases hinstructions
  have hknown : ∀ token, d.labels.any (·.1 == token) = true ↔ token ∈ labelsOf lines := fun token => by
    rw [List.any_eq_true, ← map_fst_positionsOf, List.mem_map, hlabels]
    exact exists_congr fun l => and_congr_right fun _ => beq_iff_eq
  have hdefined : (∀ r ∈ d.references, r.1 ∈ labelsOf lines) ↔
      ∀ s ∈ lines, ∀ token ∈ s.labelOperands, token ∈ labelsOf lines := by
    rw [← List.forall_mem_flatMap, ← h.references, List.forall_mem_map]
  dsimp only
  cases hfind : d.references.find? fun r => !d.labels.any (·.1 == r.1) with
  | some r =>
    refine iff_of_false (fun h => by cases h) fun ⟨hwell, _⟩ => ?_
    have hunknown := List.find?_some hfind
    rw [(hknown r.1).mpr (hdefined.mpr hwell.defined r (List.mem_of_find?_eq_some hfind))] at hunknown
    cases hunknown
  | none =>
    have hreferences : ∀ r ∈ d.references, r.1 ∈ labelsOf lines := fun r hr => by
      have := List.find?_eq_none.mp hfind r hr
      rwa [Bool.not_eq_true, Bool.not_eq_false', hknown] at this
    rw [← hinstructions, h.instructions, hlabels]
    exact ⟨fun hp => ⟨⟨hc, hinhabited, hclosed, hdefined.mp hreferences⟩, (Except.ok.inj hp).symm⟩,
      fun ⟨_, hp⟩ => by rw [hp]; rfl⟩

end Draft

/-! ## Whole texts -/

section

variable {registers : List String} {lines : List Statement}

theorem labelsOf_concat_nothing : labelsOf (lines ++ [⟨none, none⟩]) = labelsOf lines := by
  rw [labelsOf_concat, Option.toList_none, List.append_nil]

/-- A line that says nothing changes no program. -/
theorem wellFormed_concat_nothing : WellFormed registers (lines ++ [⟨none, none⟩]) ↔ WellFormed registers lines := by
  constructor
  · intro h
    refine ⟨h.toChecked.of_append, ?_, fun s hs => h.closed s ?_, fun s hs token ht => ?_⟩
    · obtain ⟨s, hs, hsome⟩ := h.inhabited
      rcases List.mem_append.mp hs with hs | hs
      · exact ⟨s, hs, hsome⟩
      · cases List.mem_singleton.mp hs
        exact absurd rfl hsome
    · rw [tailOf_concat]
      exact List.mem_append_left _ hs
    · have := h.defined s (List.mem_append_left _ hs) token ht
      rwa [labelsOf_concat_nothing] at this
  · intro h
    refine ⟨checked_concat.mpr ⟨h.toChecked, fits_nothing registers lines⟩, ?_, fun s hs => ?_,
      fun s hs token ht => ?_⟩
    · obtain ⟨s, hs, hsome⟩ := h.inhabited
      exact ⟨s, List.mem_append_left _ hs, hsome⟩
    · rw [tailOf_concat] at hs
      rcases List.mem_append.mp hs with hs | hs
      · exact h.closed s hs
      · cases List.mem_singleton.mp hs
        rfl
    · rw [labelsOf_concat_nothing]
      rcases List.mem_append.mp hs with hs | hs
      · exact h.defined s hs token ht
      · cases List.mem_singleton.mp hs
        exact (List.not_mem_nil ht).elim

theorem described_concat_nothing : described (lines ++ [⟨none, none⟩]) = described lines := by
  unfold described
  rw [instructionsOf_concat, positionsOf_concat]
  simp [Statement.instructionAt]

/-- Reading a text to its end gives the program of its lines. -/
theorem parse_eq_ok_iff_lines {source : String} {p : Program} : parse registers source = .ok p ↔
    ∃ lines, List.Forall₂ Statement.Writes lines ((Text.lines source.toList).map Draft.lineWords) ∧
      WellFormed registers lines ∧ p = described lines := by
  constructor
  · intro h
    unfold parse at h
    dsimp only at h
    cases hread : Draft.empty.readLines registers 1 (Text.lines source.toList) with
    | error e =>
      rw [hread] at h
      cases h
    | ok d =>
      rw [hread] at h
      obtain ⟨lines, hwrites, hchecked, hholds⟩ := Draft.readLines_sound Draft.holds_empty (checked_nil registers) hread
      exact ⟨lines, hwrites, (Draft.finish_eq_ok_iff hholds hchecked).mp h⟩
  · rintro ⟨lines, hwrites, hwell, hp⟩
    obtain ⟨d, hread, hholds⟩ := Draft.readLines_complete Draft.holds_empty hwrites hwell.toChecked
    unfold parse
    dsimp only
    rw [show Draft.empty.readLines registers 1 (Text.lines source.toList) = .ok d from hread]
    exact (Draft.finish_eq_ok_iff hholds hwell.toChecked).mpr ⟨hwell, hp⟩

theorem sourceWords_eq (source : String) :
    sourceWords source = (source.toList.splitOn '\n').map Draft.lineWords :=
  List.map_congr_left fun _ _ => (Text.words_eq _).symm

/-- The texts that are read are those of the grammar, and the program that is read is the one that
their lines describe. -/
theorem parse_eq_ok_iff (registers : List String) (source : String) (p : Program) :
    parse registers source = .ok p ↔ ∃ lines, List.Forall₂ Statement.Writes lines (sourceWords source) ∧
      WellFormed registers lines ∧ p = described lines := by
  rw [parse_eq_ok_iff_lines, sourceWords_eq]
  rcases Text.splitOn_eq_lines source.toList with h | h
  · rw [h]
  -- after a final line feed there is a line more, without words
  · rw [h, List.map_append]
    constructor
    · rintro ⟨lines, hwrites, hwell, hp⟩
      refine ⟨lines ++ [⟨none, none⟩], ?_, wellFormed_concat_nothing.mpr hwell, ?_⟩
      · exact List.rel_append hwrites (.cons (Statement.writes_nil_iff.mpr rfl) .nil)
      · rw [described_concat_nothing, hp]
    · rintro ⟨lines, hwrites, hwell, hp⟩
      have hinit := List.forall₂_take_append _ _ _ hwrites
      have hlast := List.forall₂_drop_append _ _ _ hwrites
      rw [← List.take_append_drop ((Text.lines source.toList).map Draft.lineWords).length lines] at hwell hp
      generalize List.take _ lines = init at hinit hwell hp
      generalize List.drop _ lines = last at hlast hwell hp
      cases hlast with
      | @cons s _ _ _ hs hnil =>
      cases hnil
      cases Statement.writes_nil_iff.mp hs
      rw [described_concat_nothing] at hp
      exact ⟨init, hinit, wellFormed_concat_nothing.mp hwell, hp⟩

end

/-- A program that was read has instructions. -/
theorem isEmpty_of_parse {registers : List String} {source : String} {p : Program}
    (h : parse registers source = .ok p) : p.isEmpty = false := by
  obtain ⟨lines, -, hformed, rfl⟩ := (parse_eq_ok_iff _ _ _).mp h
  obtain ⟨s, hs, hinstruction⟩ := hformed.inhabited
  refine List.isEmpty_eq_false_iff.mpr fun hnil => hinstruction ?_
  exact (instructionsOf_eq_nil_iff lines).mp hnil s hs

end Program

end Engram
