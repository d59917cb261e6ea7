/-
  Engram.Proofs.Program.Errors — which line an error is reported for.

  The number of an error is kept at different moments: it is that of the line being read, or it stands
  with a label that waits for its instruction or with an operand that has to be a label, or the text
  has ended and it is that of the last line. So a draft keeps only numbers of lines that were read
  (`Draft.Numbered`), and every error is reported for a line of the text. An empty text has no line,
  and its error is reported for line 0 (`empty_text_line`).

  What is found in a line depends on nothing after it: all texts that begin with the same lines have
  the same error.
-/

import Engram.Proofs.Program.Grammar

namespace Engram

namespace Text

theorem lines_eq_nil_iff {cs : List Char} : lines cs = [] ↔ cs = [] := by
  cases cs with
  | nil => simp [lines]
  | cons c rest =>
    simp only [lines]
    split
    · simp
    · split <;> simp

end Text

namespace Program

namespace Draft

variable {registers : List String} {number count : Nat} {d d' : Draft} {e : Error}

/-! ## The line numbers that a draft keeps -/

/-- Labels that wait and label references stand on the first lines, as many as given. -/
def Numbered (d : Draft) (count : Nat) : Prop := ∀ l ∈ d.pending ++ d.references, 1 ≤ l.2 ∧ l.2 ≤ count

theorem numbered_empty : Draft.empty.Numbered 0 := by simp [Numbered, empty]

/-- A line more adds its own number alone. -/
theorem Numbered.after (h : d.Numbered count) (s : Statement) : (d.after (count + 1) s).Numbered (count + 1) := by
  have hback (l : String × Nat) (hl : l ∈ (d.after (count + 1) s).pending ++ (d.after (count + 1) s).references) :
      l ∈ d.pending ++ d.references ∨ l.2 = count + 1 := by
    obtain ⟨label, instruction⟩ := s
    cases instruction with
    | none =>
      simp only [Draft.after, instructed, List.mem_append, List.mem_map] at hl ⊢
      obtain (hl | ⟨_, _, rfl⟩) | hl := hl
      · exact .inl (.inl hl)
      · exact .inr rfl
      · exact .inl (.inr hl)
    | some i =>
      simp only [Draft.after, instructed, List.nil_append, List.mem_append, List.mem_map] at hl ⊢
      obtain hl | ⟨_, _, rfl⟩ := hl
      · exact .inl (.inr hl)
      · exact .inr rfl
  intro l hl
  obtain hl | hl := hback l hl
  · have := h l hl
    omega
  · omega

theorem Numbered.readLines {rest : List (List Char)} {done : List Statement} (h : d.Numbered done.length)
    (hholds : d.Holds done) (hread : d.readLines registers (done.length + 1) rest = .ok d') :
    d'.Numbered (done.length + rest.length) := by
  induction rest generalizing d done with
  | nil =>
    cases hread
    exact h
  | cons line rest ih =>
    simp only [Draft.readLines] at hread
    split at hread
    · next _ hwords =>
      obtain ⟨s, -, -, rfl⟩ := (readWords_eq_ok_iff hholds).mp hwords
      have hlength : (done ++ [s]).length = done.length + 1 := by simp
      have hdone : (d.after (done.length + 1) s).Numbered (done ++ [s]).length := by
        rw [hlength]
        exact h.after s
      have hlast := ih hdone (hholds.after s) (by rw [hlength]; exact hread)
      rw [hlength] at hlast
      rwa [List.length_cons, Nat.add_comm rest.length, ← Nat.add_assoc]
    · cases hread

/-! ## The line of an error -/

/-- An error that is found in a line is reported for that line. -/
theorem line_of_readLines {lines : List (List Char)} (h : d.readLines registers number lines = .error e) :
    number ≤ e.line ∧ e.line < number + lines.length := by
  induction lines generalizing number d with
  | nil => cases h
  | cons line rest ih =>
    simp only [readLines] at h
    rw [List.length_cons]
    split at h
    · have := ih h
      omega
    · cases h
      dsimp only
      omega

/-- An error that is found at the end is reported for the last line, or for one that the draft kept. -/
theorem line_of_finish (hd : d.Numbered count) (h : d.finish count = .error e) :
    e.line = count ∨ 1 ≤ e.line ∧ e.line ≤ count := by
  unfold finish at h
  split at h
  · next _ _ label line rest hpending =>
    cases h
    exact .inr (hd (label, line) (by simp [hpending]))
  · cases h
    exact .inl rfl
  · split at h
    · next label line hfind =>
      cases h
      exact .inr (hd (label, line) (by simp [List.mem_of_find?_eq_some hfind]))
    · cases h

/-- The lines up to the one of an error decide on it. -/
theorem readLines_of_take_eq {lines others : List (List Char)} (h : d.readLines registers number lines = .error e)
    (hsame : others.take (e.line + 1 - number) = lines.take (e.line + 1 - number)) :
    d.readLines registers number others = .error e := by
  induction lines generalizing number d others with
  | nil => cases h
  | cons line rest ih =>
    have hline := (line_of_readLines h).1
    rw [Nat.succ_sub hline, List.take_succ_cons] at hsame
    cases others with
    | nil => cases hsame
    | cons other more =>
      obtain ⟨rfl, hmore⟩ := List.cons.inj hsame
      simp only [readLines] at h ⊢
      split at h
      · exact ih h (by rwa [Nat.add_sub_add_right])
      · exact h

end Draft

/-! ## Whole texts -/

section

variable {registers : List String} {source : String} {e : Error} {d : Draft}

theorem parse_of_error (h : Draft.empty.readLines registers 1 (Text.lines source.toList) = .error e) :
    parse registers source = .error e := by
  simp only [parse, h]
  rfl

theorem parse_of_ok (h : Draft.empty.readLines registers 1 (Text.lines source.toList) = .ok d) :
    parse registers source = d.finish (Text.lines source.toList).length := by
  simp only [parse, h]
  rfl

/-- The error of a text that has a line is reported for one of its lines. If it was found while the lines
were read, then every text that has the same lines up to that one has the same error. -/
theorem line_of_error (h : parse registers source = .error e) :
    (source ≠ "" → 1 ≤ e.line ∧ e.line ≤ (Text.lines source.toList).length) ∧
    (Draft.empty.readLines registers 1 (Text.lines source.toList) = .error e → ∀ text : String,
      (Text.lines text.toList).take e.line = (Text.lines source.toList).take e.line → parse registers text = .error e) := by
  constructor
  · intro hsource
    have hcount : 1 ≤ (Text.lines source.toList).length := by
      simpa [Nat.one_le_iff_ne_zero, Text.lines_eq_nil_iff] using hsource
    cases hread : Draft.empty.readLines registers 1 (Text.lines source.toList) with
    | error early =>
      rw [parse_of_error hread] at h
      obtain rfl := Except.error.inj h
      have := Draft.line_of_readLines hread
      omega
    | ok d =>
      rw [parse_of_ok hread] at h
      have hempty : Draft.empty.Numbered ([] : List Statement).length := Draft.numbered_empty
      have hd := hempty.readLines Draft.holds_empty hread
      rw [List.length_nil, Nat.zero_add] at hd
      have := Draft.line_of_finish hd h
      omega
  · intro hread text hsame
    exact parse_of_error (Draft.readLines_of_take_eq hread hsame)

end

/-- The error of the second line, also before other lines. -/
theorem second_line_of_error : parse ["r0"] "nop\nhalt" = .error ⟨2, .unknownOpcode "halt"⟩ ∧
    parse ["r0"] "nop\nhalt\nagain:" = .error ⟨2, .unknownOpcode "halt"⟩ ∧
    1 ≤ (2 : Nat) ∧ 2 ≤ (Text.lines "nop\nhalt".toList).length := by
  have hparse : parse ["r0"] "nop\nhalt" = .error ⟨2, .unknownOpcode "halt"⟩ := by decide +kernel
  obtain ⟨hline, hothers⟩ := line_of_error hparse
  exact ⟨hparse, hothers (by rfl) _ (by decide +kernel), hline (by decide)⟩

/-- A text without lines has its error on a line that is not there. -/
theorem empty_text_line : parse ["r0"] "" = .error ⟨0, .noInstructions⟩ ∧ Text.lines "".toList = [] := by
  decide +kernel

end Program

end Engram
