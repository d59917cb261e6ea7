/-
  Engram.Proofs.Text.Pieces — lines and words as pieces between separators.

  The lines of a text are the pieces between its line feeds, where an empty last piece is no line
  (`splitOn_eq_lines`), and its words are the pieces between its blanks that are not empty
  (`words_eq`).
-/

import Engram.Text.Blank
import Mathlib.Data.List.Basic

namespace Engram.Text

/-- The pieces between line feeds are the lines, and an empty piece after a final line feed. -/
theorem splitOn_eq_lines (cs : List Char) :
    cs.splitOn '\n' = lines cs ∨ cs.splitOn '\n' = lines cs ++ [[]] := by
  induction cs with
  | nil => exact .inr rfl
  | cons c rest ih =>
    rw [List.splitOn_cons_eq_if_modifyHead, lines]
    by_cases hc : c = '\n'
    · rw [if_pos hc, if_pos (by simpa using hc)]
      exact ih.imp (congrArg _) (congrArg _)
    · rw [if_neg hc, if_neg (by simpa using hc)]
      cases hrest : lines rest with
      | nil =>
        rw [hrest] at ih
        rcases ih with ih | ih
        · exact absurd ih (List.splitOn_ne_nil _ _)
        · rw [ih]
          exact .inl rfl
      | cons line more =>
        rw [hrest] at ih
        rcases ih with ih | ih
        · rw [ih]
          exact .inl rfl
        · rw [ih]
          exact .inr rfl

/-- The words of a text are its pieces between blanks that are not empty. -/
theorem words_eq (cs : List Char) : words cs = (cs.splitOnP isBlank).filter (· ≠ []) := by
  have hsplit : ∃ more, cs.splitOnP isBlank = (splitWord cs).1 :: more ∧ (splitWord cs).2 = more.filter (· ≠ []) := by
    induction cs with
    | nil => exact ⟨[], rfl, rfl⟩
    | cons c rest ih =>
      obtain ⟨more, hpieces, hwords⟩ := ih
      rw [List.splitOnP_cons_eq_if_modifyHead, hpieces]
      cases hc : isBlank c with
      | true =>
        refine ⟨(splitWord rest).1 :: more, by simp [splitWord, hc], ?_⟩
        rw [List.filter_cons, ← hwords]
        cases hw : (splitWord rest).1 <;> simp [splitWord, hc, hw, consWord]
      | false => exact ⟨more, by simp [splitWord, hc], by simpa [splitWord, hc] using hwords⟩
  obtain ⟨more, hpieces, hwords⟩ := hsplit
  rw [words, hpieces, hwords, List.filter_cons]
  cases (splitWord cs).1 <;> simp [consWord]

end Engram.Text
