/-
  Engram.Text.Blank — blank characters, and lines and words of a text.

  Blank is the White_Space property of the character standard. A text is cut into lines after
  each line feed, so that a final line feed opens no further line, and a line into the maximal
  runs of characters that are not blank.
-/

namespace Engram.Text

/-- The characters of the White_Space property. -/
def isBlank (c : Char) : Bool :=
  let n := c.toNat
  (9 ≤ n && n ≤ 13) || n == 0x20 || n == 0x85 || n == 0xA0 || n == 0x1680 ||
  (0x2000 ≤ n && n ≤ 0x200A) || n == 0x2028 || n == 0x2029 || n == 0x202F || n == 0x205F || n == 0x3000

theorem isBlank_of_isWhitespace {c : Char} (h : c.isWhitespace) : isBlank c := by
  simp only [Char.isWhitespace, Bool.or_eq_true, decide_eq_true_eq] at h
  rcases h with ((rfl | rfl) | rfl) | rfl <;> rfl

/-- The lines of a text, without their line feeds. -/
def lines : List Char → List (List Char)
  | [] => []
  | c :: rest =>
    if c = '\n' then [] :: lines rest
    else match lines rest with
      | [] => [[c]]
      | line :: more => (c :: line) :: more

/-- A word followed by more words; an empty one is none. -/
def consWord : List Char → List (List Char) → List (List Char)
  | [], ws => ws
  | w, ws => w :: ws

/-- The characters up to the first blank, and the words after them. -/
def splitWord : List Char → List Char × List (List Char)
  | [] => ([], [])
  | c :: rest =>
    let (w, ws) := splitWord rest
    if isBlank c then ([], consWord w ws) else (c :: w, ws)

/-- The words of a text. -/
def words (cs : List Char) : List (List Char) := consWord (splitWord cs).1 (splitWord cs).2

/-- The texts in ascending order, each once. -/
def sortedSet (ts : List String) : List String := (ts.mergeSort (· ≤ ·)).eraseDups

theorem mem_of_mem_consWord {w v : List Char} {ws : List (List Char)} (h : v ∈ consWord w ws) :
    (v = w ∧ w ≠ []) ∨ v ∈ ws := by
  cases w with
  | nil => exact .inr h
  | cons c w => simpa [consWord] using h

/-- No character of a word is blank. -/
theorem splitWord_not_blank (cs : List Char) :
    (∀ c ∈ (splitWord cs).1, isBlank c = false) ∧
      ∀ w ∈ (splitWord cs).2, w ≠ [] ∧ ∀ c ∈ w, isBlank c = false := by
  induction cs with
  | nil => simp [splitWord]
  | cons c rest ih =>
    obtain ⟨hw, hws⟩ := ih
    cases hc : isBlank c with
    | false => simpa [splitWord, hc] using ⟨hw, hws⟩
    | true =>
      refine ⟨by simp [splitWord, hc], fun w h => ?_⟩
      simp only [splitWord, hc] at h
      rcases mem_of_mem_consWord h with ⟨rfl, hne⟩ | h
      · exact ⟨hne, hw⟩
      · exact hws w h

/-- A word is not empty, and none of its characters is blank. -/
theorem of_mem_words {cs w : List Char} (h : w ∈ words cs) :
    w ≠ [] ∧ ∀ c ∈ w, isBlank c = false := by
  rcases mem_of_mem_consWord h with ⟨rfl, hne⟩ | h
  · exact ⟨hne, (splitWord_not_blank cs).1⟩
  · exact (splitWord_not_blank cs).2 w h

end Engram.Text
