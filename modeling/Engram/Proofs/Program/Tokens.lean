/-
  Engram.Proofs.Program.Tokens — the instruction pointer tokens of programs do not meet.

  A program has the name as its entry, and for each line the name, a point and the number of the
  line; its labels are the name, a colon and what the program calls them. Neither character is in
  a valid name, so a token tells its program, and whether it is a label. Among the tokens of one
  program the numbers tell the lines apart, zeros in front or not.
-/

import Engram.Data.Session
import Mathlib.Data.List.Nodup
import Mathlib.Data.Nat.Log

namespace Engram.Session

theorem padded_injective {width width' m n : Nat} (h : padded width m = padded width' n) : m = n := by
  have hvalue : ∀ w k, Nat.ofDigitChars 10 (padded w k).toList 0 = k := by
    intro w k
    have hdigits : (toString k).toList = Nat.toDigits 10 k := Nat.toList_repr
    simp only [padded, hdigits, String.toList_ofList]
    rw [Nat.ofDigitChars_append, Nat.ofDigitChars_replicate_zero, Nat.mul_zero, Nat.ofDigitChars_ten_toDigits]
  rw [← hvalue width m, h, hvalue]

theorem isDigit_of_mem_padded {width n : Nat} {c : Char} (h : c ∈ (padded width n).toList) : c.isDigit = true := by
  have hdigits : (toString n).toList = Nat.toDigits 10 n := Nat.toList_repr
  simp only [padded, hdigits, String.toList_ofList, List.mem_append] at h
  rcases h with h | h
  · rw [List.eq_of_mem_replicate h]; rfl
  · exact Nat.isDigit_of_mem_toDigits (by decide) (by decide) h

/-- Line numbers have as many digits as the decimal logarithm of the count of lines has, rounded up,
and one at least. -/
theorem lineDigits_eq_clog (lines : Nat) : lineDigits lines = max 1 (Nat.clog 10 lines) := by
  have hle : ∀ k, 0 < k → (lineDigits lines ≤ k ↔ lines ≤ 10 ^ k) := by
    intro k hk
    have hpow : 0 < 10 ^ k := Nat.pow_pos (by decide)
    exact (Nat.length_repr_le_iff hk).trans (by omega)
  have hpos : 0 < lineDigits lines := Nat.length_repr_pos
  refine Nat.le_antisymm ?_ (Nat.max_le.mpr ⟨hpos, ?_⟩)
  · rw [hle _ (by omega), ← Nat.clog_le_iff_le_pow (by decide)]
    exact Nat.le_max_right _ _
  · rw [Nat.clog_le_iff_le_pow (by decide), ← hle _ hpos]

/-- No character of a valid name is a point or a colon. -/
theorem of_isProgramName {name : String} (h : isProgramName name = true) :
    '.' ∉ name.toList ∧ ':' ∉ name.toList := by
  simp only [isProgramName, Bool.and_eq_true, Bool.not_eq_true', List.any_eq_false, Bool.or_eq_true, beq_iff_eq,
    not_or] at h
  exact ⟨fun hc => (h.2 _ hc).1.1 rfl, fun hc => (h.2 _ hc).1.2 rfl⟩

theorem toList_lineToken (name : String) (width line : Nat) :
    (lineToken name width line).toList = name.toList ++ '.' :: (padded width line).toList := by
  simp [lineToken, String.toList_append]

theorem mem_pointerTokens {name token : String} {lines : Nat} :
    token ∈ pointerTokens name lines ↔ token = name ∨ ∃ l < lines, token = lineToken name (lineDigits lines) l := by
  simp only [pointerTokens, List.mem_cons, List.mem_map, List.mem_range]
  constructor
  · rintro (h | ⟨l, hl, h⟩)
    · exact .inl h
    · exact .inr ⟨l, hl, h.symm⟩
  · rintro (h | ⟨l, hl, h⟩)
    · exact .inl h
    · exact .inr ⟨l, hl, h.symm⟩

@[simp] theorem length_pointerTokens (name : String) (lines : Nat) : (pointerTokens name lines).length = lines + 1 := by
  simp [pointerTokens]

/-- A token up to its first point is the name of its program. -/
theorem takeWhile_pointerToken {name token : String} {lines : Nat} (hname : isProgramName name = true)
    (h : token ∈ pointerTokens name lines) : token.toList.takeWhile (· != '.') = name.toList := by
  have hall : ∀ c ∈ name.toList, (c != '.') = true := by
    intro c hc
    rw [bne_iff_ne]
    rintro rfl
    exact (of_isProgramName hname).1 hc
  rcases mem_pointerTokens.mp h with rfl | ⟨l, -, rfl⟩
  · rw [← List.append_nil token.toList, List.takeWhile_append_of_pos hall, List.takeWhile_nil]
  · rw [toList_lineToken, List.takeWhile_append_of_pos hall]
    simp

/-- Programs of different names have no token in common. -/
theorem name_eq_of_pointerToken {name name' token : String} {lines lines' : Nat} (hname : isProgramName name = true)
    (hname' : isProgramName name' = true) (h : token ∈ pointerTokens name lines)
    (h' : token ∈ pointerTokens name' lines') : name = name' :=
  String.toList_inj.mp ((takeWhile_pointerToken hname h).symm.trans (takeWhile_pointerToken hname' h'))

/-- The entry is the only token of a program that can be the name of one. -/
theorem eq_of_isProgramName {name token : String} {lines : Nat} (hname : isProgramName name = true)
    (htoken : isProgramName token = true) (h : token ∈ pointerTokens name lines) : token = name :=
  have hentry : token ∈ pointerTokens token lines := List.mem_cons_self
  name_eq_of_pointerToken htoken hname hentry h

theorem nodup_pointerTokens (name : String) (lines : Nat) : (pointerTokens name lines).Nodup := by
  refine List.nodup_cons.mpr ⟨fun h => ?_, List.nodup_range.map fun a b hab => ?_⟩
  · obtain ⟨l, -, hl⟩ := List.mem_map.mp h
    have hlen := congrArg (fun t => t.toList.length) hl
    simp only [toList_lineToken, List.length_append, List.length_cons] at hlen
    omega
  · have hlist := congrArg String.toList hab
    rw [toList_lineToken, toList_lineToken] at hlist
    have := List.append_cancel_left hlist
    exact padded_injective (String.toList_inj.mp (List.cons.inj this).2)

/-- No token of a program has a colon. -/
theorem colon_not_mem_pointerToken {name token : String} {lines : Nat} (hname : isProgramName name = true)
    (h : token ∈ pointerTokens name lines) : ':' ∉ token.toList := by
  have hcolon := (of_isProgramName hname).2
  rcases mem_pointerTokens.mp h with rfl | ⟨l, -, rfl⟩
  · exact hcolon
  · rw [toList_lineToken, List.mem_append, List.mem_cons, not_or, not_or]
    refine ⟨hcolon, by decide, fun hd => ?_⟩
    have := isDigit_of_mem_padded hd
    exact absurd this (by decide)

/-- A label under a scope. -/
def labelToken (scope label : String) : String := scope ++ ":" ++ label

theorem toList_labelToken (scope label : String) : (labelToken scope label).toList = scope.toList ++ ':' :: label.toList := by
  simp [labelToken, String.toList_append]

theorem labelToken_ne_pointerToken {name token : String} {lines : Nat} (hname : isProgramName name = true)
    (h : token ∈ pointerTokens name lines) (scope label : String) : token ≠ labelToken scope label := by
  rintro rfl
  apply colon_not_mem_pointerToken hname h
  rw [toList_labelToken]
  simp

/-- A label tells its scope. -/
theorem scope_eq_of_labelToken {scope scope' label label' : String} (h : isProgramName scope = true)
    (h' : isProgramName scope' = true) (heq : labelToken scope label = labelToken scope' label') : scope = scope' := by
  have htake : ∀ {s : String}, isProgramName s = true → ∀ l,
      (labelToken s l).toList.takeWhile (· != ':') = s.toList := by
    intro s hs l
    have hall : ∀ c ∈ s.toList, (c != ':') = true := by
      intro c hc
      rw [bne_iff_ne]
      rintro rfl
      exact (of_isProgramName hs).2 hc
    rw [toList_labelToken, List.takeWhile_append_of_pos hall]
    simp
  exact String.toList_inj.mp (by rw [← htake h label, heq, htake h'])

end Engram.Session
