/-
  Engram.Proofs.Layer.Exhausting — what a code book knows when its orthogonal patterns run out.

  A layer has as many orthogonal patterns as units, and some of them are left (`left`) as long as
  drawing one succeeds (`drawOrthogonal_cases`). Several tokens get their patterns one after the
  other. That fails only for want of an orthogonal pattern, and then the tokens before the first
  one that got none are known (`exhausts_of_encodeAll`): nothing takes their patterns back. As many
  tokens as there are patterns left get theirs (`exists_encodeAll`).
-/

import Engram.Proofs.Layer.Bindings

namespace Engram.CodeBook

variable {α : Type}

/-- How many orthogonal patterns have not been used. -/
def left (b : CodeBook α) : Nat :=
  match b.family with
  | some f => f.order.length - f.used
  | none => b.size

theorem left_eq {b : CodeBook α} {f : OrthogonalFamily} {s : Random.Stream}
    (h : b.withFamily = { b with stream := s, family := some f }) : b.left = f.order.length - f.used := by
  unfold withFamily at h
  unfold left
  cases hfamily : b.family with
  | some g =>
    rw [hfamily] at h
    obtain rfl : g = f := Option.some.inj (hfamily.symm.trans (congrArg CodeBook.family h))
    rfl
  | none =>
    rw [hfamily] at h
    obtain rfl : (drawFamily b.size b.stream).1 = f := Option.some.inj (congrArg CodeBook.family h)
    have horder := (isFamily_drawFamily b.size b.stream).order.length_eq
    rw [List.length_range] at horder
    rw [horder, used_drawFamily, Nat.sub_zero]

variable [Scalar α]

/-- An orthogonal pattern is drawn if one is left. -/
theorem drawOrthogonal_cases {b : CodeBook α} (h : b.Sound) (hsize : Sylvester.isPowerOfTwo b.size = true)
    (layer : String) :
    (b.left = 0 ∧ ∃ needed, (b.drawOrthogonal layer).1 = .error (.exhausted layer needed b.size)) ∨
      (0 < b.left ∧ ∃ p, (b.drawOrthogonal layer).1 = .ok p) := by
  obtain ⟨f, s, -, hb⟩ := exists_family_withFamily h
  rw [drawOrthogonal_eq layer hsize hb, left_eq hb]
  by_cases hused : f.used < f.order.length
  · rw [List.getElem?_eq_getElem hused]
    exact .inr ⟨by omega, _, rfl⟩
  · rw [List.getElem?_eq_none (Nat.not_lt.mp hused)]
    exact .inl ⟨by omega, _, rfl⟩

/-- A token is encoded unless it is new, needs an orthogonal pattern, and none is left. Then the
code book knows what it knew. -/
theorem encodeFrom_cases {b : CodeBook α} (h : b.Sound) {orthogonal : Bool}
    (hsize : orthogonal = true → Sylvester.isPowerOfTwo b.size = true) (layer token : String) :
    (∃ p later, b.encodeFrom orthogonal layer token = (.ok p, later) ∧
      (orthogonal = true → b.left = 0 → later = b)) ∨
    (orthogonal = true ∧ b.left = 0 ∧ b.pattern? token = none ∧ ∃ needed later,
      b.encodeFrom orthogonal layer token = (.error (.exhausted layer needed b.size), later) ∧
        ∀ t, later.pattern? t = b.pattern? t) := by
  cases hp : b.pattern? token with
  | some p => exact .inl ⟨p, b, encodeFrom_of_known hp _ _, fun _ _ => rfl⟩
  | none =>
    rw [encodeFrom_of_new hp]
    have hdraws := (draw_spec h orthogonal layer).1
    cases orthogonal with
    | false => exact .inl ⟨_, _, rfl, fun h => by cases h⟩
    | true =>
      have hdraw : b.draw true layer = b.drawOrthogonal layer := if_pos rfl
      rw [hdraw] at hdraws ⊢
      rcases hrun : b.drawOrthogonal layer with ⟨r, later⟩
      rw [hrun] at hdraws
      rcases drawOrthogonal_cases h (hsize rfl) layer with ⟨hleft, needed, hfails⟩ | ⟨hleft, p, hdrawn⟩
      · obtain rfl : r = _ := (congrArg Prod.fst hrun).symm.trans hfails
        exact .inr ⟨rfl, hleft, rfl, needed, later, rfl, hdraws.pattern?⟩
      · obtain rfl : r = _ := (congrArg Prod.fst hrun).symm.trans hdrawn
        exact .inl ⟨p, _, rfl, fun _ hnone => by omega⟩

/-- The tokens could not all be encoded: the first one without a pattern, and those before it that
have theirs. -/
structure Exhausts (b : CodeBook α) (tokens : List String) (later : CodeBook α) : Prop where
  knows : ∃ before token after, tokens = before ++ token :: after ∧ ¬ later.knows token = true ∧
    ∀ t, later.knows t = true ↔ b.knows t = true ∨ t ∈ before
  /-- With no pattern left nothing new is known. -/
  spent : b.left = 0 → ∀ t, later.knows t = true → b.knows t = true
  /-- With one left the first token is known. -/
  first : 0 < b.left → ∀ t ∈ tokens.head?, later.knows t = true

/-- Encoding several tokens fails only for want of an orthogonal pattern. -/
theorem exhausts_of_encodeAll {orthogonal : Bool} {layer : String} {tokens : List String} {b : CodeBook α} (h : b.Sound)
    (hsize : orthogonal = true → Sylvester.isPowerOfTwo b.size = true) {e : Fault α} {later : CodeBook α}
    (hfails : b.encodeAll orthogonal layer tokens = (.error e, later)) :
    orthogonal = true ∧ (∃ needed, e = .exhausted layer needed b.size) ∧ b.Exhausts tokens later := by
  induction tokens generalizing b with
  | nil => cases hfails
  | cons token rest ih =>
    obtain ⟨hsound, hextends, hknown⟩ := encodeFrom_spec h orthogonal layer token
    rcases encodeFrom_cases h hsize layer token with
      ⟨p, b₁, hfrom, hsame⟩ | ⟨horthogonal, hleft, hnew, needed, b₁, hfrom, hsame⟩
    · -- this token is known from here on, and the rest could not all be encoded
      rw [hfrom] at hsound hextends hknown
      obtain ⟨hp, hknows⟩ := hknown p rfl
      have hcolumn : column b₁.size p = .ok p := column_of_size (hsound.sized _ _ hp)
      rcases hall : b₁.encodeAll orthogonal layer rest with ⟨e' | ps, b₂⟩
      · simp only [encodeAll, hfrom, hcolumn, hall] at hfails
        cases hfails
        obtain ⟨horthogonal, hfault, hrest⟩ := ih hsound (fun ho => by rw [hextends.size]; exact hsize ho) hall
        obtain ⟨before, token', after, rfl, hnot, hlater⟩ := hrest.knows
        refine ⟨horthogonal, by rw [← hextends.size]; exact hfault, ⟨token :: before, token', after, rfl, hnot, fun t => ?_⟩,
          fun hleft => ?_, fun _ t ht => ?_⟩
        · rw [hlater, hknows, List.mem_cons]
          tauto
        · obtain rfl := hsame horthogonal hleft
          exact hrest.spent hleft
        · rw [List.head?_cons, Option.mem_some_iff] at ht
          rw [← ht, hlater, hknows]
          exact .inl (.inr rfl)
      · simp only [encodeAll, hfrom, hcolumn, hall] at hfails
        cases hfails
    · simp only [encodeAll, hfrom] at hfails
      cases hfails
      have hknows : ∀ t, later.knows t = true ↔ b.knows t = true := fun t => by
        rw [CodeBook.knows, hsame]
        exact Iff.rfl
      refine ⟨horthogonal, ⟨needed, rfl⟩, ⟨[], token, rest, rfl, ?_, fun t => ?_⟩, fun _ t => (hknows t).mp, fun hpos => by omega⟩
      · rw [hknows, CodeBook.knows, hnew]
        exact Bool.false_ne_true
      · rw [hknows]
        simp

/-- A token takes up one pattern at most. -/
theorem left_encodeFrom {b : CodeBook α} (h : b.Sound) (hsize : Sylvester.isPowerOfTwo b.size = true)
    (layer token : String) : b.left ≤ (b.encodeFrom true layer token).2.left + 1 := by
  cases hp : b.pattern? token with
  | some p =>
    rw [encodeFrom_of_known hp]
    exact Nat.le_succ _
  | none =>
    obtain ⟨f, s, -, hb⟩ := exists_family_withFamily h
    have hdraw : b.draw true layer = b.drawOrthogonal layer := if_pos rfl
    rw [encodeFrom_of_new hp, hdraw, drawOrthogonal_eq layer hsize hb, left_eq hb]
    have hfamily : b.withFamily.left = f.order.length - f.used := by
      rw [hb]
      rfl
    cases f.order[f.used]? with
    | none => exact hfamily ▸ Nat.le_succ _
    | some column =>
      show f.order.length - f.used ≤ f.order.length - (f.used + 1) + 1
      omega

/-- As many tokens get orthogonal patterns as there are left. -/
theorem exists_encodeAll {tokens : List String} {b : CodeBook α} (h : b.Sound)
    (hsize : Sylvester.isPowerOfTwo b.size = true) (hleft : tokens.length ≤ b.left) (layer : String) :
    ∃ ps later, b.encodeAll true layer tokens = (.ok ps, later) := by
  induction tokens generalizing b with
  | nil => exact ⟨[], b, rfl⟩
  | cons token rest ih =>
    rw [List.length_cons] at hleft
    obtain ⟨hsound, hextends, hknown⟩ := encodeFrom_spec h true layer token
    have hstep := left_encodeFrom h hsize layer token
    rcases encodeFrom_cases h (fun _ => hsize) layer token with ⟨p, b₁, hfrom, -⟩ | ⟨-, hnone, -⟩
    · rw [hfrom] at hsound hextends hknown hstep
      have hcolumn : column b₁.size p = .ok p := column_of_size (hsound.sized _ _ (hknown p rfl).1)
      have hleft₁ : rest.length ≤ b₁.left := by
        have : b.left ≤ b₁.left + 1 := hstep
        omega
      obtain ⟨ps, later, hall⟩ := ih hsound (by rw [hextends.size]; exact hsize) hleft₁
      exact ⟨p :: ps, later, by simp only [encodeAll, hfrom, hcolumn, hall]⟩
    · omega

end Engram.CodeBook
