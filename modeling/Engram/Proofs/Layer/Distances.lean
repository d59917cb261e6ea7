/-
  Engram.Proofs.Layer.Distances — how far apart the orthogonal patterns of a layer are.

  Whatever tokens are encoded on a new code book, at random or from the orthogonal family, in
  calls that fail as well, the patterns that it takes from the family are different columns. Two of
  them differ in half of the units, so around the midpoint they are orthogonal
  (`orthogonal_familyBits`). As many columns as were drawn are missing from those that are left
  (`Tallied.length_add_left`). So there are never more than units, and once all are drawn, the next
  new token is refused, with the code book as it was (`Tallied.encodeFrom_full`). A call that is
  refused stops at such a token, and has encoded the ones before it (`Tallied.split_of_refused`).
-/

import Engram.Proofs.Data.Comparison
import Engram.Proofs.Layer.Decoding
import Engram.Proofs.Layer.Exhausting
import Engram.Proofs.Layer.Registrations

namespace Engram

open Finset

/-- Two patterns of a layer that differ in half of its units. At the levels of any activator they are orthogonal
around the midpoint. -/
structure Bits.Orthogonal (size : Nat) (x y : Bits) : Prop where
  distance : Bits.distance x y = size / 2
  ne : x ≠ y
  product : ∀ a : Activator ℝ, ∑ j ∈ range size,
    ((a.pattern x).entry j - a.midpoint) * ((a.pattern y).entry j - a.midpoint) = 0

namespace CodeBook

/-- Two columns of a family. -/
theorem orthogonal_familyBits {f : OrthogonalFamily} {size c d : Nat} (hf : IsFamily f size)
    (hsize : Sylvester.isPowerOfTwo size = true) (hc : c < size) (hd : d < size) (hne : c ≠ d) :
    Bits.Orthogonal size (OrthogonalFamily.bits f c) (OrthogonalFamily.bits f d) := by
  refine ⟨?_, fun heq => hne (column_eq_of_familyBits hf hsize hc hd heq), fun a => ?_⟩
  · obtain ⟨k, rfl⟩ := Sylvester.exists_pow_of_isPowerOfTwo hsize
    have hlength : ∀ c, (OrthogonalFamily.bits f c).length = 2 ^ k := fun c => (length_familyBits f c).trans hf.signs
    have hsum := Bits.sum_sign ((hlength c).trans (hlength d).symm)
    have hterm : ∀ j ∈ range (2 ^ k), Activator.sign ((OrthogonalFamily.bits f c).getD j false) *
        Activator.sign ((OrthogonalFamily.bits f d).getD j false) = Sylvester.signAt j c * Sylvester.signAt j d := by
      intro j hj
      have hj : j < f.signs.length := hf.signs ▸ mem_range.mp hj
      have hbit : ∀ c, j < (OrthogonalFamily.bits f c).length := fun c => (length_familyBits f c).symm ▸ hj
      rw [List.getD_eq_getElem _ _ (hbit c), List.getD_eq_getElem _ _ (hbit d), sign_familyBits f c hj, sign_familyBits f d hj]
      have hone := Activator.sign_mul_self f.signs[j]
      linear_combination (Sylvester.signAt j c * Sylvester.signAt j d) * hone
    rw [hlength, sum_congr rfl hterm, Sylvester.sum_rows_mul k hc hd hne] at hsum
    -- as many units agree as differ
    have hhalf : 2 * (Bits.distance (OrthogonalFamily.bits f c) (OrthogonalFamily.bits f d) : ℝ) = (2 ^ k : Nat) := by
      linarith
    have : 2 * Bits.distance (OrthogonalFamily.bits f c) (OrthogonalFamily.bits f d) = 2 ^ k := by exact_mod_cast hhalf
    omega
  · rw [sum_centred f a hf.signs hsize hc hd, if_neg hne]

variable {α : Type} [Scalar α]

/-! ## Calls and their draws -/

/-- What a call draws. -/
def drawnBy (b : CodeBook α) : Call α → List Draw
  | .encode token => b.drawn false "" token
  | .encodeAll orthogonal layer tokens => b.drawnAll orthogonal layer tokens
  | .bind _ _ => []

/-- What a sequence of calls draws, in order. -/
def draws (b : CodeBook α) : List (Call α) → List Draw
  | [] => []
  | c :: cs => b.drawnBy c ++ (b.call c).draws cs

/-- No call binds a token to a pattern of its own choice. -/
def Encodes (cs : List (Call α)) : Prop := ∀ token p, Call.bind token p ∉ cs

/-- The draws of a sequence that were taken from the family. -/
def columnsDrawn (draws : List Draw) : List Draw := draws.filter (·.orthogonal)

/-- The code book holds what was drawn, each pattern with its token, and counts the columns. -/
structure Tallied (b : CodeBook α) (draws : List Draw) : Prop where
  logged : b.Logged draws
  kept : ∀ d ∈ draws, b.pattern? d.token = some (b.activator.pattern d.bits)
  used : ∀ f, b.family = some f → f.used ≤ b.size

theorem tallied_new (size : Nat) (a : Activator α) (seed : UInt64) : (CodeBook.new size a seed).Tallied [] :=
  ⟨logged_new size a seed, fun _ h => absurd h List.not_mem_nil, fun f h => by cases h⟩

/-- What is drawn is at the levels. -/
theorem pattern_bits_of_draw {b : CodeBook α} (h : b.Sound) (hlevels : ∀ bit, b.activator.isOn (b.activator.level bit) = bit)
    {orthogonal : Bool} {layer : String} {p : Pattern α} (hp : (b.draw orthogonal layer).1 = .ok p) :
    b.activator.pattern (b.activator.bits p) = p := by
  have hpattern : ∃ x, p = b.activator.pattern x := by
    cases orthogonal with
    | false =>
      cases hp
      exact ⟨_, rfl⟩
    | true =>
      rw [draw, if_pos rfl] at hp
      by_cases hsize : Sylvester.isPowerOfTwo b.size = true
      · obtain ⟨f, s, -, hb⟩ := exists_family_withFamily h
        rw [drawOrthogonal_eq layer hsize hb] at hp
        cases hc : f.order[f.used]? with
        | none => rw [hc] at hp; cases hp
        | some c => rw [hc] at hp; cases hp; exact ⟨_, rfl⟩
      · simp [drawOrthogonal, hsize] at hp
  obtain ⟨x, rfl⟩ := hpattern
  rw [Activator.bits_pattern_of_isOn_level hlevels]

/-- Drawing a pattern uses one column of the family at most. -/
theorem used_draw {b : CodeBook α} (h : b.Sound) (hused : ∀ f, b.family = some f → f.used ≤ b.size) (orthogonal : Bool)
    (layer : String) : ∀ f, (b.draw orthogonal layer).2.family = some f → f.used ≤ b.size := by
  cases orthogonal with
  | false => exact hused
  | true =>
    rw [draw, if_pos rfl]
    by_cases hsize : Sylvester.isPowerOfTwo b.size = true
    · obtain ⟨f, s, hf, hb⟩ := exists_family_withFamily h
      have hlength : f.order.length = b.size := by simpa using hf.order.length_eq
      have hbefore : f.used ≤ b.size := by
        unfold withFamily at hb
        cases hfamily : b.family with
        | none =>
          rw [hfamily] at hb
          obtain rfl := Option.some.inj (congrArg CodeBook.family hb)
          exact Nat.zero_le _
        | some g =>
          rw [hfamily] at hb
          obtain rfl : g = f := Option.some.inj (hfamily.symm.trans (congrArg CodeBook.family hb))
          exact hused g hfamily
      rw [drawOrthogonal_eq layer hsize hb]
      cases hc : f.order[f.used]? with
      | none =>
        rw [hb]
        intro g hg
        cases hg
        exact hbefore
      | some c =>
        intro g hg
        cases hg
        exact hlength ▸ (List.getElem?_eq_some_iff.mp hc).1
    · simp only [drawOrthogonal, hsize, Bool.not_false, if_true]
      exact hused

namespace Tallied

variable {b : CodeBook α} {draws : List Draw}

/-! ## Runs -/

/-- One token. -/
theorem encodeFrom (h : b.Tallied draws) (hlevels : ∀ bit, b.activator.isOn (b.activator.level bit) = bit)
    (orthogonal : Bool) (layer token : String) :
    (b.encodeFrom orthogonal layer token).2.Tallied (draws ++ b.drawn orthogonal layer token) := by
  have hext := extends_encodeFrom b orthogonal layer token
  refine ⟨h.logged.encodeFrom hlevels orthogonal layer token, fun d hd => ?_, ?_⟩
  · rw [hext.activator]
    rcases List.mem_append.mp hd with hd | hd
    · exact hext.pattern _ _ (h.kept d hd)
    · unfold drawn at hd
      cases hp : b.pattern? token with
      | some p =>
        rw [hp] at hd
        exact absurd hd List.not_mem_nil
      | none =>
        rw [encodeFrom_of_new hp]
        rw [hp] at hd
        rcases hdraw : b.draw orthogonal layer with ⟨e | p, later⟩
        · rw [hdraw] at hd
          exact absurd hd List.not_mem_nil
        · have hpattern := pattern_bits_of_draw h.logged.sound hlevels (congrArg Prod.fst hdraw)
          rw [hdraw] at hd
          obtain rfl := List.mem_singleton.mp hd
          exact (pattern?_bind_self later token p).trans (congrArg some hpattern.symm)
  · rw [hext.size]
    cases hp : b.pattern? token with
    | some p =>
      rw [encodeFrom_of_known hp]
      exact h.used
    | none =>
      have hused := used_draw h.logged.sound h.used orthogonal layer
      rw [encodeFrom_of_new hp]
      rcases hdraw : b.draw orthogonal layer with ⟨e | p, later⟩
      · rw [hdraw] at hused
        exact hused
      · rw [hdraw] at hused
        exact hused

/-- Several tokens. -/
theorem encodeAll (h : b.Tallied draws) (hlevels : ∀ bit, b.activator.isOn (b.activator.level bit) = bit)
    (orthogonal : Bool) (layer : String) (tokens : List String) :
    (b.encodeAll orthogonal layer tokens).2.Tallied (draws ++ b.drawnAll orthogonal layer tokens) := by
  have hkept := encodeAll_keeps (P := fun later draws => later.Tallied draws ∧ later.activator = b.activator)
    (fun h => h.1.logged.sound) (fun token h => ⟨h.1.encodeFrom (h.2 ▸ hlevels) orthogonal layer token,
      (extends_encodeFrom _ orthogonal layer token).activator.trans h.2⟩) tokens ⟨h, rfl⟩
  exact hkept.1

theorem call (h : b.Tallied draws) (hlevels : ∀ bit, b.activator.isOn (b.activator.level bit) = bit) {c : Call α}
    (hc : ∀ token p, c ≠ .bind token p) : (b.call c).Tallied (draws ++ b.drawnBy c) ∧ b.Extends (b.call c) := by
  cases c with
  | encode token =>
    have hfrom := h.encodeFrom hlevels false "" token
    rw [encode_eq_encodeFrom] at hfrom
    exact ⟨hfrom, extends_encode b token⟩
  | encodeAll orthogonal layer tokens =>
    exact ⟨h.encodeAll hlevels orthogonal layer tokens, extends_encodeAll orthogonal layer tokens b⟩
  | bind token p => exact absurd rfl (hc token p)

theorem calls (h : b.Tallied draws) (hlevels : ∀ bit, b.activator.isOn (b.activator.level bit) = bit) {cs : List (Call α)}
    (hcs : Encodes cs) : (b.calls cs).Tallied (draws ++ b.draws cs) ∧ b.Extends (b.calls cs) := by
  induction cs generalizing b draws with
  | nil => exact ⟨by rw [CodeBook.draws, List.append_nil]; exact h, Extends.refl b⟩
  | cons c cs ih =>
    obtain ⟨hcall, hext⟩ := h.call hlevels fun token p heq => hcs token p (heq ▸ List.mem_cons_self)
    obtain ⟨hcalls, hlater⟩ := ih hcall (by rw [hext.activator]; exact hlevels) fun token p hmem =>
      hcs token p (List.mem_cons_of_mem _ hmem)
    exact ⟨by rw [CodeBook.draws, ← List.append_assoc]; exact hcalls, hext.trans hlater⟩

/-! ## The columns that were drawn -/

/-- Any two columns that were drawn are orthogonal. -/
theorem pairwise_orthogonal (h : b.Tallied draws) (hsize : Sylvester.isPowerOfTwo b.size = true) :
    (columnsDrawn draws).Pairwise fun d e => Bits.Orthogonal b.size d.bits e.bits := by
  have hcolumns : b.usedColumns.Pairwise (Bits.Orthogonal b.size) := by
    unfold usedColumns
    cases hfamily : b.family with
    | none => exact List.Pairwise.nil
    | some f =>
      have hf := h.logged.sound.family f hfamily
      have hnodup := (hf.order.nodup_iff.mpr List.nodup_range).sublist (List.take_sublist f.used f.order)
      have hlt : ∀ c ∈ f.order.take f.used, c < b.size := fun c hc =>
        List.mem_range.mp (hf.order.mem_iff.mp (List.mem_of_mem_take hc))
      exact List.pairwise_map.mpr (hnodup.imp_of_mem fun hc hd hne => orthogonal_familyBits hf hsize (hlt _ hc) (hlt _ hd) hne)
  rw [← h.logged.columns] at hcolumns
  exact List.pairwise_map.mp hcolumns

/-- Columns that were drawn are missing from those that are left. -/
theorem length_add_left (h : b.Tallied draws) : (columnsDrawn draws).length + b.left = b.size := by
  have hlength : (columnsDrawn draws).length = b.usedColumns.length := by
    rw [← h.logged.columns, List.length_map, columnsDrawn]
  rw [hlength, usedColumns, left]
  cases hfamily : b.family with
  | none => exact Nat.zero_add _
  | some f =>
    have hused := h.used f hfamily
    have horder : f.order.length = b.size := by simpa using (h.logged.sound.family f hfamily).order.length_eq
    simp only [List.length_map, List.length_take]
    omega

/-- A new token is refused when all columns have been drawn. -/
theorem encodeFrom_full (h : b.Tallied draws) (hsize : Sylvester.isPowerOfTwo b.size = true)
    (hfull : (columnsDrawn draws).length = b.size) {token : String} (hnew : b.pattern? token = none) (layer : String) :
    b.encodeFrom true layer token = (.error (.exhausted layer (b.size + 1) b.size), b) := by
  have hleft : b.left = 0 := by
    have := h.length_add_left
    omega
  have hpos : 0 < b.size := by
    obtain ⟨k, hk⟩ := Sylvester.exists_pow_of_isPowerOfTwo hsize
    rw [hk]
    exact Nat.two_pow_pos k
  cases hfamily : b.family with
  | none =>
    rw [left, hfamily] at hleft
    exact absurd hleft hpos.ne'
  | some f =>
    have hused := h.used f hfamily
    have horder : f.order.length = b.size := by simpa using (h.logged.sound.family f hfamily).order.length_eq
    have hall : f.used = b.size := by
      rw [left, hfamily] at hleft
      dsimp only at hleft
      omega
    have hwith : b.withFamily = b := by rw [withFamily, hfamily]
    have hb : b.withFamily = { b with stream := b.stream, family := some f } := by rw [hwith, ← hfamily]
    rw [encodeFrom_of_new hnew, draw, if_pos rfl, drawOrthogonal_eq layer hsize hb,
      List.getElem?_eq_none (by omega), hall, hwith]

/-- A call is refused at the first new token that finds all columns drawn, and leaves the code book that the tokens
before it left. -/
theorem split_of_refused {orthogonal : Bool} {layer : String} {tokens : List String} (h : b.Tallied draws)
    (hlevels : ∀ bit, b.activator.isOn (b.activator.level bit) = bit) (hsize : Sylvester.isPowerOfTwo b.size = true)
    {e : Fault α} {later : CodeBook α} (hfails : b.encodeAll orthogonal layer tokens = (.error e, later)) :
    orthogonal = true ∧ e = .exhausted layer (b.size + 1) b.size ∧ ∃ before token after, tokens = before ++ token :: after ∧
      (∃ ps, b.encodeAll true layer before = (.ok ps, later)) ∧ later.pattern? token = none ∧
      (columnsDrawn (draws ++ b.drawnAll true layer before)).length = b.size := by
  induction tokens generalizing b draws with
  | nil => cases hfails
  | cons token rest ih =>
    have htally := h.encodeFrom hlevels orthogonal layer token
    have hext := extends_encodeFrom b orthogonal layer token
    rcases encodeFrom_cases h.logged.sound (fun _ : orthogonal = true => hsize) layer token with
      ⟨p, b₁, hfrom, -⟩ | ⟨rfl, hleft, hnew, needed, b₁, hfrom, -⟩
    · have hp := (encodeFrom_spec h.logged.sound orthogonal layer token).2.2 p (by rw [hfrom])
      rw [hfrom] at htally hext hp
      have hcolumn : column b₁.size p = .ok p := column_of_size (htally.logged.sound.sized _ _ hp.1)
      rcases hall : b₁.encodeAll orthogonal layer rest with ⟨e' | ps, b₂⟩
      · simp only [CodeBook.encodeAll, hfrom, hcolumn, hall] at hfails
        cases hfails
        obtain ⟨rfl, rfl, before, token', after, rfl, ⟨ps, hbefore⟩, hnew, hfull⟩ := ih htally
          (by rw [hext.activator]; exact hlevels) (by rw [hext.size]; exact hsize) hall
        rw [hext.size] at hfull ⊢
        refine ⟨rfl, rfl, token :: before, token', after, rfl, ⟨p :: ps, ?_⟩, hnew, ?_⟩
        · simp only [CodeBook.encodeAll, hfrom, hcolumn, hbefore]
        · rw [drawnAll, hfrom, ← List.append_assoc]
          exact hfull
      · simp only [CodeBook.encodeAll, hfrom, hcolumn, hall] at hfails
        cases hfails
    · have hfull : (columnsDrawn draws).length = b.size := by
        have := h.length_add_left
        omega
      have hrefused := h.encodeFrom_full hsize hfull hnew layer
      simp only [CodeBook.encodeAll, hrefused] at hfails
      cases hfails
      refine ⟨rfl, rfl, [], token, rest, rfl, ⟨[], rfl⟩, hnew, ?_⟩
      rw [drawnAll, List.append_nil]
      exact hfull

end Tallied

/-- Whatever is encoded on a new code book of a size that is a power of two: the patterns from the orthogonal family
differ pairwise in half of the units, and are kept by their tokens; there are no more of them than units; and a call that
needs one more is refused and leaves the code book as the tokens before left it. -/
theorem orthogonal_of_calls {a : Activator α} (hlevels : ∀ bit, a.isOn (a.level bit) = bit) {size : Nat}
    (hsize : Sylvester.isPowerOfTwo size = true) (seed : UInt64) {cs : List (Call α)} (hcs : Encodes cs) :
    let b := (CodeBook.new size a seed).calls cs
    let drawn := (CodeBook.new size a seed).draws cs
    (∀ d ∈ columnsDrawn drawn, b.pattern? d.token = some (a.pattern d.bits)) ∧
    ((columnsDrawn drawn).Pairwise fun d e => Bits.Orthogonal size d.bits e.bits) ∧
    (columnsDrawn drawn).length ≤ size ∧
    ((columnsDrawn drawn).length = size → ∀ layer token rest, b.pattern? token = none →
      b.encodeAll true layer (token :: rest) = (.error (.exhausted layer (size + 1) size), b)) ∧
    ∀ orthogonal layer tokens e later, b.encodeAll orthogonal layer tokens = (.error e, later) →
      orthogonal = true ∧ e = .exhausted layer (size + 1) size ∧ ∃ before token after, tokens = before ++ token :: after ∧
        (∃ ps, b.encodeAll true layer before = (.ok ps, later)) ∧ later.pattern? token = none ∧
        (columnsDrawn (drawn ++ b.drawnAll true layer before)).length = size := by
  intro b drawn
  obtain ⟨htally, hext⟩ := (tallied_new size a seed).calls hlevels hcs
  rw [List.nil_append] at htally
  have hbsize : b.size = size := hext.size
  have hactivator : b.activator = a := hext.activator
  have hpower : Sylvester.isPowerOfTwo b.size = true := hbsize ▸ hsize
  refine ⟨fun d hd => ?_, hbsize ▸ htally.pairwise_orthogonal hpower, ?_, fun hfull layer token rest hnew => ?_,
    fun orthogonal layer tokens e later hfails => ?_⟩
  · rw [← hactivator]
    exact htally.kept d (List.mem_filter.mp hd).1
  · rw [← hbsize, ← htally.length_add_left]
    exact Nat.le_add_right _ _
  · have hrefused := htally.encodeFrom_full hpower (hfull.trans hbsize.symm) hnew layer
    rw [hbsize] at hrefused
    rw [CodeBook.encodeAll, hrefused]
  · have hsplit := htally.split_of_refused (by rw [hactivator]; exact hlevels) hpower hfails
    rwa [hbsize] at hsplit

/-- Tokens for a layer of four units, the last of which gets no column. -/
def fiveTokens : List (Call Fixed) :=
  [.encodeAll true "ci" ["A", "B", "A"], .encode "C", .encodeAll true "ci" ["D", "E", "F"]]

/-- A new code book of four units. -/
def fourUnits : CodeBook Fixed := .new 4 .standard 0

/-- All columns are drawn, and one more is refused. -/
theorem four_columns_drawn :
    (∀ bit, (Activator.standard : Activator Fixed).isOn (Activator.standard.level bit) = bit) ∧
    Sylvester.isPowerOfTwo 4 = true ∧ Encodes fiveTokens ∧
    (columnsDrawn (fourUnits.draws fiveTokens)).map (·.token) = ["A", "B", "D", "E"] ∧
    ((columnsDrawn (fourUnits.draws fiveTokens)).Pairwise fun d e => Bits.distance d.bits e.bits = 2) ∧
    (fourUnits.calls fiveTokens).encodeAll true "ci" ["F"] = (.error (.exhausted "ci" 5 4), fourUnits.calls fiveTokens) := by
  have hlevels : ∀ bit, (Activator.standard : Activator Fixed).isOn (Activator.standard.level bit) = bit := by
    decide +kernel
  have hsize : Sylvester.isPowerOfTwo 4 = true := by decide +kernel
  have hcalls : Encodes fiveTokens := fun token p hmem => by simp [fiveTokens] at hmem
  obtain ⟨-, hpairs, -, hrefused, -⟩ := orthogonal_of_calls hlevels hsize 0 hcalls
  have htokens : (columnsDrawn (fourUnits.draws fiveTokens)).map (·.token) = ["A", "B", "D", "E"] := by decide +kernel
  have hfull : (columnsDrawn (fourUnits.draws fiveTokens)).length = 4 := by
    rw [← List.length_map (·.token), htokens]
    rfl
  have hnew : (fourUnits.calls fiveTokens).pattern? "F" = none := by decide +kernel
  exact ⟨hlevels, hsize, hcalls, htokens, hpairs.imp fun h => h.distance, hrefused hfull "ci" "F" [] hnew⟩

end CodeBook

end Engram
