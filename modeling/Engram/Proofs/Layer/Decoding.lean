/-
  Engram.Proofs.Layer.Decoding — which tokens a layer can tell apart.

  A token decodes from its pattern as long as no other token has the same bits. Nothing but the
  draws decides that: a token keeps the pattern that was drawn when it was new, so the code book
  is what a log of the draws says (`Logged`). Random bits are drawn again while they stand for a
  token, 64 times at most; columns of the orthogonal family are all different. Neither excludes
  that a column has the bits of a pattern that was drawn at random before it, since columns are
  not drawn again. These are the only clashes (`draws_clash`), so without them tokens and
  patterns are in bijection (`decode_encode_of_calls`); and there are such clashes
  (`column_repeats_pattern`).
-/

import Engram.Proofs.Layer.Orthogonal
import Engram.Proofs.Scalar.Fixed

namespace Engram

/-! ## Calls and their draws -/

/-- A call that may draw patterns on a layer. -/
inductive Layer.Call where
  | encode (token : String)
  | encodeAll (orthogonal : Bool) (tokens : List String)

/-- What was drawn for a new token. -/
structure Draw where
  token : String
  orthogonal : Bool
  bits : Bits
  /-- Whether the bits are random ones that stood for a token, as all that were drawn before them did. -/
  ranOut : Bool

section

variable {α : Type} [Scalar α]

theorem Activator.bits_pattern_of_isOn_level {a : Activator α} (h : ∀ bit, a.isOn (a.level bit) = bit) (b : Bits) :
    a.bits (a.pattern b) = b := by
  unfold bits pattern
  rw [List.map_map]
  calc b.map (a.isOn ∘ a.level) = b.map id := List.map_congr_left fun c _ => h c
    _ = b := List.map_id b

theorem lookup_of_mem {κ β : Type} [BEq κ] [LawfulBEq κ] {l : List (κ × β)} (h : (l.map (·.1)).Nodup) {k : κ} {v : β}
    (hmem : (k, v) ∈ l) : l.lookup k = some v := by
  induction l with
  | nil => cases hmem
  | cons x l ih =>
    obtain ⟨hfresh, hrest⟩ := List.nodup_cons.mp h
    rcases List.mem_cons.mp hmem with heq | hmem
    · rw [← heq, List.lookup_cons_self]
    · have hne : k ≠ x.1 := by
        rintro rfl
        exact hfresh (List.mem_map.mpr ⟨_, hmem, rfl⟩)
      rw [List.lookup_cons, beq_false_of_ne hne]
      exact ih hrest hmem

namespace CodeBook

/-- Whether so many random draws all give bits that stand for a token. -/
def allTaken (history : List (Bits × String)) (size : Nat) : Nat → Random.Stream → Bool
  | 0, _ => true
  | draws + 1, s => (history.lookup (s.bits size).1).isSome && allTaken history size draws (s.bits size).2

/-- What encoding a token draws. -/
def drawn (b : CodeBook α) (orthogonal : Bool) (layer token : String) : List Draw :=
  match b.pattern? token, (b.draw orthogonal layer).1 with
  | none, .ok p => [⟨token, orthogonal, b.activator.bits p, !orthogonal && allTaken b.history b.size maxDraws b.stream⟩]
  | _, _ => []

/-- What encoding several tokens draws. -/
def drawnAll (b : CodeBook α) (orthogonal : Bool) (layer : String) : List String → List Draw
  | [] => []
  | token :: rest => b.drawn orthogonal layer token ++
    match b.encodeFrom orthogonal layer token with
    | (.ok _, later) => later.drawnAll orthogonal layer rest
    | (.error _, _) => []

end CodeBook

namespace Layer

/-- The layer after a call, also one that fails. -/
def call (l : Layer α) : Call → Layer α
  | .encode token => (l.encode token).2
  | .encodeAll orthogonal tokens => (l.encodeAll orthogonal tokens).2

def calls (l : Layer α) (cs : List Call) : Layer α := cs.foldl call l

def drawn (l : Layer α) : Call → List Draw
  | .encode token => l.book.drawn false l.name token
  | .encodeAll orthogonal tokens => l.book.drawnAll orthogonal l.name tokens

/-- What a sequence of calls draws, in order. -/
def draws (l : Layer α) : List Call → List Draw
  | [] => []
  | c :: cs => l.drawn c ++ (l.call c).draws cs

end Layer

/-! ## Fresh bits -/

namespace CodeBook

/-- Random bits are fresh if any of the draws were. -/
theorem lookup_drawBits {history : List (Bits × String)} {size : Nat} :
    ∀ {draws : Nat} {s : Random.Stream}, allTaken history size draws s = false →
      history.lookup (drawBits history size draws s).1 = none := by
  intro draws
  induction draws with
  | zero => intro s h; cases h
  | succ draws ih =>
    intro s h
    simp only [drawBits]
    rw [allTaken, Bool.and_eq_false_iff] at h
    by_cases hsome : (history.lookup (s.bits size).1).isSome = true
    · have hrest := h.resolve_left (by rw [hsome]; decide)
      have hdraws : draws ≠ 0 := by
        rintro rfl
        cases hrest
      rw [if_pos ⟨hdraws, hsome⟩]
      exact ih hrest
    · rw [if_neg fun h => hsome h.2]
      exact Option.not_isSome_iff_eq_none.mp hsome

/-- Different columns have different bits. -/
theorem column_eq_of_familyBits {f : OrthogonalFamily} {size c d : Nat} (hf : IsFamily f size)
    (hsize : Sylvester.isPowerOfTwo size = true) (hc : c < size) (hd : d < size)
    (h : OrthogonalFamily.bits f c = OrthogonalFamily.bits f d) : c = d := by
  by_contra hne
  obtain ⟨k, rfl⟩ := Sylvester.exists_pow_of_isPowerOfTwo hsize
  have hsign : ∀ i ∈ Finset.range (2 ^ k), Sylvester.signAt i c * Sylvester.signAt i d = 1 := by
    intro i hi
    have hi' : i < f.signs.length := by rw [hf.signs]; exact Finset.mem_range.mp hi
    have hbit := List.getElem_of_eq h (i := i) (by simpa using hi')
    simp only [OrthogonalFamily.bits, List.getElem_mapIdx, Bool.bne_right_inj] at hbit
    rw [Sylvester.signAt, hbit]
    exact Sylvester.signAt_mul_self i d
  have hsum := Sylvester.sum_rows_mul k hc hd hne
  rw [Finset.sum_congr rfl hsign] at hsum
  simp at hsum

/-- The bits of the columns that have been used. -/
def usedColumns (b : CodeBook α) : List Bits :=
  match b.family with
  | none => []
  | some f => (f.order.take f.used).map (OrthogonalFamily.bits f)

omit [Scalar α] in
theorem usedColumns_withFamily (b : CodeBook α) : b.withFamily.usedColumns = b.usedColumns := by
  unfold withFamily usedColumns
  cases hf : b.family with
  | some f => simp only [hf]
  | none => simp

/-! ## The log -/

/-- What each token keeps of a code book and its log, several tokens keep, also when a call fails among them. -/
theorem encodeAll_keeps {P : CodeBook α → List Draw → Prop} {orthogonal : Bool} {layer : String}
    (hsound : ∀ {b draws}, P b draws → b.Sound)
    (hstep : ∀ {b draws} (token : String), P b draws →
      P (b.encodeFrom orthogonal layer token).2 (draws ++ b.drawn orthogonal layer token))
    (tokens : List String) {b : CodeBook α} {draws : List Draw} (h : P b draws) :
    P (b.encodeAll orthogonal layer tokens).2 (draws ++ b.drawnAll orthogonal layer tokens) := by
  induction tokens generalizing b draws with
  | nil =>
    rw [drawnAll, List.append_nil]
    exact h
  | cons token rest ih =>
    have hfrom := hstep token h
    unfold CodeBook.encodeAll
    rw [drawnAll, ← List.append_assoc]
    rcases hresult : b.encodeFrom orthogonal layer token with ⟨e | p, later⟩
    · rw [hresult] at hfrom
      dsimp only
      rw [List.append_nil]
      exact hfrom
    · have hp := (encodeFrom_spec (hsound h) orthogonal layer token).2.2 p (by rw [hresult])
      rw [hresult] at hfrom hp
      have hrest := ih hfrom
      dsimp only
      rw [column_of_size ((hsound hfrom).sized _ _ hp.1)]
      rcases hall : later.encodeAll orthogonal layer rest with ⟨e | ps, last⟩
      · rw [hall] at hrest
        exact hrest
      · rw [hall] at hrest
        exact hrest

/-- A clash that drawing does not exclude: a column after a random pattern, or random bits for
which no draw was left. -/
def Excused (d e : Draw) : Prop := (d.orthogonal = false ∧ e.orthogonal = true) ∨ e.ranOut = true

/-- The code book holds what the draws put into it. -/
structure Logged (b : CodeBook α) (draws : List Draw) : Prop where
  sound : b.Sound
  tokens : b.tokens = draws.map (·.token)
  nodup : b.tokens.Nodup
  patterns : ∀ t p, b.pattern? t = some p → ∃ d ∈ draws, d.token = t ∧ d.bits = b.activator.bits p
  history : b.history = (draws.map fun d => (d.bits, d.token)).reverse
  columns : (draws.filter (·.orthogonal)).map (·.bits) = b.usedColumns
  clashes : draws.Pairwise fun d e => d.bits = e.bits → Excused d e

theorem logged_new (size : Nat) (a : Activator α) (seed : UInt64) : (CodeBook.new size a seed).Logged [] :=
  ⟨sound_new size a seed, rfl, List.nodup_nil, fun _ _ h => (Option.not_mem_none _ h).elim, rfl, rfl, List.Pairwise.nil⟩

namespace Logged

variable {b later : CodeBook α} {draws : List Draw}

/-- The log of a code book that differs in the stream and in the columns that are left. -/
theorem of_draws (h : b.Logged draws) (hd : b.Draws later) (hhistory : later.history = b.history)
    (hcolumns : later.usedColumns = b.usedColumns) : later.Logged draws := by
  have htokens : later.tokens = b.tokens := congrArg (List.map Prod.fst) hd.bindings
  refine ⟨hd.sound, htokens.trans h.tokens, htokens ▸ h.nodup, fun t p hp => ?_, hhistory.trans h.history,
    h.columns.trans hcolumns.symm, h.clashes⟩
  rw [hd.activator]
  exact h.patterns t p (hd.pattern? t ▸ hp)

/-- A new token is bound to what was drawn for it. -/
theorem bind (h : b.Logged draws) {d : Draw} (hnew : b.pattern? d.token = none) (hd : b.Draws later)
    (hhistory : later.history = b.history) {p : Pattern α} (hp : p.size = b.size) (hbits : d.bits = b.activator.bits p)
    (hcolumns : later.usedColumns = b.usedColumns ++ if d.orthogonal then [d.bits] else [])
    (hclash : ∀ e ∈ draws, e.bits = d.bits → Excused e d) : (later.bind d.token p).Logged (draws ++ [d]) := by
  have hfresh : d.token ∉ b.tokens := by
    rw [mem_tokens_iff, knows, hnew]
    exact Bool.false_ne_true
  have htokens : (later.bind d.token p).tokens = b.tokens ++ [d.token] := by
    show (bindKey d.token p later.bindings).map (·.1) = _
    rw [hd.bindings]
    exact (keys_bindKey d.token p b.bindings).trans (if_neg hfresh)
  refine ⟨hd.sound.bind d.token (hp.trans hd.size.symm), ?_, ?_, fun t q hq => ?_, ?_, ?_, ?_⟩
  · rw [htokens, h.tokens, List.map_append]
    rfl
  · rw [htokens]
    exact List.nodup_append.mpr ⟨h.nodup, List.nodup_singleton _, fun t ht u hu => by
      rw [List.mem_singleton.mp hu]
      rintro rfl
      exact hfresh ht⟩
  · rw [activator_bind, hd.activator]
    rw [pattern?_bind] at hq
    split at hq
    next heq =>
      cases hq
      exact ⟨d, by simp, heq.symm, hbits⟩
    next =>
      obtain ⟨e, he, htoken, heq⟩ := h.patterns t q (hd.pattern? t ▸ hq)
      exact ⟨e, List.mem_append_left _ he, htoken, heq⟩
  · show (later.activator.bits p, d.token) :: later.history = _
    rw [hd.activator, ← hbits, hhistory, h.history, List.map_append, List.reverse_append]
    rfl
  · show _ = later.usedColumns
    rw [hcolumns, ← h.columns, List.filter_append, List.map_append]
    congr 1
    cases horth : d.orthogonal <;> simp [horth]
  · refine List.pairwise_append.mpr ⟨h.clashes, List.pairwise_singleton _ _, fun e he e' he' heq => ?_⟩
    rw [List.mem_singleton.mp he'] at heq ⊢
    exact hclash e he heq

theorem lookup_history (h : b.Logged draws) {bits : Bits} (hnone : b.history.lookup bits = none) :
    ∀ e ∈ draws, e.bits ≠ bits := by
  intro e he heq
  have hmem : (e.bits, e.token) ∈ b.history := by
    rw [h.history, List.mem_reverse]
    exact List.mem_map_of_mem he
  have hne := List.lookup_eq_none_iff.mp hnone _ hmem
  rw [heq, bne_self_eq_false] at hne
  cases hne

/-- A random pattern. -/
theorem random (h : b.Logged draws) (hlevels : ∀ bit, b.activator.isOn (b.activator.level bit) = bit)
    {token : String} (hnew : b.pattern? token = none) : (b.drawRandom.2.bind token b.drawRandom.1).Logged (draws ++
      [⟨token, false, b.activator.bits b.drawRandom.1, allTaken b.history b.size maxDraws b.stream⟩]) := by
  have hdraws : b.Draws b.drawRandom.2 := ⟨rfl, rfl, rfl, h.sound.sized, h.sound.family⟩
  refine h.bind (d := ⟨token, false, b.activator.bits b.drawRandom.1, allTaken b.history b.size maxDraws b.stream⟩) hnew
    hdraws rfl (size_drawRandom b) rfl (List.append_nil _).symm fun e he heq => ?_
  right
  by_contra htaken
  have hbits : b.activator.bits b.drawRandom.1 = (drawBits b.history b.size maxDraws b.stream).1 :=
    Activator.bits_pattern_of_isOn_level hlevels _
  exact h.lookup_history (lookup_drawBits (Bool.eq_false_iff.mpr htaken)) e he (heq.trans hbits)

/-- A column of the family: it differs from the columns before it. -/
theorem orthogonal (h : b.Logged draws) (hlevels : ∀ bit, b.activator.isOn (b.activator.level bit) = bit)
    {token : String} (hnew : b.pattern? token = none) {s : Random.Stream} {f : OrthogonalFamily} {c : Nat}
    (hsize : Sylvester.isPowerOfTwo b.size = true) (hb : b.withFamily = { b with stream := s, family := some f })
    (hc : f.order[f.used]? = some c) :
    (CodeBook.bind { b with stream := s, family := some { f with used := f.used + 1 } } token
      (b.activator.pattern (OrthogonalFamily.bits f c))).Logged
      (draws ++ [⟨token, true, b.activator.bits (b.activator.pattern (OrthogonalFamily.bits f c)), false⟩]) := by
  obtain ⟨f', s', hf, hb'⟩ := exists_family_withFamily h.sound
  obtain rfl : f' = f := Option.some.inj (congrArg CodeBook.family (hb'.symm.trans hb))
  have hbits := Activator.bits_pattern_of_isOn_level hlevels (OrthogonalFamily.bits f' c)
  have hused : b.usedColumns = (f'.order.take f'.used).map (OrthogonalFamily.bits f') := by
    rw [← usedColumns_withFamily, hb]
    rfl
  have hmem : ∀ {c}, c ∈ f'.order → c < b.size := fun h => List.mem_range.mp (hf.order.mem_iff.mp h)
  have hdraws : b.Draws { b with stream := s, family := some { f' with used := f'.used + 1 } } :=
    ⟨rfl, rfl, rfl, h.sound.sized, fun g hg => by cases hg; exact ⟨hf.signs, hf.order⟩⟩
  refine h.bind (d := ⟨token, true, b.activator.bits (b.activator.pattern (OrthogonalFamily.bits f' c)), false⟩) hnew
    hdraws rfl ?_ rfl ?_ fun e he heq => ?_
  · rw [Activator.size_pattern, length_familyBits, hf.signs]
  · dsimp only
    rw [hused, hbits, if_pos rfl, usedColumns]
    dsimp only
    rw [List.take_add_one, hc, List.map_append]
    rfl
  · left
    refine ⟨Bool.eq_false_iff.mpr fun horth => ?_, rfl⟩
    have hcolumn : OrthogonalFamily.bits f' c ∈ (f'.order.take f'.used).map (OrthogonalFamily.bits f') := by
      rw [← hused, ← h.columns]
      exact List.mem_map.mpr ⟨e, List.mem_filter.mpr ⟨he, horth⟩, heq.trans hbits⟩
    obtain ⟨c', hc', hsame⟩ := List.mem_map.mp hcolumn
    obtain rfl : c' = c := column_eq_of_familyBits hf hsize (hmem (List.mem_of_mem_take hc'))
      (hmem (List.mem_of_getElem? hc)) hsame
    -- a column comes up once in the order
    have hnodup := (hf.order.nodup_iff.mpr List.nodup_range).sublist (List.take_sublist (f'.used + 1) f'.order)
    rw [List.take_add_one, hc] at hnodup
    exact (List.nodup_append.mp hnodup).2.2 c' hc' c' (List.mem_singleton_self c') rfl

/-! ## Runs -/

/-- One token. -/
theorem encodeFrom (h : b.Logged draws) (hlevels : ∀ bit, b.activator.isOn (b.activator.level bit) = bit)
    (orthogonal : Bool) (layer token : String) :
    (b.encodeFrom orthogonal layer token).2.Logged (draws ++ b.drawn orthogonal layer token) := by
  cases hp : b.pattern? token with
  | some p =>
    rw [encodeFrom_of_known hp, drawn, hp, List.append_nil]
    exact h
  | none =>
    rw [encodeFrom_of_new hp]
    unfold drawn
    rw [hp]
    cases orthogonal with
    | false => exact h.random hlevels hp
    | true =>
      unfold draw
      rw [if_pos rfl]
      by_cases hsize : Sylvester.isPowerOfTwo b.size = true
      · obtain ⟨f, s, hf, hb⟩ := exists_family_withFamily h.sound
        rw [drawOrthogonal_eq layer hsize hb]
        cases hc : f.order[f.used]? with
        | none =>
          dsimp only
          rw [List.append_nil]
          refine h.of_draws ?_ (by rw [hb]) (usedColumns_withFamily b)
          rw [hb]
          exact ⟨rfl, rfl, rfl, h.sound.sized, fun g hg => by cases hg; exact hf⟩
        | some c => exact h.orthogonal hlevels hp hsize hb hc
      · have hrefused : b.drawOrthogonal layer = (.error (.config (.patternSize layer b.size)), b) := by
          simp [drawOrthogonal, hsize]
        rw [hrefused]
        dsimp only
        rw [List.append_nil]
        exact h

/-- Several tokens. -/
theorem encodeAll (h : b.Logged draws) (hlevels : ∀ bit, b.activator.isOn (b.activator.level bit) = bit)
    (orthogonal : Bool) (layer : String) (tokens : List String) :
    (b.encodeAll orthogonal layer tokens).2.Logged (draws ++ b.drawnAll orthogonal layer tokens) := by
  have hkept := encodeAll_keeps (P := fun later draws => later.Logged draws ∧ later.activator = b.activator)
    (fun h => h.1.sound) (fun token h => ⟨h.1.encodeFrom (h.2 ▸ hlevels) orthogonal layer token,
      (extends_encodeFrom _ orthogonal layer token).activator.trans h.2⟩) tokens ⟨h, rfl⟩
  exact hkept.1

end Logged

theorem encode_eq_encodeFrom (b : CodeBook α) (layer token : String) :
    b.encodeFrom false layer token = (.ok (b.encode token).1, (b.encode token).2) := by
  cases hp : b.pattern? token with
  | some p => rw [encodeFrom_of_known hp, encode_of_known hp]
  | none =>
    rw [encodeFrom_of_new hp, encode_of_new hp]
    rfl

end CodeBook

namespace Layer

open CodeBook

variable {l : Layer α} {draws : List Draw}

theorem logged_call (h : l.book.Logged draws) (hlevels : ∀ bit, l.activator.isOn (l.activator.level bit) = bit)
    (c : Call) : (l.call c).book.Logged (draws ++ l.drawn c) ∧ (l.call c).activator = l.activator := by
  cases c with
  | encode token =>
    have hfrom := h.encodeFrom hlevels false l.name token
    rw [encode_eq_encodeFrom] at hfrom
    exact ⟨hfrom, (extends_encode l.book token).activator⟩
  | encodeAll orthogonal tokens =>
    exact ⟨h.encodeAll hlevels orthogonal l.name tokens, (extends_encodeAll orthogonal l.name tokens l.book).activator⟩

theorem logged_calls (h : l.book.Logged draws) (hlevels : ∀ bit, l.activator.isOn (l.activator.level bit) = bit)
    (cs : List Call) : (l.calls cs).book.Logged (draws ++ l.draws cs) ∧ (l.calls cs).activator = l.activator := by
  induction cs generalizing l draws with
  | nil => exact ⟨by rw [Layer.draws, List.append_nil]; exact h, rfl⟩
  | cons c cs ih =>
    obtain ⟨hcall, hactivator⟩ := logged_call h hlevels c
    obtain ⟨hcalls, hlater⟩ := ih hcall (by rw [hactivator]; exact hlevels)
    exact ⟨by rw [Layer.draws, ← List.append_assoc]; exact hcalls, hlater.trans hactivator⟩

/-- Whatever is called on a new layer, two draws have the same bits only if a column came after a
random pattern, or the random draws ran out. -/
theorem draws_clash {a : Activator α} (hlevels : ∀ bit, a.isOn (a.level bit) = bit) (name : String) (size : Nat)
    (seed : UInt64) (cs : List Call) : ((Layer.new name size a seed).draws cs).Pairwise fun d e =>
      d.bits = e.bits → (d.orthogonal = false ∧ e.orthogonal = true) ∨ e.ranOut = true :=
  (logged_calls (l := Layer.new name size a seed) (logged_new size a seed) hlevels cs).1.clashes

/-- Whatever is called on a new layer, calls that fail included: distinct tokens have distinct bits
and every token decodes from its pattern, if no column repeats a pattern drawn at random before it
and no random draw ran out of tries. -/
theorem decode_encode_of_calls {a : Activator α} (hlevels : ∀ bit, a.isOn (a.level bit) = bit) (name : String)
    (size : Nat) (seed : UInt64) (cs : List Call)
    (hcolumns : ((Layer.new name size a seed).draws cs).Pairwise fun d e =>
      d.orthogonal = false → e.orthogonal = true → d.bits ≠ e.bits)
    (hrandom : ∀ d ∈ (Layer.new name size a seed).draws cs, d.ranOut = false) :
    (∀ t p u q, ((Layer.new name size a seed).calls cs).pattern? t = some p →
      ((Layer.new name size a seed).calls cs).pattern? u = some q →
      ((Layer.new name size a seed).calls cs).bits p = ((Layer.new name size a seed).calls cs).bits q → t = u) ∧
    ∀ t, ((Layer.new name size a seed).calls cs).knows t = true →
      ((Layer.new name size a seed).calls cs).decode (((Layer.new name size a seed).calls cs).encode t).1 = t := by
  obtain ⟨hlogged, -⟩ := logged_calls (l := Layer.new name size a seed) (logged_new size a seed) hlevels cs
  rw [List.nil_append] at hlogged
  generalize (Layer.new name size a seed).calls cs = l at hlogged ⊢
  have hclashes := hlogged.clashes
  generalize (Layer.new name size a seed).draws cs = draws at hcolumns hrandom hlogged hclashes
  have hdistinct : draws.Pairwise fun d e => d.bits ≠ e.bits := by
    refine (hclashes.and hcolumns).imp_of_mem fun {d e} _ he hde heq => ?_
    rcases hde.1 heq with ⟨hd, he'⟩ | hout
    · exact hde.2 hd he' heq
    · rw [hrandom e he] at hout
      cases hout
  have hnodup : (draws.map (·.bits)).Nodup := List.pairwise_map.mpr hdistinct
  constructor
  · intro t p u q hp hq heq
    obtain ⟨d, hd, rfl, hdp⟩ := hlogged.patterns t p hp
    obtain ⟨e, he, rfl, heq'⟩ := hlogged.patterns u q hq
    exact congrArg Draw.token (List.inj_on_of_nodup_map hnodup hd he (hdp.trans (heq.trans heq'.symm)))
  · intro t ht
    obtain ⟨p, hp⟩ := Option.isSome_iff_exists.mp ht
    obtain ⟨d, hd, rfl, hdp⟩ := hlogged.patterns t p hp
    have hencode : (l.encode d.token).1 = p := congrArg Prod.fst (encode_of_known hp)
    have hlookup : l.book.history.lookup d.bits = some d.token := by
      rw [hlogged.history]
      have hmem : (d.bits, d.token) ∈ (draws.map fun d => (d.bits, d.token)).reverse :=
        List.mem_reverse.mpr (List.mem_map.mpr ⟨d, hd, rfl⟩)
      refine lookup_of_mem ?_ hmem
      rw [List.map_reverse, List.map_map]
      exact List.nodup_reverse.mpr hnodup
    rw [hencode, Layer.decode, CodeBook.decode, decodeBits, ← hdp, hlookup]
    rfl

end Layer

end

/-- Two columns and two random patterns on one layer. -/
theorem four_tokens_decode :
    (∀ bit, (Activator.standard : Activator Fixed).isOn (Activator.standard.level bit) = bit) ∧
    ∀ t, ((Layer.new "ci" 8 (Activator.standard : Activator Fixed) 0).calls
        [.encodeAll true ["A", "B"], .encode "C", .encodeAll false ["D", "A"]]).knows t = true →
      ((Layer.new "ci" 8 (Activator.standard : Activator Fixed) 0).calls
        [.encodeAll true ["A", "B"], .encode "C", .encodeAll false ["D", "A"]]).decode
          (((Layer.new "ci" 8 (Activator.standard : Activator Fixed) 0).calls
            [.encodeAll true ["A", "B"], .encode "C", .encodeAll false ["D", "A"]]).encode t).1 = t := by
  have hlevels : ∀ bit, (Activator.standard : Activator Fixed).isOn (Activator.standard.level bit) = bit := by
    decide +kernel
  exact ⟨hlevels, (Layer.decode_encode_of_calls hlevels "ci" 8 0 _ (by decide +kernel) (by decide +kernel)).2⟩

namespace CodeBook

/-- A token with a random pattern on a new layer. -/
theorem encode_new {α : Type} [Scalar α] (size : Nat) (a : Activator α) (seed : UInt64) (token : String) :
    (CodeBook.new size a seed).encode token =
      let (bits, s) := drawBits [] size maxDraws (.ofSeed seed)
      (a.pattern bits, ⟨size, a, s, [(token, a.pattern bits)], [(a.bits (a.pattern bits), token)], none⟩) :=
  encode_of_new rfl

/-- The first column of the family, on a layer with tokens that are drawn at random. -/
theorem encodeAll_firstColumn {α : Type} [Scalar α] {b : CodeBook α} {f : OrthogonalFamily} {s : Random.Stream} {c : Nat}
    (layer token : String) (hsound : b.Sound) (hsize : Sylvester.isPowerOfTwo b.size = true)
    (hnone : b.family = none) (hf : drawFamily b.size b.stream = (f, s)) (hc : f.order[0]? = some c)
    (hnew : b.pattern? token = none) : b.encodeAll true layer [token] =
      (.ok [b.activator.pattern (OrthogonalFamily.bits f c)],
        CodeBook.bind { b with stream := s, family := some { f with used := f.used + 1 } } token
          (b.activator.pattern (OrthogonalFamily.bits f c))) := by
  have hb : b.withFamily = { b with stream := s, family := some f } := by
    rw [withFamily, hnone]
    dsimp only
    rw [hf]
  have hused : f.used = 0 := by rw [← used_drawFamily b.size b.stream, hf]
  have hfrom : b.encodeFrom true layer token = (.ok (b.activator.pattern (OrthogonalFamily.bits f c)),
      CodeBook.bind { b with stream := s, family := some { f with used := f.used + 1 } } token
        (b.activator.pattern (OrthogonalFamily.bits f c))) := by
    rw [encodeFrom_of_new hnew, draw, if_pos rfl, drawOrthogonal_eq layer hsize hb, hused, hc]
  have hspec := encodeFrom_spec hsound true layer token
  rw [hfrom] at hspec
  rw [encodeAll, hfrom]
  dsimp only
  rw [column_of_size (hspec.1.sized _ _ (hspec.2.2 _ rfl).1)]
  rfl

end CodeBook

/-- A column with the bits of a random pattern takes its token's place: both calls succeed and two
tokens of four units have one pattern. -/
theorem column_repeats_pattern :
    ∃ (p : Pattern ℝ) (later last : Layer ℝ),
      (Layer.new "ci" 4 (Activator.standard : Activator ℝ) 24).encode "A" = (p, later) ∧
      later.encodeAll true ["B"] = (.ok [p], last) ∧ last.decode (last.encode "A").1 = "B" := by
  have hrandom : (CodeBook.drawBits [] 4 CodeBook.maxDraws (.ofSeed 24)).1 = [true, false, false, false] := by decide +kernel
  have hcolumn : (CodeBook.drawFamily 4 (CodeBook.drawBits [] 4 CodeBook.maxDraws (.ofSeed 24)).2).1.order[0]?.map
      (CodeBook.OrthogonalFamily.bits
        (CodeBook.drawFamily 4 (CodeBook.drawBits [] 4 CodeBook.maxDraws (.ofSeed 24)).2).1) =
        some [true, false, false, false] := by decide +kernel
  have hfirst := CodeBook.encode_new 4 (Activator.standard : Activator ℝ) 24 "A"
  have hsound := ((CodeBook.sound_new 4 (Activator.standard : Activator ℝ) 24).encode "A").1
  rw [hfirst] at hsound
  generalize CodeBook.drawBits [] 4 CodeBook.maxDraws (.ofSeed 24) = drawn at hrandom hcolumn hfirst hsound
  obtain ⟨bits, s⟩ := drawn
  obtain rfl : bits = _ := hrandom
  dsimp only at hcolumn hfirst hsound
  rcases hfamily : CodeBook.drawFamily 4 s with ⟨f, s'⟩
  rw [hfamily] at hcolumn
  obtain ⟨c, hc, hbits⟩ := Option.map_eq_some_iff.mp hcolumn
  have hsecond := CodeBook.encodeAll_firstColumn (b := ⟨4, _, s, _, _, none⟩) "ci" "B" hsound
    (show Sylvester.isPowerOfTwo 4 = true by decide) rfl hfamily hc rfl
  rw [hbits] at hsecond
  generalize hp : (Activator.standard : Activator ℝ).pattern [true, false, false, false] = p at hfirst hsecond
  refine ⟨p, _, _, congrArg (fun x => (x.1, Layer.mk "ci" x.2)) hfirst,
    congrArg (fun x => (x.1, Layer.mk "ci" x.2)) hsecond, ?_⟩
  unfold Layer.decode Layer.encode
  dsimp only
  rw [CodeBook.encode_of_known (p := p) ((CodeBook.pattern?_bind _ _ _ _).trans (if_neg (by decide)))]
  unfold CodeBook.decode CodeBook.decodeBits
  rw [CodeBook.activator_bind, CodeBook.bind, List.lookup_cons_self]
  rfl

end Engram
