/-
  Engram.Proofs.Layer.Rebinding — tokens that have their patterns already.

  A code book that has patterns for tokens gives them as they are, whichever family new ones would come
  from, and stays the same (`encodeAll_of_gives`). Binding a token to the pattern that it has leaves its
  binding too, but makes it the token that the pattern decodes to. When several tokens are bound one
  after the other, of those with the same bits the last one is decoded. That is so already, and stays
  so when all of them are bound again (`alike_bindEach`).
-/

import Engram.Proofs.Layer.Registrations

namespace Engram

theorem bindKey_of_lookup {β : Type} {key : String} {value : β} {l : List (String × β)} (h : l.lookup key = some value) :
    bindKey key value l = l := by
  induction l with
  | nil => simp at h
  | cons entry rest ih =>
    rw [lookup_cons_eq] at h
    by_cases hkey : entry.1 = key
    · rw [if_pos hkey.symm] at h
      rw [bindKey, if_pos hkey, ← hkey, ← Option.some.inj h]
    · rw [if_neg fun heq => hkey heq.symm] at h
      rw [bindKey, if_neg hkey, ih h]

namespace CodeBook

variable {α : Type} {b later : CodeBook α} {tokens : List String} {ps : List (Pattern α)}

/-! ## Known tokens -/

/-- The tokens have patterns, which fill these columns. -/
def Gives (b : CodeBook α) (tokens : List String) (ps : List (Pattern α)) : Prop :=
  List.Forall₂ (fun t p => ∃ q, b.pattern? t = some q ∧ column b.size q = .ok p) tokens ps

theorem Gives.unique {qs : List (Pattern α)} (h : b.Gives tokens ps) (h' : b.Gives tokens qs) : ps = qs := by
  refine List.right_unique_forall₂' (fun t p p' hp hp' => ?_) h h'
  obtain ⟨q, hq, hcolumn⟩ := hp
  obtain ⟨q', hq', hcolumn'⟩ := hp'
  rw [hq, Option.some_inj] at hq'
  rw [← hq', hcolumn] at hcolumn'
  exact Except.ok.inj hcolumn'

theorem Gives.of_pattern (h : b.Gives tokens ps) (hsize : later.size = b.size)
    (hpattern : ∀ t ∈ tokens, ∀ p, b.pattern? t = some p → later.pattern? t = some p) : later.Gives tokens ps := by
  induction h with
  | nil => exact .nil
  | @cons t p tokens ps hp _ ih =>
    obtain ⟨q, hq, hcolumn⟩ := hp
    refine .cons ⟨q, hpattern t List.mem_cons_self q hq, hsize ▸ hcolumn⟩ ?_
    exact ih fun t ht => hpattern t (List.mem_cons_of_mem _ ht)

variable [Scalar α]

/-- Encoding known tokens gives their patterns. -/
theorem encodeAll_of_gives (h : b.Gives tokens ps) (orthogonal : Bool) (layer : String) :
    b.encodeAll orthogonal layer tokens = (.ok ps, b) := by
  induction h with
  | nil => rfl
  | cons hp _ ih =>
    obtain ⟨q, hq, hcolumn⟩ := hp
    simp only [encodeAll, encodeFrom_of_known hq, hcolumn, ih]

theorem pattern?_of_encodeFrom {orthogonal : Bool} {layer token : String} {p : Pattern α}
    (h : b.encodeFrom orthogonal layer token = (.ok p, later)) : later.pattern? token = some p := by
  cases hknown : b.pattern? token with
  | some q =>
    rw [encodeFrom_of_known hknown] at h
    cases h
    exact hknown
  | none =>
    simp only [encodeFrom, hknown] at h
    split at h
    · cases h
      exact pattern?_bind_self _ _ _
    · cases h

/-- Tokens that were encoded have the patterns that were given. -/
theorem gives_of_encodeAll {orthogonal : Bool} {layer : String} (h : b.encodeAll orthogonal layer tokens = (.ok ps, later)) :
    later.Gives tokens ps := by
  induction tokens generalizing b ps with
  | nil =>
    cases h
    exact .nil
  | cons token rest ih =>
    unfold encodeAll at h
    rcases hfrom : b.encodeFrom orthogonal layer token with ⟨e | p, b₁⟩
    · simp [hfrom] at h
    · simp only [hfrom] at h
      cases hcolumn : column b₁.size p with
      | error e => simp [hcolumn] at h
      | ok c =>
        simp only [hcolumn] at h
        rcases hrest : b₁.encodeAll orthogonal layer rest with ⟨e | cs, b₂⟩
        · simp [hrest] at h
        · simp only [hrest] at h
          cases h
          have hextends := extends_encodeAll orthogonal layer rest b₁
          rw [hrest] at hextends
          have hpattern := hextends.pattern token p (pattern?_of_encodeFrom hfrom)
          exact .cons ⟨p, hpattern, hextends.size ▸ hcolumn⟩ (ih hrest)

/-! ## Binding tokens one after the other -/

/-- Binds tokens in their order. -/
def bindEach (b : CodeBook α) (xs : List (String × Pattern α)) : CodeBook α := xs.foldl (fun b x => b.bind x.1 x.2) b

/-- What binding tokens writes in front of the history. -/
def writes (b : CodeBook α) (xs : List (String × Pattern α)) : List (Bits × String) :=
  (xs.map fun x => (b.activator.bits x.2, x.1)).reverse

theorem extends_bindEach_of_ne (b : CodeBook α) {xs : List (String × Pattern α)} {t : String} (h : t ∉ xs.map (·.1)) :
    (b.bindEach xs).pattern? t = b.pattern? t := by
  induction xs generalizing b with
  | nil => rfl
  | cons x rest ih =>
    rw [List.map_cons, List.mem_cons, not_or] at h
    exact (ih (b.bind x.1 x.2) h.2).trans ((pattern?_bind ..).trans (if_neg h.1))

/-- Binding tokens changes their patterns and what is decoded, and nothing else. -/
theorem bindEach_eq (b : CodeBook α) (xs : List (String × Pattern α)) :
    b.bindEach xs = { b with bindings := (b.bindEach xs).bindings, history := b.writes xs ++ b.history } := by
  induction xs generalizing b with
  | nil => rfl
  | cons x rest ih =>
    have hcons : b.bindEach (x :: rest) = (b.bind x.1 x.2).bindEach rest := rfl
    rw [hcons, ih]
    simp [bind, writes]

theorem pattern?_bindEach (b : CodeBook α) {xs : List (String × Pattern α)} (hnodup : (xs.map (·.1)).Nodup)
    {x : String × Pattern α} (hx : x ∈ xs) : (b.bindEach xs).pattern? x.1 = some x.2 := by
  induction xs generalizing b with
  | nil => exact (List.not_mem_nil hx).elim
  | cons y rest ih =>
    obtain ⟨hy, hrest⟩ := List.nodup_cons.mp hnodup
    rcases List.mem_cons.mp hx with rfl | hx
    · exact (extends_bindEach_of_ne (b.bind x.1 x.2) hy).trans (pattern?_bind_self ..)
    · exact ih (b.bind y.1 y.2) hrest hx

/-- Tokens that are bound to the patterns they have keep their bindings. -/
theorem bindings_bindEach {xs : List (String × Pattern α)} (h : ∀ x ∈ xs, b.pattern? x.1 = some x.2) :
    (b.bindEach xs).bindings = b.bindings := by
  induction xs generalizing b with
  | nil => rfl
  | cons x rest ih =>
    have hbindings : (b.bind x.1 x.2).bindings = b.bindings := bindKey_of_lookup (h x List.mem_cons_self)
    have hpattern (t : String) : (b.bind x.1 x.2).pattern? t = b.pattern? t := congrArg (List.lookup t) hbindings
    have hrest := ih (b := b.bind x.1 x.2) fun y hy => (hpattern y.1).trans (h y (List.mem_cons_of_mem _ hy))
    exact hrest.trans hbindings

/-! ## Code books that act alike -/

/-- The code books know the same tokens in the same order with the same patterns, decode alike, and draw
the same new patterns. -/
structure Alike (b later : CodeBook α) : Prop where
  size : later.size = b.size
  activator : later.activator = b.activator
  stream : later.stream = b.stream
  bindings : later.bindings = b.bindings
  decodings : ∀ bits, later.history.lookup bits = b.history.lookup bits
  family : later.family = b.family

omit [Scalar α] in
theorem Alike.refl (b : CodeBook α) : b.Alike b := ⟨rfl, rfl, rfl, rfl, fun _ => rfl, rfl⟩

/-- Binding tokens again, in the same order, to the patterns that they were bound to. -/
theorem alike_bindEach (b : CodeBook α) {xs : List (String × Pattern α)} (hnodup : (xs.map (·.1)).Nodup) :
    (b.bindEach xs).Alike ((b.bindEach xs).bindEach xs) := by
  have hbindings := bindings_bindEach fun x hx => pattern?_bindEach b hnodup (x := x) hx
  have hhistory : (b.bindEach xs).history = b.writes xs ++ b.history := by rw [bindEach_eq]
  have hwrites : (b.bindEach xs).writes xs = b.writes xs := by rw [writes, bindEach_eq, writes]
  rw [bindEach_eq (b.bindEach xs), hbindings, hwrites]
  refine ⟨rfl, rfl, rfl, rfl, fun bits => ?_, rfl⟩
  show (b.writes xs ++ (b.bindEach xs).history).lookup bits = (b.bindEach xs).history.lookup bits
  rw [hhistory, List.lookup_append, List.lookup_append]
  cases (b.writes xs).lookup bits <;> rfl

end CodeBook

end Engram
