/-
  Engram.Proofs.Layer.Bindings — what a code book remembers.

  Binding a token changes the pattern of that token and of no other. Encoding binds only what was
  not known, so a code book never forgets (`Extends`), and gives back the pattern that is bound
  afterwards. In a code book that is `Sound` every pattern has a unit for each unit of the layer,
  which the encoding of several tokens needs; encoding and binding keep it so.
-/

import Engram.Layer.Basic
import Mathlib.Data.List.Forall2
import Mathlib.Tactic.Tauto

namespace Engram

theorem lookup_cons_eq {κ β : Type} [DecidableEq κ] (entry : κ × β) (rest : List (κ × β)) (k : κ) :
    (entry :: rest).lookup k = if k = entry.1 then some entry.2 else rest.lookup k := by
  rw [List.lookup_cons]
  by_cases h : k = entry.1
  · simp [h]
  · have : (k == entry.1) = false := by simpa using h
    rw [this, if_neg h]

theorem lookup_bindKey {β : Type} (key : String) (value : β) (l : List (String × β)) (token : String) :
    (bindKey key value l).lookup token = if token = key then some value else l.lookup token := by
  induction l with
  | nil => rw [bindKey, lookup_cons_eq]
  | cons entry rest ih =>
    rw [bindKey]
    by_cases he : entry.1 = key
    · rw [if_pos he, lookup_cons_eq, lookup_cons_eq, he]
      by_cases h : token = key
      · rw [if_pos h, if_pos h]
      · rw [if_neg h, if_neg h, if_neg h]
    · rw [if_neg he, lookup_cons_eq, lookup_cons_eq, ih]
      by_cases h : token = entry.1
      · rw [if_pos h, if_pos h, if_neg (fun hk => he (h.symm.trans hk))]
      · rw [if_neg h, if_neg h]

theorem keys_bindKey {β : Type} (key : String) (value : β) (l : List (String × β)) :
    (bindKey key value l).map (·.1) = if key ∈ l.map (·.1) then l.map (·.1) else l.map (·.1) ++ [key] := by
  induction l with
  | nil => simp [bindKey]
  | cons entry rest ih =>
    rw [bindKey]
    by_cases he : entry.1 = key
    · simp [he]
    · have he' : ¬ key = entry.1 := fun h => he h.symm
      rw [if_neg he, List.map_cons, ih]
      by_cases h : key ∈ rest.map (·.1)
      · rw [if_pos h, if_pos (by rw [List.map_cons]; exact List.mem_cons_of_mem _ h)]; rfl
      · rw [if_neg h, if_neg (by rw [List.map_cons, List.mem_cons, not_or]; exact ⟨he', h⟩)]
        rfl

theorem lookup_isSome_iff {β : Type} (l : List (String × β)) (token : String) :
    (l.lookup token).isSome = true ↔ token ∈ l.map (·.1) := by
  induction l with
  | nil => simp
  | cons entry rest ih =>
    rw [lookup_cons_eq, List.map_cons, List.mem_cons]
    by_cases h : token = entry.1
    · simp [h]
    · rw [if_neg h, ih]
      simp [h]

namespace Random.Stream

theorem perm_swapIfInBounds {β : Type} (xs : Array β) (i j : Nat) : (xs.swapIfInBounds i j).Perm xs := by
  rw [Array.swapIfInBounds_def]
  split
  · split
    · exact Array.swap_perm _ _
    · exact Array.Perm.refl _
  · exact Array.Perm.refl _

theorem perm_shuffleFrom {β : Type} (i : Nat) (xs : Array β) (s : Stream) :
    (shuffleFrom i xs s).1.Perm xs := by
  induction i generalizing xs s with
  | zero => exact Array.Perm.refl _
  | succ i ih =>
    rw [shuffleFrom]
    generalize s.below (i + 2) = drawn
    exact (ih _ _).trans (perm_swapIfInBounds _ _ _)

/-- Shuffling permutes. -/
theorem perm_shuffle {β : Type} (xs : Array β) (s : Stream) : (shuffle xs s).1.Perm xs := perm_shuffleFrom _ _ _

end Random.Stream

namespace CodeBook

variable {α : Type}

theorem mem_tokens_iff (b : CodeBook α) (token : String) : token ∈ b.tokens ↔ b.knows token = true :=
  (lookup_isSome_iff _ _).symm

/-! ## Sound code books -/

/-- What a family for a layer of the given size is: a sign for each unit, and every column once. -/
structure IsFamily (f : OrthogonalFamily) (size : Nat) : Prop where
  signs : f.signs.length = size
  order : f.order.Perm (List.range size)

theorem isFamily_drawFamily (size : Nat) (s : Random.Stream) : IsFamily (drawFamily size s).1 size := by
  refine ⟨by simp [drawFamily], ?_⟩
  have := (Random.Stream.perm_shuffle (Array.range size) (Random.Stream.bits size s).2).toList
  simpa [drawFamily] using this

@[simp] theorem used_drawFamily (size : Nat) (s : Random.Stream) : (drawFamily size s).1.used = 0 := rfl

@[simp] theorem length_familyBits (f : OrthogonalFamily) (c : Nat) :
    (OrthogonalFamily.bits f c).length = f.signs.length := by
  simp [OrthogonalFamily.bits]

/-- Every pattern has a unit for each unit of the layer. -/
structure Sound (b : CodeBook α) : Prop where
  sized : ∀ t p, b.pattern? t = some p → p.size = b.size
  family : ∀ f, b.family = some f → IsFamily f b.size

/-- A later state of a code book, in which every token has the pattern it had. -/
structure Extends (b later : CodeBook α) : Prop where
  size : later.size = b.size
  activator : later.activator = b.activator
  pattern : ∀ t p, b.pattern? t = some p → later.pattern? t = some p

theorem Extends.refl (b : CodeBook α) : b.Extends b := ⟨rfl, rfl, fun _ _ h => h⟩

theorem Extends.trans {a b c : CodeBook α} (h : a.Extends b) (h' : b.Extends c) : a.Extends c :=
  ⟨h'.size.trans h.size, h'.activator.trans h.activator, fun t p ht => h'.pattern t p (h.pattern t p ht)⟩

theorem Extends.knows {a b : CodeBook α} (h : a.Extends b) {t : String} (ht : a.knows t = true) : b.knows t = true := by
  obtain ⟨p, hp⟩ := Option.isSome_iff_exists.mp ht
  simp [CodeBook.knows, h.pattern t p hp]

theorem sound_new (size : Nat) (a : Activator α) (seed : UInt64) : (CodeBook.new size a seed).Sound :=
  ⟨fun t p h => by simp [CodeBook.new, pattern?] at h, fun f h => by simp [CodeBook.new] at h⟩

/-- The code book with its family of orthogonal patterns drawn. -/
def withFamily (b : CodeBook α) : CodeBook α :=
  match b.family with
  | some _ => b
  | none => { b with stream := (drawFamily b.size b.stream).2, family := some (drawFamily b.size b.stream).1 }

theorem exists_family_withFamily {b : CodeBook α} (h : b.Sound) :
    ∃ f s, IsFamily f b.size ∧ b.withFamily = { b with stream := s, family := some f } := by
  unfold withFamily
  cases hf : b.family with
  | some f => exact ⟨f, b.stream, h.family f hf, by simp [← hf]⟩
  | none => exact ⟨_, _, isFamily_drawFamily _ _, rfl⟩

/-! ## Binding -/

variable [Scalar α]

@[simp] theorem size_bind (b : CodeBook α) (token : String) (p : Pattern α) : (b.bind token p).size = b.size := rfl

@[simp] theorem activator_bind (b : CodeBook α) (token : String) (p : Pattern α) :
    (b.bind token p).activator = b.activator := rfl

@[simp] theorem family_bind (b : CodeBook α) (token : String) (p : Pattern α) :
    (b.bind token p).family = b.family := rfl

theorem pattern?_bind (b : CodeBook α) (token : String) (p : Pattern α) (other : String) :
    (b.bind token p).pattern? other = if other = token then some p else b.pattern? other :=
  lookup_bindKey _ _ _ _

@[simp] theorem pattern?_bind_self (b : CodeBook α) (token : String) (p : Pattern α) :
    (b.bind token p).pattern? token = some p := by rw [pattern?_bind, if_pos rfl]

theorem Sound.bind {b : CodeBook α} (h : b.Sound) (token : String) {p : Pattern α} (hp : p.size = b.size) :
    (b.bind token p).Sound := by
  refine ⟨fun t q hq => ?_, h.family⟩
  rw [pattern?_bind] at hq
  split at hq
  · cases hq; exact hp
  · exact h.sized t q hq

theorem extends_bind_new (b : CodeBook α) {token : String} (h : b.pattern? token = none) (p : Pattern α) :
    b.Extends (b.bind token p) := by
  refine ⟨rfl, rfl, fun t q hq => ?_⟩
  rw [pattern?_bind, if_neg]
  · exact hq
  · rintro rfl
    rw [h] at hq
    cases hq

/-! ## Drawing patterns -/

theorem length_drawBits (history : List (Bits × String)) (size : Nat) :
    ∀ (draws : Nat) (s : Random.Stream), draws ≠ 0 → (drawBits history size draws s).1.length = size := by
  intro draws
  induction draws with
  | zero => intro s h; exact absurd rfl h
  | succ draws ih =>
    intro s _
    simp only [drawBits]
    split
    · next h => exact ih _ h.1
    · exact Random.Stream.length_bits size s

theorem size_drawRandom (b : CodeBook α) : b.drawRandom.1.size = b.size := by
  simp only [drawRandom, Activator.size_pattern]
  exact length_drawBits b.history b.size maxDraws b.stream (by decide)

/-- A random draw changes the stream only. -/
theorem drawRandom_snd (b : CodeBook α) : ∃ s, b.drawRandom.2 = { b with stream := s } := ⟨_, rfl⟩

/-- What an orthogonal draw does, once the family is there. -/
theorem drawOrthogonal_eq {b : CodeBook α} {s : Random.Stream} {f : OrthogonalFamily} (layer : String)
    (hsize : Sylvester.isPowerOfTwo b.size = true) (hb : b.withFamily = { b with stream := s, family := some f }) :
    b.drawOrthogonal layer =
      match f.order[f.used]? with
      | none => (.error (.exhausted layer (f.used + 1) b.size), b.withFamily)
      | some c => (.ok (b.activator.pattern (OrthogonalFamily.bits f c)),
          { b with stream := s, family := some { f with used := f.used + 1 } }) := by
  unfold drawOrthogonal
  simp only [hsize, Bool.not_true, Bool.false_eq_true, if_false]
  unfold withFamily at hb ⊢
  cases hf : b.family with
  | some g =>
    rw [hf] at hb
    have : some g = some f := by rw [← hf]; exact congrArg CodeBook.family hb
    cases this
    have hs : b.stream = s := congrArg CodeBook.stream hb
    dsimp only at hb ⊢
    rw [hs]
    cases f.order[f.used]? with
    | none => exact congrArg (Prod.mk _) hb.symm
    | some c => rfl
  | none =>
    rw [hf] at hb
    have hf' : (drawFamily b.size b.stream).1 = f := Option.some.inj (congrArg CodeBook.family hb)
    have hs : (drawFamily b.size b.stream).2 = s := congrArg CodeBook.stream hb
    subst hf' hs
    cases (drawFamily b.size b.stream).1.order[(drawFamily b.size b.stream).1.used]? with
    | none => rfl
    | some c => rfl

/-- What a draw leaves of a code book: the same bindings. -/
structure Draws (b later : CodeBook α) : Prop where
  size : later.size = b.size
  activator : later.activator = b.activator
  bindings : later.bindings = b.bindings
  sound : later.Sound

omit [Scalar α] in
theorem Draws.pattern? {b later : CodeBook α} (h : b.Draws later) (t : String) : later.pattern? t = b.pattern? t := by
  rw [CodeBook.pattern?, h.bindings]; rfl

omit [Scalar α] in
theorem Draws.extends {b later : CodeBook α} (h : b.Draws later) : b.Extends later :=
  ⟨h.size, h.activator, fun t p hp => by rw [h.pattern?]; exact hp⟩

/-- A pattern from either family. -/
def draw (b : CodeBook α) (orthogonal : Bool) (layer : String) : Except (Fault α) (Pattern α) × CodeBook α :=
  if orthogonal then b.drawOrthogonal layer else b.drawRandom.map Except.ok id

theorem draw_spec {b : CodeBook α} (h : b.Sound) (orthogonal : Bool) (layer : String) :
    b.Draws (b.draw orthogonal layer).2 ∧ ∀ p, (b.draw orthogonal layer).1 = .ok p → p.size = b.size := by
  unfold draw
  cases orthogonal with
  | false =>
    obtain ⟨s, hs⟩ := drawRandom_snd b
    simp only [Bool.false_eq_true, if_false, Prod.map, id, hs]
    refine ⟨⟨rfl, rfl, rfl, h.sized, h.family⟩, fun p hp => ?_⟩
    cases hp
    exact size_drawRandom b
  | true =>
    simp only [if_true]
    by_cases hsize : Sylvester.isPowerOfTwo b.size = true
    · obtain ⟨f, s, hf, hb⟩ := exists_family_withFamily h
      rw [drawOrthogonal_eq layer hsize hb]
      cases f.order[f.used]? with
      | none =>
        refine ⟨?_, fun p hp => by cases hp⟩
        rw [hb]
        exact ⟨rfl, rfl, rfl, h.sized, fun g hg => by cases hg; exact hf⟩
      | some c =>
        refine ⟨⟨rfl, rfl, rfl, h.sized, fun g hg => by cases hg; exact ⟨hf.signs, hf.order⟩⟩, fun p hp => ?_⟩
        cases hp
        simp [hf.signs]
    · have : b.drawOrthogonal layer = (.error (.config (.patternSize layer b.size)), b) := by
        simp [drawOrthogonal, hsize]
      rw [this]
      exact ⟨⟨rfl, rfl, rfl, h⟩, fun p hp => by cases hp⟩

/-! ## Encoding -/

theorem encode_of_known {b : CodeBook α} {token : String} {p : Pattern α} (h : b.pattern? token = some p) :
    b.encode token = (p, b) := by
  simp [encode, h]

theorem encode_of_new {b : CodeBook α} {token : String} (h : b.pattern? token = none) :
    b.encode token = (b.drawRandom.1, b.drawRandom.2.bind token b.drawRandom.1) := by
  simp [encode, h]

theorem extends_encode (b : CodeBook α) (token : String) : b.Extends (b.encode token).2 := by
  cases h : b.pattern? token with
  | some p =>
    rw [encode_of_known h]
    exact .refl b
  | none =>
    obtain ⟨s, hs⟩ := drawRandom_snd b
    rw [encode_of_new h, hs]
    have hext := extends_bind_new (b := { b with stream := s }) h b.drawRandom.1
    exact ⟨hext.size, hext.activator, hext.pattern⟩

theorem pattern?_encode_self (b : CodeBook α) (token : String) :
    (b.encode token).2.pattern? token = some (b.encode token).1 := by
  cases h : b.pattern? token with
  | some p =>
    rw [encode_of_known h]
    exact h
  | none =>
    rw [encode_of_new h]
    exact pattern?_bind_self _ _ _

theorem Sound.encode {b : CodeBook α} (h : b.Sound) (token : String) :
    (b.encode token).2.Sound ∧ (b.encode token).1.size = b.size := by
  cases hp : b.pattern? token with
  | some p =>
    rw [encode_of_known hp]
    exact ⟨h, h.sized token p hp⟩
  | none =>
    obtain ⟨s, hs⟩ := drawRandom_snd b
    have hsize := size_drawRandom b
    rw [encode_of_new hp, hs]
    have hsound : Sound { b with stream := s } := ⟨h.sized, h.family⟩
    exact ⟨hsound.bind token hsize, hsize⟩

theorem encodeFrom_of_known {b : CodeBook α} {token : String} {p : Pattern α} (h : b.pattern? token = some p)
    (orthogonal : Bool) (layer : String) : b.encodeFrom orthogonal layer token = (.ok p, b) := by
  simp [encodeFrom, h]

theorem encodeFrom_of_new {b : CodeBook α} {token : String} (h : b.pattern? token = none) (orthogonal : Bool)
    (layer : String) : b.encodeFrom orthogonal layer token =
      match b.draw orthogonal layer with
      | (.ok p, b) => (.ok p, b.bind token p)
      | (.error e, b) => (.error e, b) := by
  unfold encodeFrom
  rw [h]
  rfl

theorem encodeFrom_spec {b : CodeBook α} (h : b.Sound) (orthogonal : Bool) (layer token : String) :
    (b.encodeFrom orthogonal layer token).2.Sound ∧ b.Extends (b.encodeFrom orthogonal layer token).2 ∧
      ∀ p, (b.encodeFrom orthogonal layer token).1 = .ok p →
        (b.encodeFrom orthogonal layer token).2.pattern? token = some p ∧
        ∀ t, (b.encodeFrom orthogonal layer token).2.knows t = true ↔ b.knows t = true ∨ t = token := by
  cases hp : b.pattern? token with
  | some p =>
    rw [encodeFrom_of_known hp]
    refine ⟨h, .refl b, fun q hq => ?_⟩
    cases hq
    refine ⟨hp, fun t => ⟨Or.inl, ?_⟩⟩
    rintro (ht | rfl)
    · exact ht
    · simp [knows, hp]
  | none =>
    rw [encodeFrom_of_new hp]
    obtain ⟨hd, hs⟩ := draw_spec h orthogonal layer
    rcases hdraw : b.draw orthogonal layer with ⟨_ | p, later⟩
    · rw [hdraw] at hd
      exact ⟨hd.sound, hd.extends, fun q hq => by cases hq⟩
    · rw [hdraw] at hd hs
      have hnew : later.pattern? token = none := by rw [hd.pattern?]; exact hp
      refine ⟨hd.sound.bind token (by rw [hs p rfl, hd.size]), hd.extends.trans (extends_bind_new later hnew p), ?_⟩
      intro q hq
      cases hq
      refine ⟨pattern?_bind_self _ _ _, fun t => ?_⟩
      simp only [knows, pattern?_bind, hd.pattern?]
      by_cases ht : t = token
      · simp [ht]
      · simp [ht]

omit [Scalar α] in
theorem column_of_size {size : Nat} {p : Pattern α} (h : p.size = size) : column size p = .ok p := by
  simp [column, h]

/-- Encoding several tokens forgets nothing; when it succeeds, the patterns are those that the
tokens have afterwards, and no other token has become known. -/
theorem encodeAll_spec (orthogonal : Bool) (layer : String) (tokens : List String) {b : CodeBook α} (h : b.Sound) :
    (b.encodeAll orthogonal layer tokens).2.Sound ∧ b.Extends (b.encodeAll orthogonal layer tokens).2 ∧
      ∀ ps, (b.encodeAll orthogonal layer tokens).1 = .ok ps →
        List.Forall₂ (fun t p => (b.encodeAll orthogonal layer tokens).2.pattern? t = some p) tokens ps ∧
        ∀ t, (b.encodeAll orthogonal layer tokens).2.knows t = true ↔ b.knows t = true ∨ t ∈ tokens := by
  induction tokens generalizing b with
  | nil =>
    refine ⟨h, .refl b, fun ps hps => ?_⟩
    cases hps
    exact ⟨.nil, fun t => by simp [encodeAll]⟩
  | cons token rest ih =>
    obtain ⟨h₁, h₂, h₃⟩ := encodeFrom_spec h orthogonal layer token
    rcases hfrom : b.encodeFrom orthogonal layer token with ⟨_ | p, b₁⟩
    · rw [hfrom] at h₁ h₂
      simp only [encodeAll, hfrom]
      exact ⟨h₁, h₂, fun ps hps => by cases hps⟩
    · rw [hfrom] at h₁ h₂ h₃
      obtain ⟨hp, hknows⟩ := h₃ p rfl
      have hcol : column b₁.size p = .ok p := column_of_size (h₁.sized _ _ hp)
      obtain ⟨i₁, i₂, i₃⟩ := ih h₁
      rcases hall : b₁.encodeAll orthogonal layer rest with ⟨_ | ps, b₂⟩
      · rw [hall] at i₁ i₂
        simp only [encodeAll, hfrom, hcol, hall]
        exact ⟨i₁, h₂.trans i₂, fun ps hps => by cases hps⟩
      · rw [hall] at i₁ i₂ i₃
        simp only [encodeAll, hfrom, hcol, hall]
        refine ⟨i₁, h₂.trans i₂, fun qs hqs => ?_⟩
        cases hqs
        obtain ⟨hrest, hmem⟩ := i₃ ps rfl
        refine ⟨.cons (i₂.pattern _ _ hp) hrest, fun t => ?_⟩
        rw [hmem, hknows, List.mem_cons]
        tauto

/-! ## Encoding that may fail -/

/-- A draw changes the stream and the family only, also one that fails. -/
theorem draw_snd (b : CodeBook α) (orthogonal : Bool) (layer : String) :
    ∃ s f, (b.draw orthogonal layer).2 = { b with stream := s, family := f } := by
  unfold draw
  cases orthogonal with
  | false => exact ⟨_, b.family, rfl⟩
  | true =>
    rw [if_pos rfl]
    unfold drawOrthogonal
    split
    · exact ⟨b.stream, b.family, rfl⟩
    · dsimp only
      split
      · exact ⟨_, _, rfl⟩
      · exact ⟨_, _, rfl⟩

/-- A draw leaves the bindings, also one that fails. -/
theorem extends_draw (b : CodeBook α) (orthogonal : Bool) (layer : String) :
    b.Extends (b.draw orthogonal layer).2 ∧ (b.draw orthogonal layer).2.bindings = b.bindings := by
  obtain ⟨s, f, hdraw⟩ := b.draw_snd orthogonal layer
  rw [hdraw]
  exact ⟨⟨rfl, rfl, fun _ _ h => h⟩, rfl⟩

/-- Encoding a token forgets nothing, also when no pattern is found. -/
theorem extends_encodeFrom (b : CodeBook α) (orthogonal : Bool) (layer token : String) :
    b.Extends (b.encodeFrom orthogonal layer token).2 := by
  cases hp : b.pattern? token with
  | some p =>
    rw [encodeFrom_of_known hp]
    exact .refl b
  | none =>
    rw [encodeFrom_of_new hp]
    obtain ⟨hext, hbindings⟩ := extends_draw b orthogonal layer
    rcases hdraw : b.draw orthogonal layer with ⟨e | p, later⟩
    · rw [hdraw] at hext
      exact hext
    · rw [hdraw] at hext hbindings
      have hnew : later.pattern? token = none := by
        rw [pattern?, hbindings]
        exact hp
      exact hext.trans (extends_bind_new later hnew p)

theorem extends_encodeAll (orthogonal : Bool) (layer : String) (tokens : List String) (b : CodeBook α) :
    b.Extends (b.encodeAll orthogonal layer tokens).2 := by
  induction tokens generalizing b with
  | nil => exact .refl b
  | cons token rest ih =>
    have hfrom := extends_encodeFrom b orthogonal layer token
    unfold encodeAll
    rcases hb : b.encodeFrom orthogonal layer token with ⟨e | p, b₁⟩
    · rw [hb] at hfrom
      exact hfrom
    · rw [hb] at hfrom
      dsimp only
      cases hcol : column b₁.size p with
      | error e => exact hfrom
      | ok p =>
        have hrest := hfrom.trans (ih b₁)
        dsimp only
        rcases hall : b₁.encodeAll orthogonal layer rest with ⟨e | ps, b₂⟩
        · rw [hall] at hrest
          exact hrest
        · rw [hall] at hrest
          exact hrest

/-- Encoding a token makes no other one known, also when no pattern is found. -/
theorem of_knows_encodeFrom {b : CodeBook α} {orthogonal : Bool} {layer token t : String}
    (h : (b.encodeFrom orthogonal layer token).2.knows t = true) : b.knows t = true ∨ t = token := by
  cases hp : b.pattern? token with
  | some p =>
    rw [encodeFrom_of_known hp] at h
    exact .inl h
  | none =>
    rw [encodeFrom_of_new hp] at h
    obtain ⟨-, hbindings⟩ := extends_draw b orthogonal layer
    rcases hdraw : b.draw orthogonal layer with ⟨e | p, later⟩
    · rw [hdraw] at h hbindings
      rw [knows, pattern?, hbindings] at h
      exact .inl h
    · rw [hdraw] at h hbindings
      dsimp only at h hbindings
      rw [knows, pattern?_bind] at h
      by_cases ht : t = token
      · exact .inr ht
      · rw [if_neg ht, pattern?, hbindings] at h
        exact .inl h

theorem of_knows_encodeAll {orthogonal : Bool} {layer t : String} {tokens : List String} {b : CodeBook α}
    (h : (b.encodeAll orthogonal layer tokens).2.knows t = true) : b.knows t = true ∨ t ∈ tokens := by
  induction tokens generalizing b with
  | nil => exact .inl h
  | cons token rest ih =>
    have hfrom : (b.encodeFrom orthogonal layer token).2.knows t = true → b.knows t = true ∨ t ∈ token :: rest :=
      fun hk => (of_knows_encodeFrom hk).imp_right fun heq : t = token => List.mem_cons.mpr (.inl heq)
    unfold encodeAll at h
    rcases hb : b.encodeFrom orthogonal layer token with ⟨e | p, b₁⟩
    · rw [hb] at h hfrom
      exact hfrom h
    · rw [hb] at h hfrom
      dsimp only at h hfrom
      cases hcolumn : column b₁.size p with
      | error e =>
        rw [hcolumn] at h
        exact hfrom h
      | ok p =>
        rw [hcolumn] at h
        dsimp only at h
        rcases hall : b₁.encodeAll orthogonal layer rest with ⟨e | ps, b₂⟩ <;> rw [hall] at h <;>
          exact (ih (b := b₁) (by rw [hall]; exact h)).elim hfrom fun ht => .inr (List.mem_cons_of_mem _ ht)

end CodeBook

end Engram
