/-
  Engram.Proofs.Network.Rebinding — networks whose tokens have their patterns already.

  What Engram.Proofs.Layer.Rebinding says of one code book, for the layer of a network that has it: known
  tokens are encoded without a change (`encodeAll_of_gives`), and tokens that a layer bound last are bound
  again so that the network acts as before (`alike_bindEach`).
-/

import Engram.Proofs.Layer.Rebinding
import Engram.Proofs.Network.Books

namespace Engram

variable {α : Type}

/-! ## Networks with known tokens -/

namespace Network

variable [Scalar α] {n later : Network α} {l : LayerId} {tokens : List String} {x y : Columns α}

/-- The tokens have patterns on a layer, which are these columns. -/
def Gives (n : Network α) (l : LayerId) (tokens : List String) (x : Columns α) : Prop :=
  x.height = n.size l ∧ (n.layer l).book.Gives tokens x.patterns

theorem Gives.unique (h : n.Gives l tokens x) (h' : n.Gives l tokens y) : x = y := by
  obtain ⟨height, patterns⟩ := x
  obtain ⟨height', patterns'⟩ := y
  obtain rfl : height = height' := h.1.trans h'.1.symm
  obtain rfl : patterns = patterns' := h.2.unique h'.2
  rfl

theorem Gives.of_keeps {keep : LayerId → String → Prop} (h : n.Gives l tokens x) (hkeeps : n.Keeps keep later)
    (htokens : ∀ t ∈ tokens, keep l t) : later.Gives l tokens x :=
  ⟨h.1.trans (hkeeps.size l).symm, h.2.of_pattern (hkeeps.size l) fun t ht p => hkeeps.pattern l t p (htokens t ht)⟩

theorem encodeAll_of_gives (h : n.Gives l tokens x) (orthogonal : Bool) : n.encodeAll l orthogonal tokens = (.ok x, n) := by
  have hbook := CodeBook.encodeAll_of_gives h.2 orthogonal (n.layer l).name
  unfold encodeAll Layer.encodeAll
  rw [hbook, ← h.1]
  exact congrArg (Prod.mk _) (n.modifyLayer_self l)

theorem gives_of_encodeAll {orthogonal : Bool} (hl : l.position < n.layers.size)
    (h : n.encodeAll l orthogonal tokens = (.ok x, later)) : later.Gives l tokens x := by
  have hheight := height_encodeAll h
  have hgrows := n.grows_encodeAll l orthogonal tokens
  rw [h] at hgrows
  refine ⟨hheight.trans (hgrows.size l).symm, ?_⟩
  unfold encodeAll Layer.encodeAll at h
  rcases hbook : (n.layer l).book.encodeAll orthogonal (n.layer l).name tokens with ⟨e | ps, book⟩
  · rw [hbook] at h
    cases h
  · rw [hbook] at h
    cases h
    rw [layer_modifyLayer, if_pos ⟨rfl, hl⟩]
    exact CodeBook.gives_of_encodeAll hbook

/-- Encoding known tokens leaves the network, also when it fails. -/
theorem encodeAll_of_known (h : ∀ t ∈ tokens, (n.layer l).knows t = true) (orthogonal : Bool) :
    (n.encodeAll l orthogonal tokens).2 = n := by
  show n.modifyLayer l { n.layer l with book := ((n.layer l).book.encodeAll orthogonal (n.layer l).name tokens).2 } = n
  rw [CodeBook.encodeAll_of_known orthogonal (n.layer l).name tokens h]
  exact n.modifyLayer_self l

/-! ## Binding tokens one after the other -/

/-- Binds tokens of a layer in their order. -/
def bindEach (n : Network α) (l : LayerId) (xs : List (String × Pattern α)) : Network α :=
  xs.foldl (fun n x => n.bindToken l x.1 x.2) n

theorem keeps_bindEach (n : Network α) (l : LayerId) (xs : List (String × Pattern α)) :
    n.Keeps (fun other t => ¬(other = l ∧ t ∈ xs.map (·.1))) (n.bindEach l xs) := by
  induction xs generalizing n with
  | nil => exact .refl n
  | cons x rest ih =>
    refine ((keeps_bindToken n l x.1 x.2).mono ?_).trans ((ih (n.bindToken l x.1 x.2)).mono ?_)
    · intro other t hk hx
      exact hk ⟨hx.1, by simp [hx.2]⟩
    · intro other t hk hx
      exact hk ⟨hx.1, List.mem_cons_of_mem _ hx.2⟩

theorem bindEach_eq (hl : l.position < n.layers.size) (xs : List (String × Pattern α)) :
    n.bindEach l xs = n.modifyLayer l { n.layer l with book := (n.layer l).book.bindEach xs } := by
  induction xs generalizing n with
  | nil => exact (n.modifyLayer_self l).symm
  | cons x rest ih =>
    have hcount : (n.bindToken l x.1 x.2).layers.size = n.layers.size := by simp [bindToken, modifyLayer]
    have hlayer : (n.bindToken l x.1 x.2).layer l = (n.layer l).bind x.1 x.2 := by
      rw [bindToken, layer_modifyLayer, if_pos ⟨rfl, hl⟩]
    refine (ih (hcount ▸ hl)).trans ?_
    rw [hlayer]
    simp [bindToken, modifyLayer, Layer.bind, CodeBook.bindEach]

/-! ## Networks that act alike -/

/-- The networks have the same layers and gates, and the code books of their layers act alike. -/
structure Alike (n later : Network α) : Prop where
  registers : later.registers = n.registers
  gates : later.gates = n.gates
  rule : later.rule = n.rule
  seed : later.seed = n.seed
  count : later.layers.size = n.layers.size
  name : ∀ i, (later.layers.getD i .absent).name = (n.layers.getD i .absent).name
  book : ∀ i, (n.layers.getD i .absent).book.Alike (later.layers.getD i .absent).book

namespace Alike

theorem pattern? (h : n.Alike later) (l : LayerId) (t : String) : (later.layer l).pattern? t = (n.layer l).pattern? t :=
  congrArg (List.lookup t) (h.book l.position).bindings

theorem grows (h : n.Alike later) : n.Grows later :=
  ⟨h.registers, h.gates, h.rule, h.count, fun l => h.name l.position, fun l => (h.book l.position).size,
    fun l => (h.book l.position).activator, fun l t _ _ ht => (h.pattern? l t).trans ht⟩

end Alike

/-- A layer whose last bindings were these binds them again. -/
theorem alike_bindEach (hl : l.position < n.layers.size) {b : CodeBook α} {xs : List (String × Pattern α)}
    (hbook : (n.layer l).book = b.bindEach xs) (hnodup : (xs.map (·.1)).Nodup) : n.Alike (n.bindEach l xs) := by
  have hagain := b.alike_bindEach hnodup
  rw [← hbook] at hagain
  rw [bindEach_eq hl]
  have hlayer (i : Nat) : (n.modifyLayer l { n.layer l with book := (n.layer l).book.bindEach xs }).layers.getD i .absent =
      if l.position = i then { n.layer l with book := (n.layer l).book.bindEach xs } else n.layers.getD i .absent := by
    rw [modifyLayer, Array.getD_eq_getD_getElem?, Array.getElem?_setIfInBounds]
    by_cases hi : l.position = i
    · simp [hi, hi ▸ hl]
    · simp [hi]
  refine ⟨rfl, rfl, rfl, rfl, by simp [modifyLayer], fun i => ?_, fun i => ?_⟩
  · rw [hlayer]
    split
    · next hi => rw [← hi]; rfl
    · rfl
  · rw [hlayer]
    split
    · next hi => rw [← hi]; exact hagain
    · exact .refl _

end Network

end Engram
