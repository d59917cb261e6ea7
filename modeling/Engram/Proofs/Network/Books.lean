/-
  Engram.Proofs.Network.Books — the code books of a network over time.

  An operation on a network changes the code book of one layer. `Keeps` says what stays: the
  layers with their sizes and activators, and the pattern of every token that is to be kept.
  Encoding keeps every token (`encodeAll_spec`); only binding a token explicitly can change one,
  and then that one alone (`keeps_bindToken`).
-/

import Engram.Network.Basic
import Engram.Proofs.Layer.Bindings

namespace Engram

theorem LayerId.position_injective : Function.Injective LayerId.position := by
  intro a b h
  cases a
  cases b
  exact congrArg LayerId.mk (UInt16.toNat_inj.mp h)

namespace Network

variable {α : Type}

/-- The control layers are there, and the registers are numbered after them. -/
structure Numbered (n : Network α) : Prop where
  control : controlNames.length ≤ n.layers.size
  registers : ∀ r ∈ n.registers, controlNames.length ≤ r.position ∧ r.position < n.layers.size

variable [Scalar α]

/-- Every code book is sound. -/
def Sound (n : Network α) : Prop := ∀ l, (n.layer l).book.Sound

/-- A later state of a network, in which every token to be kept has the pattern it had. -/
structure Keeps (keep : LayerId → String → Prop) (n later : Network α) : Prop where
  registers : later.registers = n.registers
  gates : later.gates = n.gates
  rule : later.rule = n.rule
  count : later.layers.size = n.layers.size
  name : ∀ l, (later.layer l).name = (n.layer l).name
  size : ∀ l, later.size l = n.size l
  activator : ∀ l, later.activator l = n.activator l
  pattern : ∀ l t p, keep l t → (n.layer l).pattern? t = some p → (later.layer l).pattern? t = some p

/-- A later state in which no token has another pattern. -/
abbrev Grows (n later : Network α) : Prop := Keeps (fun _ _ => True) n later

namespace Keeps

variable {keep keep' : LayerId → String → Prop} {a b c : Network α}

theorem refl (n : Network α) : Keeps keep n n := ⟨rfl, rfl, rfl, rfl, fun _ => rfl, fun _ => rfl, fun _ => rfl, fun _ _ _ _ h => h⟩

theorem trans (h : Keeps keep a b) (h' : Keeps keep b c) : Keeps keep a c where
  registers := h'.registers.trans h.registers
  gates := h'.gates.trans h.gates
  rule := h'.rule.trans h.rule
  count := h'.count.trans h.count
  name l := (h'.name l).trans (h.name l)
  size l := (h'.size l).trans (h.size l)
  activator l := (h'.activator l).trans (h.activator l)
  pattern l t p hk ht := h'.pattern l t p hk (h.pattern l t p hk ht)

theorem mono (h : Keeps keep a b) (hk : ∀ l t, keep' l t → keep l t) : Keeps keep' a b :=
  ⟨h.registers, h.gates, h.rule, h.count, h.name, h.size, h.activator, fun l t p ht => h.pattern l t p (hk l t ht)⟩

theorem numbered (h : Keeps keep a b) (ha : a.Numbered) : b.Numbered := by
  refine ⟨by rw [h.count]; exact ha.control, fun r hr => ?_⟩
  rw [h.count]
  exact ha.registers r (h.registers ▸ hr)

theorem knows (h : Keeps keep a b) {l : LayerId} {t : String} (hk : keep l t) (ht : (a.layer l).knows t = true) :
    (b.layer l).knows t = true := by
  obtain ⟨p, hp⟩ := Option.isSome_iff_exists.mp ht
  exact Option.isSome_iff_exists.mpr ⟨p, h.pattern l t p hk hp⟩

theorem registerNames (h : Keeps keep a b) : b.registerNames = a.registerNames := by
  rw [Network.registerNames, h.registers, Network.registerNames]
  exact List.map_congr_left fun r _ => h.name r

/-- Layers keep their names, as far as they have numbers. -/
theorem names (h : Keeps keep a b) (hroom : a.layers.size ≤ 65536) : b.layers.map (·.name) = a.layers.map (·.name) := by
  have hsize := h.count
  refine Array.ext (by simpa using hsize) fun i h₁ h₂ => ?_
  rw [Array.size_map] at h₁ h₂
  have hposition : LayerId.position ⟨UInt16.ofNat i⟩ = i :=
    (UInt16.toNat_ofNat' ..).trans (Nat.mod_eq_of_lt (by omega))
  have hname := h.name ⟨UInt16.ofNat i⟩
  unfold Network.layer at hname
  rw [hposition, Array.getD_eq_getD_getElem?, Array.getD_eq_getD_getElem?, Array.getElem?_eq_getElem h₁,
    Array.getElem?_eq_getElem h₂, Option.getD_some, Option.getD_some] at hname
  rw [Array.getElem_map, Array.getElem_map, hname]

end Keeps

theorem layer_modifyLayer (n : Network α) (l : LayerId) (layer : Layer α) (other : LayerId) :
    (n.modifyLayer l layer).layer other =
      if other = l ∧ l.position < n.layers.size then layer else n.layer other := by
  unfold modifyLayer Network.layer
  rw [Array.getD_eq_getD_getElem?, Array.getD_eq_getD_getElem?, Array.getElem?_setIfInBounds]
  by_cases h : other = l
  · subst h
    by_cases hl : other.position < n.layers.size
    · simp [hl]
    · simp [hl]
  · have hne : ¬ l.position = other.position := fun hp => h (LayerId.position_injective hp).symm
    rw [if_neg hne, if_neg (fun hh => h hh.1)]

theorem layer_modifyLayer_of_ne (n : Network α) {l other : LayerId} (h : other ≠ l) (layer : Layer α) :
    (n.modifyLayer l layer).layer other = n.layer other := by
  rw [layer_modifyLayer, if_neg fun hl => h hl.1]

/-- A layer in its own place. -/
theorem modifyLayer_self (n : Network α) (l : LayerId) : n.modifyLayer l (n.layer l) = n := by
  have hlayers : n.layers.setIfInBounds l.position (n.layer l) = n.layers := by
    refine Array.ext (by simp) fun i h₁ h₂ => ?_
    rw [Array.getElem_setIfInBounds h₂]
    split
    next heq =>
      subst heq
      unfold layer
      rw [Array.getD_eq_getD_getElem?, Array.getElem?_eq_getElem h₂, Option.getD_some]
    next => rfl
  unfold modifyLayer
  rw [hlayers]

theorem keeps_modifyLayer {keep : LayerId → String → Prop} {n : Network α} {l : LayerId} {layer : Layer α}
    (hname : layer.name = (n.layer l).name) (hsize : layer.size = n.size l)
    (hact : layer.activator = n.activator l)
    (hpattern : ∀ t p, keep l t → (n.layer l).pattern? t = some p → layer.pattern? t = some p) :
    Keeps keep n (n.modifyLayer l layer) := by
  refine ⟨rfl, rfl, rfl, by simp [modifyLayer], fun other => ?_, fun other => ?_, fun other => ?_, fun other t p hk hp => ?_⟩
  · rw [layer_modifyLayer]
    split
    · next h => rw [hname, h.1]
    · rfl
  · rw [Network.size, layer_modifyLayer]
    split
    · next h => rw [hsize, h.1]
    · rfl
  · rw [Network.activator, layer_modifyLayer]
    split
    · next h => rw [hact, h.1]
    · rfl
  · rw [layer_modifyLayer]
    split
    · next h =>
      obtain ⟨rfl, -⟩ := h
      exact hpattern t p hk hp
    · exact hp

/-- A layer under the name of the one it takes the place of. -/
theorem names_modifyLayer (n : Network α) {l : LayerId} {layer : Layer α} (h : layer.name = n.name l) :
    (n.modifyLayer l layer).layers.map (·.name) = n.layers.map (·.name) := by
  refine Array.ext (by simp [modifyLayer]) fun i h₁ h₂ => ?_
  have hi : i < n.layers.size := by simpa using h₂
  simp only [modifyLayer, Array.getElem_map]
  rw [Array.getElem_setIfInBounds hi]
  split
  · next heq =>
    subst heq
    rw [h, Network.name, Network.layer, Array.getD_eq_getD_getElem?, Array.getElem?_eq_getElem hi, Option.getD_some]
  · rfl

theorem Sound.modifyLayer {n : Network α} (hn : n.Sound) (l : LayerId) {layer : Layer α} (h : layer.book.Sound) :
    (n.modifyLayer l layer).Sound := by
  intro other
  rw [layer_modifyLayer]
  split
  · exact h
  · exact hn other

/-! ## Binding a token -/

theorem keeps_bindToken (n : Network α) (l : LayerId) (token : String) (p : Pattern α) :
    Keeps (fun other t => ¬ (other = l ∧ t = token)) n (n.bindToken l token p) := by
  refine keeps_modifyLayer rfl rfl rfl fun t q hk hq => ?_
  have hne : t ≠ token := fun h => hk ⟨rfl, h⟩
  exact (CodeBook.pattern?_bind _ _ _ _).trans ((if_neg hne).trans hq)

theorem Sound.bindToken {n : Network α} (hn : n.Sound) (l : LayerId) (token : String) {p : Pattern α}
    (hp : p.size = n.size l) : (n.bindToken l token p).Sound :=
  hn.modifyLayer l ((hn l).bind token hp)

theorem pattern?_bindToken_self (n : Network α) {l : LayerId} (hl : l.position < n.layers.size) (token : String)
    (p : Pattern α) : ((n.bindToken l token p).layer l).pattern? token = some p := by
  rw [bindToken, layer_modifyLayer, if_pos ⟨rfl, hl⟩]
  exact CodeBook.pattern?_bind_self _ _ _

/-! ## Encoding tokens -/

theorem grows_encode (n : Network α) (l : LayerId) (token : String) : n.Grows (n.encode l token).2 := by
  have h := CodeBook.extends_encode (n.layer l).book token
  exact keeps_modifyLayer rfl h.size h.activator fun t p _ hp => h.pattern t p hp

theorem names_encode (n : Network α) (l : LayerId) (token : String) :
    (n.encode l token).2.layers.map (·.name) = n.layers.map (·.name) := names_modifyLayer n rfl

theorem names_encodeAll (n : Network α) (l : LayerId) (orthogonal : Bool) (tokens : List String) :
    (n.encodeAll l orthogonal tokens).2.layers.map (·.name) = n.layers.map (·.name) := names_modifyLayer n rfl

/-- Encoding a token of one layer leaves the other layers. -/
theorem layer_encode_of_ne (n : Network α) {l other : LayerId} (h : other ≠ l) (token : String) :
    (n.encode l token).2.layer other = n.layer other := layer_modifyLayer_of_ne n h _

theorem layer_encodeAll_of_ne (n : Network α) {l other : LayerId} (h : other ≠ l) (orthogonal : Bool)
    (tokens : List String) : (n.encodeAll l orthogonal tokens).2.layer other = n.layer other := layer_modifyLayer_of_ne n h _

theorem grows_encodeAll (n : Network α) (l : LayerId) (orthogonal : Bool) (tokens : List String) :
    n.Grows (n.encodeAll l orthogonal tokens).2 := by
  have h := CodeBook.extends_encodeAll orthogonal (n.layer l).name tokens (n.layer l).book
  exact keeps_modifyLayer rfl h.size h.activator fun t p _ hp => h.pattern t p hp

/-- Encoding several tokens of a layer makes no others known, also when it fails. -/
theorem of_knows_encodeAll (n : Network α) (l : LayerId) (orthogonal : Bool) (tokens : List String) {other : LayerId}
    {t : String} (h : ((n.encodeAll l orthogonal tokens).2.layer other).knows t = true) :
    (n.layer other).knows t = true ∨ (other = l ∧ t ∈ tokens) := by
  unfold encodeAll at h
  rw [layer_modifyLayer] at h
  split at h
  · next hl =>
    obtain ⟨rfl, -⟩ := hl
    exact (CodeBook.of_knows_encodeAll h).imp_right fun ht => ⟨rfl, ht⟩
  · exact .inl h

theorem height_encodeAll {n later : Network α} {l : LayerId} {orthogonal : Bool} {tokens : List String}
    {columns : Columns α} (h : n.encodeAll l orthogonal tokens = (.ok columns, later)) : columns.height = n.size l := by
  unfold encodeAll at h
  rcases hall : (n.layer l).encodeAll orthogonal tokens with ⟨e | ps, layer⟩
  · rw [hall] at h
    cases h
  · rw [hall] at h
    cases h
    rfl

theorem names_bindToken (n : Network α) (l : LayerId) (token : String) (p : Pattern α) :
    (n.bindToken l token p).layers.map (·.name) = n.layers.map (·.name) := names_modifyLayer n rfl

/-- Binding a token makes no other one known. -/
theorem of_knows_bindToken (n : Network α) (l : LayerId) (token : String) (p : Pattern α) {other : LayerId} {t : String}
    (h : ((n.bindToken l token p).layer other).knows t = true) (ht : t ≠ token) : (n.layer other).knows t = true := by
  unfold bindToken at h
  rw [layer_modifyLayer] at h
  split at h
  · next hl =>
    obtain ⟨rfl, -⟩ := hl
    rw [Layer.knows, CodeBook.knows, Layer.bind, CodeBook.pattern?_bind, if_neg ht] at h
    exact h
  · exact h

theorem pattern?_encode_self (n : Network α) {l : LayerId} (hl : l.position < n.layers.size) (token : String) :
    ((n.encode l token).2.layer l).pattern? token = some (n.encode l token).1 := by
  unfold encode
  rw [layer_modifyLayer, if_pos ⟨rfl, hl⟩]
  exact CodeBook.pattern?_encode_self (n.layer l).book token

theorem Sound.encode {n : Network α} (hn : n.Sound) (l : LayerId) (token : String) : (n.encode l token).2.Sound :=
  hn.modifyLayer l ((hn l).encode token).1

theorem Sound.encodeAll {n : Network α} (hn : n.Sound) (l : LayerId) (orthogonal : Bool) (tokens : List String) :
    (n.encodeAll l orthogonal tokens).2.Sound :=
  hn.modifyLayer l (CodeBook.encodeAll_spec orthogonal (n.layer l).name tokens (hn l)).1

theorem size_encode {n : Network α} (hn : n.Sound) (l : LayerId) (token : String) :
    (n.encode l token).1.size = n.size l := ((hn l).encode token).2

/-- What encoding the tokens of a layer leaves, and the columns it gives. -/
structure Encoded (n : Network α) (l : LayerId) (tokens : List String) (columns : Columns α) (later : Network α) :
    Prop where
  sound : later.Sound
  grows : n.Grows later
  height : columns.height = n.size l
  patterns : List.Forall₂ (fun t p => (later.layer l).pattern? t = some p) tokens columns.patterns
  knows : ∀ other t, (later.layer other).knows t = true ↔ (n.layer other).knows t = true ∨ (other = l ∧ t ∈ tokens)

theorem encodeAll_spec {n : Network α} (hn : n.Sound) {l : LayerId} (hl : l.position < n.layers.size)
    (orthogonal : Bool) (tokens : List String) {columns : Columns α} {later : Network α}
    (h : n.encodeAll l orthogonal tokens = (.ok columns, later)) : n.Encoded l tokens columns later := by
  obtain ⟨h₁, h₂, h₃⟩ := CodeBook.encodeAll_spec orthogonal (n.layer l).name tokens (hn l)
  unfold encodeAll Layer.encodeAll at h
  rcases hall : (n.layer l).book.encodeAll orthogonal (n.layer l).name tokens with ⟨_ | ps, book⟩
  · rw [hall] at h
    cases h
  · rw [hall] at h h₁ h₂ h₃
    obtain ⟨hps, hknows⟩ := h₃ ps rfl
    cases h
    have hlayer : ∀ layer : Layer α, (n.modifyLayer l layer).layer l = layer := by
      intro layer
      rw [layer_modifyLayer, if_pos ⟨rfl, hl⟩]
    refine ⟨hn.modifyLayer l h₁, keeps_modifyLayer rfl h₂.size h₂.activator fun t p _ hp => h₂.pattern t p hp, rfl, ?_, ?_⟩
    · simp only [hlayer]
      exact hps
    · intro other t
      by_cases ho : other = l
      · subst ho
        simp only [hlayer, true_and]
        exact hknows t
      · rw [layer_modifyLayer, if_neg (fun hh => ho hh.1)]
        simp [ho]

namespace Encoded

variable {n later : Network α} {l : LayerId} {tokens : List String} {columns : Columns α}

theorem length (h : n.Encoded l tokens columns later) : columns.patterns.length = tokens.length :=
  h.patterns.length_eq.symm

theorem pattern (h : n.Encoded l tokens columns later) {i : Nat} (hi : i < tokens.length)
    (hi' : i < columns.patterns.length) : (later.layer l).pattern? tokens[i] = some columns.patterns[i] :=
  (List.forall₂_iff_get.mp h.patterns).2 i hi hi'

theorem size_of_mem (h : n.Encoded l tokens columns later) : ∀ p ∈ columns.patterns, p.size = columns.height := by
  intro p hp
  obtain ⟨i, hi, rfl⟩ := List.getElem_of_mem hp
  have hi' : i < tokens.length := by rw [← h.length]; exact hi
  rw [h.height, ← h.grows.size l]
  exact (h.sound l).sized _ _ (h.pattern hi' hi)

end Encoded

end Network

end Engram
