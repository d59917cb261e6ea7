/-
  Engram.Proofs.Layer.Columns — code books that hold columns of one family and nothing else.

  A code book without tokens that gives patterns to different tokens takes different columns of
  its family for them (`exists_columned`), and decodes an activity to one of them exactly if the
  activity has the bits of its column (`decodeBits_eq_iff`).
-/

import Engram.Proofs.Layer.Decoding
import Engram.Proofs.Layer.Registrations

namespace Engram.CodeBook

variable {α : Type} [Scalar α]

/-- A bound pattern stands for some token. -/
theorem Logged.isSome_lookup {b : CodeBook α} {draws : List Draw} (h : b.Logged draws) {t : String} {p : Pattern α}
    (hp : b.pattern? t = some p) : (b.history.lookup (b.activator.bits p)).isSome = true := by
  rw [Option.isSome_iff_ne_none]
  intro hnone
  obtain ⟨d, hd, -, hbits⟩ := h.patterns t p hp
  exact h.lookup_history hnone d hd hbits

/-- The tokens stand for different columns of a family, and no others stand for anything. -/
structure Columned (b : CodeBook α) (tokens : List String) (f : OrthogonalFamily) (columns : List Nat) : Prop where
  power : Sylvester.isPowerOfTwo b.size = true
  signs : f.signs.length = b.size
  nodup : columns.Nodup
  lt : ∀ j ∈ columns, j < b.size
  length : columns.length = tokens.length
  pattern : ∀ k (hk : k < tokens.length) (hk' : k < columns.length),
    b.pattern? tokens[k] = some (b.activator.pattern (OrthogonalFamily.bits f columns[k]))
  decodeBits : ∀ k (hk : k < tokens.length) (hk' : k < columns.length) (bits : Bits),
    b.decodeBits bits = tokens[k] ↔ bits = OrthogonalFamily.bits f columns[k]

/-- Where nothing else stands for anything, an activity decodes to a token exactly if it has the bits of its
column. -/
theorem decodeBits_eq_iff {b : CodeBook α} {tokens : List String} {f : OrthogonalFamily} {columns : List Nat} {draws : List Draw}
    (hnodup : tokens.Nodup) (hknown : unknownToken ∉ tokens) (hlogged : b.Logged draws)
    (hbits : ∀ j, b.activator.bits (b.activator.pattern (OrthogonalFamily.bits f j)) = OrthogonalFamily.bits f j)
    (hpattern : ∀ k (hk : k < tokens.length) (hk' : k < columns.length),
      b.pattern? tokens[k] = some (b.activator.pattern (OrthogonalFamily.bits f columns[k])))
    (hdifferent : ∀ k (hk : k < columns.length) k' (hk' : k' < columns.length),
      OrthogonalFamily.bits f columns[k] = OrthogonalFamily.bits f columns[k'] → k = k')
    (honly : ∀ bits t, b.history.lookup bits = some t → ∃ k, ∃ (hk : k < tokens.length) (hk' : k < columns.length),
      t = tokens[k] ∧ bits = OrthogonalFamily.bits f columns[k])
    {k : Nat} (hk : k < tokens.length) (hk' : k < columns.length) (bits : Bits) :
    b.decodeBits bits = tokens[k] ↔ bits = OrthogonalFamily.bits f columns[k] := by
  unfold CodeBook.decodeBits
  constructor
  · intro h
    cases hlookup : b.history.lookup bits with
    | none =>
      rw [hlookup, Option.getD_none] at h
      exact absurd (h ▸ List.getElem_mem hk) hknown
    | some t =>
      rw [hlookup, Option.getD_some] at h
      obtain ⟨k', hk₁, hk₂, ht, hcolumn⟩ := honly bits t hlookup
      obtain rfl : k = k' := hnodup.getElem_inj_iff.mp (h.symm.trans ht)
      exact hcolumn
  · rintro rfl
    have hsome := hlogged.isSome_lookup (hpattern k hk hk')
    rw [hbits] at hsome
    obtain ⟨t, ht⟩ := Option.isSome_iff_exists.mp hsome
    obtain ⟨k', hk₁, hk₂, rfl, hsame⟩ := honly _ t ht
    obtain rfl : k = k' := hdifferent k hk' k' hk₂ hsame
    rw [ht, Option.getD_some]

/-- A code book without tokens gives different ones different columns. -/
theorem exists_columned {size : Nat} {a : Activator α} (hlevels : ∀ bit, a.isOn (a.level bit) = bit) (seed : UInt64)
    (layer : String) {tokens : List String} (hsize : Sylvester.isPowerOfTwo size = true) (hnodup : tokens.Nodup)
    (hroom : tokens.length ≤ size) (hknown : unknownToken ∉ tokens) :
    ∃ (f : OrthogonalFamily) (columns : List Nat) (b : CodeBook α), b.size = size ∧ b.activator = a ∧
      (new size a seed).encodeAll true layer tokens =
        (.ok (columns.map fun j => a.pattern (OrthogonalFamily.bits f j)), b) ∧ b.Columned tokens f columns := by
  obtain ⟨f, columns, hf, hdifferent, hlength, hlt, hfst⟩ := encodeAll_fresh size a seed layer hsize hnodup hroom
  have hlogged := (logged_new size a seed).encodeAll hlevels true layer tokens
  obtain ⟨-, hext, hspec⟩ := encodeAll_spec true layer tokens (sound_new size a seed)
  obtain ⟨hpatterns, hknows⟩ := hspec _ hfst
  have hdecoded : ∀ {bits : Bits} {t : String}, ((new size a seed).encodeAll true layer tokens).2.history.lookup bits = some t →
      ((new size a seed).encodeAll true layer tokens).2.Represents t bits := fun h =>
    (lookup_encodeAll h).resolve_left fun h => by cases h
  rcases hall : (new size a seed).encodeAll true layer tokens with ⟨r, b⟩
  rw [hall] at hfst hlogged hext hpatterns hknows hdecoded
  dsimp only at hfst hlogged hext hpatterns hknows hdecoded
  subst hfst
  obtain rfl : b.activator = a := hext.activator
  obtain rfl : b.size = size := hext.size
  have hbits : ∀ j, b.activator.bits (b.activator.pattern (OrthogonalFamily.bits f j)) = OrthogonalFamily.bits f j :=
    fun j => Activator.bits_pattern_of_isOn_level hlevels _
  have hpattern : ∀ k (hk : k < tokens.length) (hk' : k < columns.length),
      b.pattern? tokens[k] = some (b.activator.pattern (OrthogonalFamily.bits f columns[k])) := by
    intro k hk hk'
    have h := (List.forall₂_iff_get.mp hpatterns).2 k hk (by simpa using hk')
    simpa using h
  refine ⟨f, columns, b, rfl, rfl, rfl, hsize, hf.signs, hdifferent, hlt, hlength, hpattern, fun k hk hk' bits =>
    decodeBits_eq_iff hnodup hknown hlogged hbits hpattern ?_ ?_ hk hk' bits⟩
  · intro k hk k' hk' hsame
    exact hdifferent.getElem_inj_iff.mp (column_eq_of_familyBits hf hsize (hlt _ (List.getElem_mem hk))
      (hlt _ (List.getElem_mem hk')) hsame)
  · intro bits t h
    obtain ⟨q, hq, hqbits⟩ := hdecoded h
    have hmem : t ∈ tokens := ((hknows t).mp (by rw [knows, hq]; rfl)).resolve_left (by rintro ⟨⟩)
    obtain ⟨k, hk, rfl⟩ := List.getElem_of_mem hmem
    have hk' : k < columns.length := hlength ▸ hk
    rw [hpattern k hk hk'] at hq
    cases hq
    exact ⟨k, hk, hk', rfl, hqbits.symm.trans (hbits _)⟩

end Engram.CodeBook
