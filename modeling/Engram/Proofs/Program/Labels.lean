/-
  Engram.Proofs.Program.Labels — what is known of the labels of a program that was read.

  Reading keeps one invariant, `Draft.Labelled`: no label is defined twice, whether it waits for
  its instruction or has one, and every label that has one names an instruction that was read.
  A program that was read to its end has labels that name lines of it, each label one.
-/

import Engram.Program.Parser
import Mathlib.Data.List.Nodup

namespace Engram.Program

/-- Every label names a line, and no label two. -/
structure Labelled (p : Program) : Prop where
  nodup : (p.labels.map (·.1)).Nodup
  inside : ∀ l ∈ p.labels, l.2 < p.size

namespace Draft

structure Labelled (d : Draft) : Prop where
  nodup : ((d.labels ++ d.pending).map (·.1)).Nodup
  inside : ∀ l ∈ d.labels, l.2 < d.instructions.length

theorem labelled_empty : Draft.empty.Labelled := ⟨List.nodup_nil, fun l h => by cases h⟩

theorem Labelled.define {d d' : Draft} {registers : List String} {line : Nat} {label : String} (hd : d.Labelled)
    (h : d.define registers line label = .ok d') : d'.Labelled := by
  unfold Draft.define at h
  split at h
  · cases h
  split at h
  · cases h
  split at h
  · cases h
  next hnew =>
  cases h
  simp only [Bool.or_eq_true, List.any_eq_true, beq_iff_eq, not_or, not_exists, not_and] at hnew
  refine ⟨?_, hd.inside⟩
  simp only [← List.append_assoc, List.map_append, List.map_cons, List.map_nil]
  rw [List.nodup_append]
  refine ⟨by simpa using hd.nodup, List.nodup_singleton _, fun a ha b hb => ?_⟩
  rw [List.mem_singleton.mp hb]
  rw [← List.map_append] at ha
  obtain ⟨l, hl, rfl⟩ := List.mem_map.mp ha
  rcases List.mem_append.mp hl with hl | hl
  · exact hnew.1 l hl
  · exact hnew.2 l hl

theorem Labelled.append {d d' : Draft} {registers : List String} {line : Nat} {word : String} {operands : List String}
    (hd : d.Labelled) (h : d.append registers line word operands = .ok d') : d'.Labelled := by
  unfold Draft.append at h
  split at h
  · cases h
  next op _ =>
  by_cases hcount : operands.length ≠ op.arity
  · rw [if_pos hcount] at h
    cases h
  rw [if_neg hcount] at h
  rcases hcheck : checkOperands registers op op.operands operands with f | u
  · simp only [hcheck] at h
    cases h
  simp only [hcheck] at h
  cases h
  refine ⟨?_, fun l hl => ?_⟩
  · have := hd.nodup
    simpa [List.map_append, List.map_map, Function.comp_def] using this
  · rw [List.length_append]
    rcases List.mem_append.mp hl with hl | hl
    · exact Nat.lt_add_right _ (hd.inside l hl)
    · obtain ⟨q, -, rfl⟩ := List.mem_map.mp hl
      simp

theorem Labelled.readInstruction {d d' : Draft} {registers : List String} {line : Nat} {words : List (List Char)}
    (hd : d.Labelled) (h : d.readInstruction registers line words = .ok d') : d'.Labelled := by
  cases words with
  | nil => cases h; exact hd
  | cons word operands => exact hd.append h

theorem Labelled.readWords {d d' : Draft} {registers : List String} {line : Nat} {words : List (List Char)}
    (hd : d.Labelled) (h : d.readWords registers line words = .ok d') : d'.Labelled := by
  cases words with
  | nil => cases h; exact hd
  | cons word rest =>
    simp only [Draft.readWords] at h
    split at h
    · next label _ =>
      rcases hdef : d.define registers line label with f | d₁
      · simp only [hdef] at h
        cases h
      · simp only [hdef] at h
        exact (hd.define hdef).readInstruction h
    · exact hd.readInstruction h

theorem Labelled.readLines {registers : List String} (lines : List (List Char)) : ∀ {number : Nat} {d d' : Draft},
    d.Labelled → d.readLines registers number lines = .ok d' → d'.Labelled := by
  induction lines with
  | nil =>
    intro number d d' hd h
    cases h
    exact hd
  | cons line rest ih =>
    intro number d d' hd h
    unfold Draft.readLines at h
    split at h
    · next d₁ hread => exact ih (hd.readWords hread) h
    · cases h

theorem Labelled.finish {d : Draft} {lineCount : Nat} {p : Program} (hd : d.Labelled)
    (h : d.finish lineCount = .ok p) : p.Labelled := by
  unfold Draft.finish at h
  split at h
  · cases h
  · cases h
  · next hpending hinstructions =>
    split at h
    · cases h
    · cases h
      refine ⟨?_, hd.inside⟩
      have := hd.nodup
      rwa [hpending, List.append_nil] at this

end Draft

/-- A program that was read has labels that name its lines. -/
theorem labelled_of_parse {registers : List String} {source : String} {p : Program}
    (h : parse registers source = .ok p) : p.Labelled := by
  unfold parse at h
  rcases hread : Draft.empty.readLines registers 1 (Text.lines source.toList) with e | d
  · simp only [hread] at h
    cases h
  · simp only [hread] at h
    exact (Draft.labelled_empty.readLines _ hread).finish h

/-! ## Labels under a scope -/

theorem rename_of_mem {p : Program} {l : String × Nat} (h : l ∈ p.labels) (scope : String) :
    p.rename scope l.1 = scope ++ ":" ++ l.1 := by
  rw [rename, if_pos]
  exact List.any_eq_true.mpr ⟨l, h, by simp⟩

theorem labels_withScope (p : Program) (scope : String) :
    (p.withScope scope).labels = p.labels.map fun l => (scope ++ ":" ++ l.1, l.2) := by
  unfold withScope
  exact List.map_congr_left fun l hl => by rw [rename_of_mem hl]

theorem Labelled.withScope {p : Program} (h : p.Labelled) (scope : String) : (p.withScope scope).Labelled := by
  refine ⟨?_, fun l hl => ?_⟩
  · rw [labels_withScope, List.map_map]
    have : (Prod.fst ∘ fun l : String × Nat => (scope ++ ":" ++ l.1, l.2)) =
        (fun t => scope ++ ":" ++ t) ∘ Prod.fst := rfl
    rw [this, ← List.map_map]
    refine h.nodup.map fun a b hab => ?_
    have hlist := congrArg String.toList hab
    simp only [String.toList_append] at hlist
    exact String.toList_inj.mp (List.append_cancel_left hlist)
  · rw [labels_withScope] at hl
    obtain ⟨q, hq, rfl⟩ := List.mem_map.mp hl
    rw [size_withScope]
    exact h.inside q hq

theorem mem_sortedLabels {p : Program} {l : String × Nat} : l ∈ p.sortedLabels ↔ l ∈ p.labels :=
  List.mem_mergeSort

theorem Labelled.nodup_sorted {p : Program} (h : p.Labelled) : (p.sortedLabels.map (·.1)).Nodup :=
  ((List.mergeSort_perm _ _).map _).nodup_iff.mpr h.nodup

end Engram.Program
