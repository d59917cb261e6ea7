/-
  Engram.Proofs.Network.Gates — patterns of the gate layer.

  The gate layer has one unit for each gate. A pattern `Opens` gates when the units of these
  gates and of the default ones are at the `on` level and all other units at the `off` level;
  this is what the sequencer makes (`opens_makeGates`). Where the activator tells the two levels
  apart, these are the gates that the network reads from the pattern (`mem_openGates_iff`).
-/

import Engram.Control.Sequencer
import Engram.Proofs.Network.Books
import Mathlib.Data.List.Nodup

namespace Engram

open LayerId

namespace GateMap

theorem gate?_of_unit? {m : GateMap} {g : Gate} {u : Nat} (h : m.unit? g = some u) : m.gate? u = some g := by
  unfold unit? at h
  obtain ⟨hu, hget, -⟩ := List.idxOf?_eq_some_iff.mp h
  unfold gate?
  rw [List.getElem?_eq_getElem hu]
  exact congrArg some hget

theorem lt_of_unit? {m : GateMap} {g : Gate} {u : Nat} (h : m.unit? g = some u) : u < m.size := by
  have hg := gate?_of_unit? h
  unfold gate? at hg
  exact (List.getElem?_eq_some_iff.mp hg).1

theorem unit?_injective {m : GateMap} {g g' : Gate} {u : Nat} (h : m.unit? g = some u) (h' : m.unit? g' = some u) :
    g = g' :=
  Option.some.inj ((gate?_of_unit? h).symm.trans (gate?_of_unit? h'))

theorem unit?_of_mem {m : GateMap} {g : Gate} (h : g ∈ m.gates) : ∃ u, m.unit? g = some u :=
  Option.isSome_iff_exists.mp (List.isSome_idxOf?.mpr h)

theorem mem_of_unit? {m : GateMap} {g : Gate} {u : Nat} (h : m.unit? g = some u) : g ∈ m.gates :=
  List.mem_of_getElem? (gate?_of_unit? h)

/-- The gates whose unit is on, with bits for every unit. -/
theorem mem_openGates {m : GateMap} {bits : List Bool} (hsize : bits.length = m.size) {g : Gate} :
    g ∈ m.openGates bits ↔ ∃ u, m.unit? g = some u ∧ bits[u]? = some true := by
  unfold openGates
  simp only [List.mem_map, List.mem_filter]
  constructor
  · rintro ⟨⟨g', b⟩, ⟨hmem, hb⟩, rfl⟩
    obtain ⟨i, hi, hget⟩ := List.getElem_of_mem hmem
    rw [List.getElem_zip, Prod.mk.injEq] at hget
    rw [List.length_zip] at hi
    obtain ⟨u, hu⟩ := unit?_of_mem (m := m) (g := g') (hget.1 ▸ List.getElem_mem _)
    have hlt : u < m.gates.length := lt_of_unit? hu
    have heq : m.gates[u] = m.gates[i] := by
      have := gate?_of_unit? hu
      unfold gate? at this
      rw [List.getElem?_eq_getElem hlt] at this
      rw [Option.some.inj this, hget.1]
    obtain rfl := (List.Nodup.getElem_inj_iff m.nodup).mp heq
    refine ⟨u, hu, ?_⟩
    rw [List.getElem?_eq_getElem (by omega), hget.2]
    exact congrArg some hb
  · rintro ⟨u, hu, hbit⟩
    have hlt : u < m.gates.length := lt_of_unit? hu
    have hlt' : u < bits.length := (List.getElem?_eq_some_iff.mp hbit).1
    have hg : m.gates[u] = g := by
      have := gate?_of_unit? hu
      unfold gate? at this
      rw [List.getElem?_eq_getElem hlt] at this
      exact Option.some.inj this
    refine ⟨(g, true), ⟨?_, rfl⟩, rfl⟩
    refine List.mem_iff_getElem.mpr ⟨u, by rw [List.length_zip]; omega, ?_⟩
    rw [List.getElem_zip, hg, (List.getElem?_eq_some_iff.mp hbit).2]

end GateMap

namespace Network

variable {α : Type} [Scalar α]

/-- The pattern opens the given gates and the default ones, and no others. -/
structure Opens (n : Network α) (p : Pattern α) (gates : List Gate) : Prop where
  size : p.size = n.size go
  known : ∀ g ∈ defaultGates ++ gates, ∃ u, n.gates.unit? g = some u
  level : ∀ g u, n.gates.unit? g = some u →
    p[u]? = some ((n.activator go).level (decide (g ∈ defaultGates ++ gates)))

theorem Opens.keeps {n later : Network α} {keep : LayerId → String → Prop} {p : Pattern α} {gates : List Gate}
    (hp : n.Opens p gates) (h : n.Keeps keep later) : later.Opens p gates := by
  refine ⟨hp.size.trans (h.size go).symm, fun g hg => ?_, fun g u hu => ?_⟩
  · obtain ⟨u, hu⟩ := hp.known g hg
    exact ⟨u, h.gates.symm ▸ hu⟩
  · rw [h.activator go]
    exact hp.level g u (h.gates ▸ hu)

theorem Opens.of_keeps {n later : Network α} {keep : LayerId → String → Prop} {p : Pattern α} {gates : List Gate}
    (hp : later.Opens p gates) (h : n.Keeps keep later) : n.Opens p gates := by
  refine ⟨hp.size.trans (h.size go), fun g hg => ?_, fun g u hu => ?_⟩
  · obtain ⟨u, hu⟩ := hp.known g hg
    exact ⟨u, h.gates ▸ hu⟩
  · rw [← h.activator go]
    exact hp.level g u (h.gates.symm ▸ hu)

theorem unit_ok_iff {n : Network α} {g : Gate} {u : Nat} : n.unit g = .ok u ↔ n.gates.unit? g = some u := by
  unfold unit
  cases n.gates.unit? g with
  | some v => simp
  | none => simp

/-- Gates that are there have units. -/
theorem exists_units {n : Network α} {gates : List Gate} (h : ∀ g ∈ gates, ∃ u, n.gates.unit? g = some u) :
    ∃ units, gates.mapM n.unit = .ok units := by
  induction gates with
  | nil => exact ⟨[], rfl⟩
  | cons g rest ih =>
    obtain ⟨u, hu⟩ := h g List.mem_cons_self
    obtain ⟨us, hus⟩ := ih fun x hx => h x (List.mem_cons_of_mem _ hx)
    exact ⟨u :: us, by rw [List.mapM_cons, unit_ok_iff.mpr hu, hus]; rfl⟩

omit [Scalar α] in
/-- Setting the units of a list to one value. -/
theorem getElem?_setUnits (on : α) (units : List Nat) (p : Pattern α) (u : Nat) :
    (units.foldl (fun p u => p.setIfInBounds u on) p)[u]? =
      if u ∈ units ∧ u < p.size then some on else p[u]? := by
  induction units generalizing p with
  | nil => simp
  | cons v rest ih =>
    rw [List.foldl_cons, ih, Array.getElem?_setIfInBounds, Array.size_setIfInBounds]
    by_cases hv : v = u
    · subst hv
      by_cases hlt : v < p.size
      · simp [hlt]
      · simp [hlt]
    · have : u ≠ v := fun h => hv h.symm
      simp [hv, this]

omit [Scalar α] in
theorem size_setUnits (on : α) (units : List Nat) (p : Pattern α) :
    (units.foldl (fun p u => p.setIfInBounds u on) p).size = p.size := by
  induction units generalizing p with
  | nil => rfl
  | cons v rest ih => rw [List.foldl_cons, ih, Array.size_setIfInBounds]

theorem mapM_unit_ok {n : Network α} {gates : List Gate} {units : List Nat} (h : gates.mapM n.unit = .ok units) :
    List.Forall₂ (fun g u => n.gates.unit? g = some u) gates units := by
  induction gates generalizing units with
  | nil =>
    cases h
    exact .nil
  | cons g rest ih =>
    rw [List.mapM_cons] at h
    cases hu : n.unit g with
    | error e =>
      rw [hu] at h
      cases h
    | ok u =>
      rw [hu] at h
      cases hrest : rest.mapM n.unit with
      | error e =>
        rw [hrest] at h
        cases h
      | ok us =>
        rw [hrest] at h
        cases h
        exact .cons (unit_ok_iff.mp hu) (ih hrest)

/-- Gates of which the units were looked up have units. -/
theorem unit?_of_units {n : Network α} {gates : List Gate} {units : List Nat} (h : gates.mapM n.unit = .ok units)
    {g : Gate} (hg : g ∈ gates) : ∃ u, n.gates.unit? g = some u := by
  have hall := mapM_unit_ok h
  obtain ⟨i, hi, rfl⟩ := List.getElem_of_mem hg
  exact ⟨_, (List.forall₂_iff_get.mp hall).2 i hi (hall.length_eq ▸ hi)⟩

theorem opens_makeGates {n : Network α} (hn : n.size go = n.gates.size) {gates : List Gate} {p : Pattern α}
    (h : Sequencer.makeGates n gates = .ok p) : n.Opens p gates := by
  unfold Sequencer.makeGates at h
  cases hunits : (defaultGates ++ gates).mapM n.unit with
  | error e =>
    rw [hunits] at h
    cases h
  | ok units =>
    rw [hunits] at h
    cases h
    have hall := mapM_unit_ok hunits
    refine ⟨by rw [size_setUnits, Array.size_replicate], fun g hg => unit?_of_units hunits hg, fun g u hu => ?_⟩
    have hlt : u < n.size go := hn ▸ GateMap.lt_of_unit? hu
    have hiff : u ∈ units ↔ g ∈ defaultGates ++ gates := by
      constructor
      · intro hmem
        obtain ⟨i, hi, rfl⟩ := List.getElem_of_mem hmem
        have hi' : i < (defaultGates ++ gates).length := by rw [hall.length_eq]; exact hi
        rw [GateMap.unit?_injective hu ((List.forall₂_iff_get.mp hall).2 i hi' hi)]
        exact List.getElem_mem hi'
      · intro hmem
        obtain ⟨i, hi, rfl⟩ := List.getElem_of_mem hmem
        have hi' : i < units.length := by rw [← hall.length_eq]; exact hi
        rw [Option.some.inj (hu.symm.trans ((List.forall₂_iff_get.mp hall).2 i hi hi'))]
        exact List.getElem_mem hi'
    rw [getElem?_setUnits, Array.size_replicate]
    by_cases hg : g ∈ defaultGates ++ gates
    · rw [if_pos ⟨hiff.mpr hg, hlt⟩, decide_eq_true hg]
      rfl
    · rw [if_neg (fun h => hg (hiff.mp h.1)), decide_eq_false hg, Array.getElem?_replicate, if_pos hlt]
      rfl

/-- The gates that the network reads from a pattern, when the two levels are told apart. -/
theorem mem_openGates_iff {n : Network α} (hn : n.size go = n.gates.size)
    (hon : (n.activator go).isOn (n.activator go).on = true) (hoff : (n.activator go).isOn (n.activator go).off = false)
    {p : Pattern α} {gates : List Gate} (hp : n.Opens p gates) {g : Gate} :
    g ∈ n.openGates p ↔ g ∈ defaultGates ++ gates := by
  have hbits : ((n.activator go).bits p).length = n.gates.size := by
    rw [← hn, ← hp.size]
    simp [Activator.bits]
  unfold openGates
  rw [GateMap.mem_openGates hbits]
  have hbit : ∀ u, n.gates.unit? g = some u →
      ((n.activator go).bits p)[u]? = some (decide (g ∈ defaultGates ++ gates)) := by
    intro u hu
    unfold Activator.bits
    rw [List.getElem?_map, Array.getElem?_toList, hp.level g u hu, Option.map_some]
    unfold Activator.level
    by_cases hg : g ∈ defaultGates ++ gates
    · rw [decide_eq_true hg, if_pos rfl, hon]
    · rw [decide_eq_false hg, if_neg Bool.false_ne_true, hoff]
  constructor
  · rintro ⟨u, hu, htrue⟩
    rw [hbit u hu] at htrue
    exact of_decide_eq_true (Option.some.inj htrue)
  · intro hg
    obtain ⟨u, hu⟩ := hp.known g hg
    exact ⟨u, hu, by rw [hbit u hu, decide_eq_true hg]⟩

end Network

end Engram
