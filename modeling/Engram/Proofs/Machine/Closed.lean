/-
  Engram.Proofs.Machine.Closed — closed layers retain.

  A layer is closed at a tick when no copy gate into it is open and its decay gate is not. Then the
  tick does nothing but retain, so over ticks at which a layer is closed each of its units goes
  through as many steps of retention (`active_ticked_closed`). With exact squashing functions these
  keep the bits of all units, hence the token, and take the units that are off the midpoint to the
  levels of their sides (`closed_layers_retain`).

  The gate layer retains as well while it is closed: if no gate is open, none ever opens
  (`openGates_ticked_of_nil`).
-/

import Engram.Proofs.Data.Store
import Engram.Proofs.Exact.Holding
import Engram.Proofs.Machine.Shapes
import Engram.Proofs.Network.Capacity

namespace Engram.Machine

open LayerId

section

variable {α : Type} [Scalar α]

theorem network_ticked (m : Machine α) (k : Nat) : (m.ticked k).network = m.network :=
  congrArg Session.network (m.session_ticked k)

/-- Over ticks at which it is closed a layer retains as many times. -/
theorem active_ticked_closed {m : Machine α} {l : LayerId} (hl : l.position < m.network.layers.size) {k : Nat}
    (h : ∀ j < k, (m.ticked j).Closed l) : (m.ticked k).active l = (m.active l).map (m.network.activator l).hold^[k] := by
  induction k with
  | zero => exact (Array.map_id _).symm
  | succ k ih =>
    have hbefore := ih fun j hj => h j (by omega)
    rw [ticked_succ, active_tick_closed (by rw [network_ticked]; exact hl) (h k (by omega)), hbefore, network_ticked,
      Array.map_map, Function.iterate_succ']

end

variable {m : Machine ℝ} {l : LayerId}

/-- Over ticks at which it is closed a layer keeps its bits. -/
theorem bits_ticked_closed (hl : l.position < m.network.layers.size) (ha : (m.network.activator l).Proper) {k : Nat}
    (h : ∀ j < k, (m.ticked j).Closed l) :
    (m.network.activator l).bits ((m.ticked k).active l) = (m.network.activator l).bits (m.active l) := by
  rw [active_ticked_closed hl h, ha.bits_map_iterate_hold]

/-- If no gate is open, none ever opens. -/
theorem openGates_ticked_of_nil (hgo : go.position < m.network.layers.size) (ha : (m.network.activator go).Proper)
    (h : m.openGates = []) (k : Nat) : (m.ticked k).openGates = [] := by
  induction k using Nat.strong_induction_on with
  | h k ih =>
    have hclosed : ∀ j < k, (m.ticked j).Closed go := by
      intro j hj
      rw [Closed, ih j hj]
      exact ⟨fun _ => List.not_mem_nil, List.not_mem_nil⟩
    rw [openGates, Network.openGates, network_ticked, bits_ticked_closed hgo ha hclosed]
    exact h

/-- Retention takes every unit that is off the midpoint to the level of its side, and a layer that is closed at
each of so many ticks retains as many times and goes on holding its token. -/
theorem closed_layers_retain {a : Activator ℝ} (ha : a.Proper) : (∀ y, y ≠ a.midpoint → a.Settles y) ∧
    ∀ (m : Machine ℝ) (l : LayerId), l.position < m.network.layers.size → m.network.activator l = a →
      ∀ k, (∀ j < k, (m.ticked j).Closed l) →
        (m.ticked k).active l = (m.active l).map a.hold^[k] ∧ (m.ticked k).holding l = m.holding l := by
  refine ⟨fun y hy => ha.settles hy, fun m l hl heq k hclosed => ?_⟩
  subst heq
  refine ⟨active_ticked_closed hl hclosed, ?_⟩
  rw [holding, holding, network_ticked]
  exact congrArg (m.network.layer l).book.decodeBits (bits_ticked_closed hl ha hclosed)

/-- A machine without connections, with every layer at rest. -/
noncomputable def idle (n : Network ℝ) : Machine ℝ where
  config := .standard
  session := .new n
  weights := {}
  plasticity := {}
  activity := blank n
  automaton := ⟨{}, 0, 0, ⟨#[], #[]⟩⟩
  buildErrors := 0
  ticks := 0

/-- At the midpoint a unit of the gate layer opens nothing. -/
theorem openGates_of_blank {m : Machine ℝ} (h : m.active go = (m.network.layer go).blank) : m.openGates = [] := by
  have hoff : (m.network.activator go).isOn (m.network.activator go).midpoint = false :=
    (Scalar.lt_eq_false _ _).mpr le_rfl
  unfold openGates Network.openGates GateMap.openGates
  rw [List.map_eq_nil_iff, List.filter_eq_nil_iff, h]
  rintro ⟨g, bit⟩ hmem hon
  obtain ⟨y, hy, rfl⟩ := List.mem_map.mp (List.of_mem_zip hmem).2
  have hrests : y = (m.network.activator go).midpoint := (Array.mem_replicate.mp (Array.mem_toList_iff.mp hy)).2
  rw [hrests, hoff] at hon
  cases hon

/-- While all other layers of a machine rest, a register with units half the way to a level retains. -/
theorem idle_register_retains : (Activator.standard : Activator ℝ).Proper ∧
    (Activator.standard : Activator ℝ).Settles (1 / 2) ∧ ∃ m : Machine ℝ,
    m.active (register 0) = Array.replicate 64 (1 / 2) ∧ ∀ k, (m.ticked k).Closed (register 0) ∧
      (m.ticked k).active (register 0) = (Array.replicate 64 (1 / 2)).map (Activator.standard : Activator ℝ).hold^[k] ∧
      (m.ticked k).holding (register 0) = m.holding (register 0) := by
  obtain ⟨n, hn⟩ := Network.exists_build Config.validate_standard (show 3 ≤ 65522 by omega)
  have hbuilt := Network.builtFrom_of_build hn
  have hsize : n.layers.size = 16 := hbuilt.size_layers
  have hlayers : ∀ l : LayerId, l.position < 16 → l.position < n.layers.size ∧ n.activator l = Activator.standard :=
    fun l hl => ⟨hsize.symm ▸ hl, hbuilt.activator_eq (hsize.symm ▸ hl)⟩
  obtain ⟨hgo, hgate⟩ := hlayers go (by decide)
  obtain ⟨hposition, hregister⟩ := hlayers (register 0) (by decide)
  let m := (idle n).setActive (register 0) (Array.replicate 64 (1 / 2))
  have hactive : ∀ l, m.active l = if l = register 0 ∧ (register 0).position < (blank n).size then Array.replicate 64 (1 / 2)
      else (idle n).active l := active_setActive (idle n) (register 0) _
  have hcount : (blank n).size = 16 := (Array.size_map ..).trans hsize
  have hrests : m.active go = (n.layer go).blank := by
    rw [hactive, if_neg fun heq => absurd heq.1 (by decide)]
    exact getD_blank n hgo
  have hshut := openGates_ticked_of_nil (m := m) hgo (hgate.symm ▸ Activator.proper_standard) (openGates_of_blank hrests)
  have hclosed : ∀ k, (m.ticked k).Closed (register 0) := by
    intro k
    rw [Closed, hshut k]
    exact ⟨fun _ => List.not_mem_nil, List.not_mem_nil⟩
  have hstart : m.active (register 0) = Array.replicate 64 (1 / 2) := by
    rw [hactive, hcount, if_pos ⟨rfl, by decide⟩]
  have hoff : (1 / 2 : ℝ) ≠ (Activator.standard : Activator ℝ).midpoint := by
    rw [Activator.midpoint_tanh rfl]
    norm_num
  refine ⟨Activator.proper_standard, (closed_layers_retain Activator.proper_standard).1 _ hoff, m, hstart, fun k =>
    ⟨hclosed k, ?_⟩⟩
  rw [← hstart]
  exact (closed_layers_retain Activator.proper_standard).2 m (register 0) hposition hregister k fun j _ => hclosed j

end Engram.Machine
