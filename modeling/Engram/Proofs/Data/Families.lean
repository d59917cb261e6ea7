/-
  Engram.Proofs.Data.Families — four kinds of pathways with connections.

  Connections are written in four places: those of the control automaton and of the pointers when
  a machine is built, those of the plastic pathways at run time, and those of programs whenever one
  is added. All of these are flows (`Family.flow`). No pathway is in two families (`Family.eq_of_mem`):
  what a family has for one register it has for every register, so it is enough to look at the
  families of a network with one register.
-/

import Engram.Proofs.Data.Enduring
import Engram.Proofs.Data.Slots
import Engram.Proofs.Network.Capacity

namespace Engram

open LayerId

/-- The kinds of pathways that have connections, by what writes them. -/
inductive Family where
  /-- The control automaton, once. -/
  | control
  /-- The pointers, once. -/
  | pointer
  /-- Learning at run time. -/
  | plastic
  /-- Adding a program. -/
  | program
  deriving DecidableEq, Repr

/-- The pathways of a family, given the registers. -/
def Family.pathways (registers : List LayerId) : Family → List Pathway
  | control => (gh :: conditions).map (Pathway.mk gh) ++ (gh :: conditions).map (Pathway.mk go)
  | pointer => Pointer.moves.map (·.1)
  | plastic => plasticPathways registers
  | program => Session.learnedPathways registers

/-- A control layer itself, and the first register for any other layer. -/
def LayerId.standIn (l : LayerId) : LayerId := if IsControl l then l else register 0

def Pathway.standIn (p : Pathway) : Pathway := ⟨p.target.standIn, p.source.standIn⟩

section

variable {registers : List LayerId} {r s l : LayerId} {p : Pathway}

theorem LayerId.standIn_of_register (h : ¬ IsControl r) : r.standIn = register 0 := if_neg h

/-- What a program is stored in besides the fields of its lines, for each register. -/
def registerData (r : LayerId) : List Pathway := [⟨r, op2⟩, ⟨ci, r⟩, ⟨ip, r⟩]

theorem mem_learnedPathways : p ∈ Session.learnedPathways registers ↔ p ∈ Session.learnedPathways [] ∨
    ∃ r ∈ registers, p ∈ registerData r ∨ ∃ s ∈ registers, p = ⟨r, s⟩ := by
  simp only [Session.learnedPathways, Session.dataPathways, registerData, List.cons_append, List.mem_cons, List.mem_append,
    List.mem_flatMap, List.mem_map, List.flatMap_nil, List.not_mem_nil, or_false, false_or]
  constructor
  · rintro (h | h | ⟨r, hr, ⟨s, hs, rfl⟩ | h⟩ | h)
    · exact .inl (.inl h)
    · exact .inl (.inr (.inl h))
    · exact .inr ⟨r, hr, .inr ⟨s, hs, rfl⟩⟩
    · exact .inr ⟨r, hr, .inl h⟩
    · exact .inl (.inr (.inr h))
  · rintro ((h | h | h) | ⟨r, hr, h | ⟨s, hs, rfl⟩⟩)
    · exact .inl h
    · exact .inr (.inl h)
    · exact .inr (.inr (.inr h))
    · exact .inr (.inr (.inl ⟨r, hr, .inr h⟩))
    · exact .inr (.inr (.inl ⟨r, hr, .inl ⟨s, hs, rfl⟩⟩))

namespace Family

/-- With the first register for every register, a pathway stays in its family. -/
theorem standIn_mem (hbeyond : ∀ r ∈ registers, ¬ IsControl r) {f : Family} (hp : p ∈ f.pathways registers) :
    p.standIn ∈ f.pathways [register 0] := by
  have hregister (r : LayerId) (hr : r ∈ registers) := LayerId.standIn_of_register (hbeyond r hr)
  cases f with
  | control =>
    have hall : ∀ p ∈ control.pathways [], p.standIn ∈ control.pathways [] := by decide
    exact hall p hp
  | pointer =>
    have hall : ∀ p ∈ pointer.pathways [], p.standIn ∈ pointer.pathways [] := by decide
    exact hall p hp
  | plastic =>
    have hall : ∀ p ∈ plastic.pathways [], p.standIn ∈ plastic.pathways [register 0] := by decide
    have hmf : mf.standIn = mf := by decide
    have hmb : mb.standIn = mb := by decide
    rcases List.mem_append.mp ((plasticPathways_perm registers).mem_iff.mp hp) with hp | hp
    · exact hall p hp
    · obtain ⟨r, hr, hp⟩ := List.mem_flatMap.mp hp
      refine mem_plasticPathways_register List.mem_cons_self ?_
      simp only [registerPlastic, List.mem_cons, List.not_mem_nil, or_false] at hp ⊢
      rcases hp with rfl | rfl | rfl
      · simp [Pathway.standIn, hregister r hr, hmf]
      · simp [Pathway.standIn, hregister r hr, hmf]
      · simp [Pathway.standIn, hregister r hr, hmb]
  | program =>
    have hall : ∀ p ∈ program.pathways [], p.standIn ∈ program.pathways [register 0] := by decide
    have hlayers : op2.standIn = op2 ∧ ci.standIn = ci ∧ ip.standIn = ip := by decide
    rcases mem_learnedPathways.mp hp with hp | ⟨r, hr, hp⟩
    · exact hall p hp
    · refine mem_learnedPathways.mpr (.inr ⟨register 0, List.mem_cons_self, ?_⟩)
      rcases hp with hp | ⟨s, hs, rfl⟩
      · left
        simp only [registerData, List.mem_cons, List.not_mem_nil, or_false] at hp ⊢
        rcases hp with rfl | rfl | rfl
        · simp [Pathway.standIn, hregister r hr, hlayers]
        · simp [Pathway.standIn, hregister r hr, hlayers]
        · simp [Pathway.standIn, hregister r hr, hlayers]
      · right
        refine ⟨register 0, List.mem_cons_self, ?_⟩
        rw [Pathway.standIn, hregister r hr, hregister s hs]

/-- No pathway is in two families. -/
theorem eq_of_mem (hbeyond : ∀ r ∈ registers, ¬ IsControl r) {f g : Family} (hf : p ∈ f.pathways registers)
    (hg : p ∈ g.pathways registers) : f = g := by
  have hf := standIn_mem hbeyond hf
  have hg := standIn_mem hbeyond hg
  -- the families of a network with one register
  have hapart : ∀ f ∈ [control, pointer, plastic, program], ∀ g ∈ [control, pointer, plastic, program],
      ∀ p ∈ f.pathways [register 0], p ∈ g.pathways [register 0] → f = g := by decide
  exact hapart f (by cases f <;> decide) g (by cases g <;> decide) _ hf hg

/-- Every pathway of a family carries activity. -/
theorem flow {f : Family} (hp : p ∈ f.pathways registers) : p ∈ flowPathways registers := by
  cases f with
  | control =>
    have hall : ∀ p ∈ control.pathways [], p ∈ flowPathways [] := by decide
    exact mem_flowPathways_fixed (hall p hp)
  | pointer =>
    have hall : ∀ p ∈ pointer.pathways [], p ∈ flowPathways [] := by decide
    exact mem_flowPathways_fixed (hall p hp)
  | plastic =>
    have hall : ∀ p ∈ plastic.pathways [], p ∈ flowPathways [] := by decide
    rcases List.mem_append.mp ((plasticPathways_perm registers).mem_iff.mp hp) with hp | hp
    · exact mem_flowPathways_fixed (hall p hp)
    · obtain ⟨r, hr, hp⟩ := List.mem_flatMap.mp hp
      exact mem_flowPathways_register hr (List.mem_of_mem_drop (i := 3) hp)
  | program =>
    have hall : ∀ p ∈ program.pathways [], p ∈ flowPathways [] := by decide
    rcases mem_learnedPathways.mp hp with hp | ⟨r, hr, hp | ⟨s, hs, rfl⟩⟩
    · exact mem_flowPathways_fixed (hall p hp)
    · refine mem_flowPathways_register hr ?_
      simp only [registerData, registerFlows, List.mem_cons, List.not_mem_nil, or_false] at hp ⊢
      rcases hp with h | h | h
      · exact .inl h
      · exact .inr (.inr (.inl h))
      · exact .inr (.inl h)
    · exact mem_flowPathways_registers hr hs

end Family

end

end Engram
