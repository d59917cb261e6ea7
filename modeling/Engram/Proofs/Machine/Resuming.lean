/-
  Engram.Proofs.Machine.Resuming — runs that go on where runs stopped.

  An instruction ends with the first tick after which the hidden control layer holds `exit` or
  `start`, and it stalls after all of its ticks if there is none (`step_iff`). A run stops for the
  exit, for a stall or at its limit. At the limit its last instruction came to `start`, so the machine
  is not at the exit, and whoever runs it again goes on where it stopped: a run of `a + b`
  instructions is a run of `a` and, if that came to its limit, a run of `b` (`runs_compose`), with all
  that the two report.
-/

import Engram.Proofs.Machine.Operations

namespace Engram

open LayerId

/-- What follows an operation matters only on the value that the operation has. -/
theorem Noted.bind_congr {β γ : Type} {x : Noted β} {f g : β → Noted γ} (h : f x.value = g x.value) :
    x >>= f = x >>= g := by
  simp only [bind, h]

/-- The outcome of instructions that came after so many others. -/
def RunOutcome.after (steps : Nat) : RunOutcome → RunOutcome
  | .exited k => .exited (steps + k)
  | .stalled k => .stalled (steps + k)
  | .stepLimit k => .stepLimit (steps + k)

variable {α : Type} [Scalar α]

namespace Machine

/-! ## One instruction -/

/-- None of the first ticks leads to `exit` or to `start`. -/
def Passing (m : Machine α) (ticks : Nat) : Prop :=
  ∀ i < ticks, (m.ticked (i + 1)).atExit = false ∧ (m.ticked (i + 1)).atStart = false

/-- An instruction ends with the first tick that leads to `exit` or to `start`, or with the last one
that it is given. -/
inductive Steps (m : Machine α) (budget : Nat) : StepOutcome → Machine α → Prop where
  | exited {t : Nat} (within : t < budget) (before : m.Passing t) (hub : (m.ticked (t + 1)).atExit = true) :
      Steps m budget (.exited (t + 1)) (m.ticked (t + 1))
  | completed {t : Nat} (within : t < budget) (before : m.Passing t) (hub : (m.ticked (t + 1)).atStart = true) :
      Steps m budget (.completed (t + 1)) (m.ticked (t + 1))
  | stalled (before : m.Passing budget) : Steps m budget (.stalled budget) (m.ticked budget)

variable {m later : Machine α} {outcome : StepOutcome}

/-- The two hubs have different names. -/
theorem atExit_of_atStart (h : m.atStart = true) : m.atExit = false := by
  unfold atStart at h
  unfold atExit
  rw [eq_of_beq h]
  rfl

/-- Ticks that lead to no hub are gone through. -/
theorem stepFrom_of_passing {ticks : Nat} (h : m.Passing ticks) (done budget : Nat) :
    (m.stepFrom done (ticks + budget)).value = ((m.ticked ticks).stepFrom (done + ticks) budget).value := by
  induction ticks generalizing m done with
  | zero => simp [ticked]
  | succ ticks ih =>
    have hfirst : m.tick.value.atExit = false ∧ m.tick.value.atStart = false := h 0 (by omega)
    have hrest : m.tick.value.Passing ticks := by
      intro i hi
      exact h (i + 1) (by omega)
    have hnext := ih hrest (done + 1)
    rw [show ticks + 1 + budget = ticks + budget + 1 by omega, stepFrom, Noted.value_bind, hfirst.1, hfirst.2]
    simp only [Bool.false_eq_true, if_false]
    rw [hnext, show done + 1 + ticks = done + (ticks + 1) by omega]
    rfl

theorem step_of_steps {budget : Nat} (h : m.Steps budget outcome later) : (m.step budget).value = (outcome, later) := by
  cases h with
  | @exited t within before hub =>
    obtain ⟨rest, rfl⟩ : ∃ rest, budget = t + (rest + 1) := ⟨budget - t - 1, by omega⟩
    rw [ticked_succ] at hub ⊢
    rw [step, stepFrom_of_passing before, stepFrom, Noted.value_bind, hub]
    simp
  | @completed t within before hub =>
    obtain ⟨rest, rfl⟩ : ∃ rest, budget = t + (rest + 1) := ⟨budget - t - 1, by omega⟩
    rw [ticked_succ] at hub ⊢
    rw [step, stepFrom_of_passing before, stepFrom, Noted.value_bind, atExit_of_atStart hub, hub]
    simp
  | stalled before =>
    have hvalue := stepFrom_of_passing before 0 0
    rw [step, show budget = budget + 0 from rfl, hvalue, stepFrom, Nat.zero_add]
    rfl

/-- There is such an end for any number of ticks. -/
theorem exists_steps (m : Machine α) (budget : Nat) : ∃ outcome later, m.Steps budget outcome later := by
  induction budget with
  | zero => exact ⟨_, _, .stalled fun i hi => absurd hi (Nat.not_lt_zero i)⟩
  | succ budget ih =>
    obtain ⟨outcome, later, h⟩ := ih
    cases h with
    | exited within before hub => exact ⟨_, _, .exited (by omega) before hub⟩
    | completed within before hub => exact ⟨_, _, .completed (by omega) before hub⟩
    | stalled before =>
      -- the tick that is given in addition decides
      cases hexit : (m.ticked (budget + 1)).atExit with
      | true => exact ⟨_, _, .exited (by omega) before hexit⟩
      | false =>
        cases hstart : (m.ticked (budget + 1)).atStart with
        | true => exact ⟨_, _, .completed (by omega) before hstart⟩
        | false =>
          refine ⟨_, _, .stalled fun i hi => ?_⟩
          by_cases heq : i = budget
          · subst heq
            exact ⟨hexit, hstart⟩
          · exact before i (by omega)

theorem step_iff {budget : Nat} : (m.step budget).value = (outcome, later) ↔ m.Steps budget outcome later := by
  constructor
  · intro h
    obtain ⟨outcome', later', hsteps⟩ := m.exists_steps budget
    have heq := h.symm.trans (step_of_steps hsteps)
    cases heq
    exact hsteps
  · exact step_of_steps

/-- An instruction that is completed leaves the machine outside the exit. -/
theorem atExit_of_completed {budget ticks : Nat} (h : (m.step budget).value = (.completed ticks, later)) :
    later.atExit = false := by
  cases step_iff.mp h with
  | completed within before hub => exact atExit_of_atStart hub

/-! ## Runs -/

/-- A run, and another one from where it stopped at its limit. -/
def runOn (m : Machine α) (first second : Nat) : Noted (RunOutcome × Machine α) := do
  let (outcome, m) ← m.run first
  match outcome with
  | .stepLimit _ =>
    let (outcome, m) ← m.run second
    return (outcome.after first, m)
  | outcome => return (outcome, m)

/-- Instructions that were done before only count. -/
theorem runFrom_after (m : Machine α) (steps done budget : Nat) : m.runFrom (steps + done) budget = (do
    let (outcome, m) ← m.runFrom done budget
    return (outcome.after steps, m)) := by
  induction budget generalizing m done with
  | zero => rfl
  | succ budget ih =>
    unfold runFrom
    rw [bind_assoc]
    refine Noted.bind_congr ?_
    obtain ⟨outcome, later⟩ := (m.step m.config.maxTicks).value
    cases outcome with
    | exited ticks => rfl
    | stalled ticks => rfl
    | completed ticks => exact ih later (done + 1)

theorem runFrom_add (m : Machine α) (done first second : Nat) : m.runFrom done (first + second) = (do
    let (outcome, m) ← m.runFrom done first
    match outcome with
    | .stepLimit steps => m.runFrom steps second
    | outcome => return (outcome, m)) := by
  induction first generalizing m done with
  | zero => rw [Nat.zero_add]; rfl
  | succ first ih =>
    rw [Nat.succ_add, runFrom, runFrom, bind_assoc]
    refine Noted.bind_congr ?_
    obtain ⟨outcome, later⟩ := (m.step m.config.maxTicks).value
    cases outcome with
    | exited ticks => rfl
    | stalled ticks => rfl
    | completed ticks => exact ih later (done + 1)

/-- At its limit a run has done as many instructions as it was given, and the machine is not at the
exit if it was not there before. -/
theorem runFrom_stepLimit {done budget steps : Nat} (hexit : m.atExit = false)
    (h : (m.runFrom done budget).value = (.stepLimit steps, later)) : steps = done + budget ∧ later.atExit = false := by
  induction budget generalizing m done with
  | zero =>
    cases h
    exact ⟨rfl, hexit⟩
  | succ budget ih =>
    rw [runFrom, Noted.value_bind] at h
    rcases hstep : (m.step m.config.maxTicks).value with ⟨outcome, next⟩
    rw [hstep] at h
    cases outcome with
    | exited ticks => cases h
    | stalled ticks => cases h
    | completed ticks =>
      obtain ⟨hsteps, hlater⟩ := ih (atExit_of_completed hstep) h
      exact ⟨by omega, hlater⟩

theorem run_of_not_atExit (h : m.atExit = false) (budget : Nat) : m.run budget = m.runFrom 0 budget := by
  simp [run, h]

/-- A run that is interrupted at its limit and taken up again is one run. -/
theorem run_add (m : Machine α) (first second : Nat) : m.run (first + second) = m.runOn first second := by
  unfold runOn
  cases hexit : m.atExit with
  | true => simp [run, hexit]
  | false =>
    rw [run_of_not_atExit hexit, run_of_not_atExit hexit, runFrom_add]
    refine Noted.bind_congr ?_
    rcases hrun : (m.runFrom 0 first).value with ⟨outcome, later⟩
    cases outcome with
    | exited steps => rfl
    | stalled steps => rfl
    | stepLimit steps =>
      obtain ⟨hsteps, hlater⟩ := runFrom_stepLimit hexit hrun
      have hafter := later.runFrom_after first 0 second
      dsimp only
      rw [run_of_not_atExit hlater, hsteps, Nat.zero_add]
      exact hafter

/-- Runs compose: a run of `first + second` instructions is a run of `first` and, if that stopped at
its limit, a run of `second` from there, whose instructions count on. An instruction ends with the
first of its ticks after which the hidden control layer holds `exit` or `start`, and stalls exactly
if there is none, after all of them. -/
theorem runs_compose (m : Machine α) : (∀ first second, m.run (first + second) = m.runOn first second) ∧
    ∀ budget outcome later, (m.step budget).value = (outcome, later) ↔ m.Steps budget outcome later := by
  refine ⟨m.run_add, fun budget outcome later => ?_⟩
  exact step_iff

end Machine

end Engram
