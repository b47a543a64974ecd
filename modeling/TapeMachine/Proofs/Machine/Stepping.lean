import TapeMachine.Proofs.Machine.Calls

/-!
# Machine — Stepping

A run and single steps are two ways to the same end: after any number of calls of `step`, in which
the machine may have stopped, a run comes to what it comes to at once (`Machine.run_stepMany`).

`Machine.Heeds` says what a step does that a machine is free to make.  The rule that it finds is
applied and recorded, and only without one does it halt with a verdict.
-/

namespace TapeMachine

namespace Machine

variable {m m' : Machine} {outcome : Outcome} {reason : HaltReason}

/-! ### Runs after steps -/

theorem step_of_halted (h : m.halted = some reason) : m.step = .ok (m, .halts reason) := by
  rw [step, h]

/-- A machine that halts knows why. -/
theorem halted_of_step (h : m.step = .ok (m', .halts reason)) : m'.halted = some reason := by
  cases stepped_of_step h with
  | rests hh => exact hh
  | limit | verdict | seen => rfl

/-- A run goes on where a step has come to, also if the machine has halted there. -/
theorem run_of_step (h : m.step = .ok (m', outcome)) : m'.run = m.run := by
  cases outcome with
  | continues => exact (run_of_continues h).symm
  | halts reason =>
      rw [run_of_halts h]
      exact run_of_halts (step_of_halted (halted_of_step h))

theorem run_stepMany {n : Nat} (h : stepMany n m = .ok (m', outcome)) : m'.run = m.run := by
  induction n generalizing m with
  | zero =>
      cases h
      rfl
  | succ n ih =>
      cases hs : m.step with
      | error b => cases n <;> simp [stepMany, hs] at h
      | ok x =>
          rw [stepMany_succ hs] at h
          split at h
          · cases h
            exact run_of_step hs
          · exact (ih h).trans (run_of_step hs)

/-! ### The rule of a step -/

/-- What a machine that is free to make a step comes to by it. -/
structure Heeds (m m' : Machine) (outcome : Outcome) : Prop where
  /-- The rule that the machine finds is applied, and the step recorded. -/
  applies : ∀ r, m.transition = some r → m.configuration.apply r = .ok m'.configuration ∧
    m'.steps = m.steps + 1 ∧ m'.trace = m.trace.push (.capture m.steps m.configuration r)
  /-- Without a rule nothing is done. -/
  rests : m.transition = none →
    m'.configuration = m.configuration ∧ m'.steps = m.steps ∧ m'.trace = m.trace
  verdict_iff : outcome = .halts .accepted ∨ outcome = .halts .rejected ↔ m.transition = none

theorem verdict_eq (m : Machine) : m.verdict = .accepted ∨ m.verdict = .rejected := by
  rw [verdict]
  split
  · exact .inl rfl
  · exact .inr rfl

/-- A step that applies a rule heeds it, if it does not halt with a verdict. -/
theorem heeds_of_apply {r : Rule} (ht : m.transition = some r)
    (hc : m.configuration.apply r = .ok m'.configuration) (hs : m'.steps = m.steps + 1)
    (hr : m'.trace = m.trace.push (.capture m.steps m.configuration r))
    (ho : outcome = .continues ∨ outcome = .halts .loopDetected) : m.Heeds m' outcome where
  applies r' hr' := by
    obtain rfl : r = r' := Option.some.inj (ht ▸ hr')
    exact ⟨hc, hs, hr⟩
  rests hn := by
    rw [ht] at hn
    cases hn
  verdict_iff := by
    rw [ht]
    rcases ho with rfl | rfl <;> simp

theorem heeds_of_step (hh : m.halted = none) (hs : m.steps < m.program.maxSteps)
    (h : m.step = .ok (m', outcome)) : m.Heeds m' outcome := by
  cases stepped_of_step h with
  | rests hr =>
      rw [hh] at hr
      cases hr
  | limit _ hle => exact absurd hs (not_lt.mpr hle)
  | verdict _ _ ht =>
      refine ⟨fun r hr => ?_, fun _ => ⟨rfl, rfl, rfl⟩, iff_of_true ?_ ht⟩
      · rw [ht] at hr
        cases hr
      · exact m.verdict_eq.imp (congrArg Outcome.halts) (congrArg Outcome.halts)
  | unwatched _ _ ht hc | fresh _ _ ht hc => exact heeds_of_apply ht hc rfl rfl (.inl rfl)
  | seen _ _ ht hc => exact heeds_of_apply ht hc rfl rfl (.inr rfl)

end Machine

end TapeMachine
