import TapeMachine.LoopDetector
import TapeMachine.RuleTable
import TapeMachine.Trace

/-!
# Machine

A machine runs one program. `Machine.step` makes at most one step: it halts when the step budget is
used up, when no rule matches, or when the step came to a configuration that a step had come to
before. `Machine.run` steps until the machine halts, which the budget makes sure of.
-/

namespace TapeMachine

/-- Why a run stops. Each of these is an outcome and not an error. -/
inductive HaltReason where
  /-- No rule matches in a final state. -/
  | accepted
  /-- No rule matches in another state. -/
  | rejected
  /-- The step budget is used up. -/
  | stepLimit
  /-- A step came to a configuration that had been seen before. -/
  | loopDetected
  deriving DecidableEq, Repr

/-- What a call of `Machine.step` comes to. -/
inductive Outcome where
  /-- A rule was applied, and the run goes on. -/
  | continues
  /-- The run has stopped. -/
  | halts (reason : HaltReason)
  deriving DecidableEq, Repr

/-- A machine with its program and all that a run changes. -/
structure Machine where
  program : Program
  table : RuleTable
  configuration : Configuration
  detector : LoopDetector
  /-- One entry for each step made. -/
  trace : Array TraceEntry
  /-- The number of steps made. -/
  steps : Nat
  halted : Option HaltReason

namespace Machine

/-- The machine of a program at the start of a run; the first defect of a program that cannot be
run. -/
def ofProgram (p : Program) : Except Defect Machine := do
  p.check
  let table ← RuleTable.ofRules p.rules p.tapeCount
  return ⟨p, table, .initial p, .empty, #[], 0, none⟩

/-- The rule that the next step applies, if any matches. -/
def transition (m : Machine) : Option Rule :=
  m.table.lookup m.configuration.state m.configuration.symbols

/-- How the machine halts when no rule matches. -/
def verdict (m : Machine) : HaltReason :=
  if m.program.isFinal m.configuration.state then .accepted else .rejected

/-- Stops the run. -/
def halt (m : Machine) (reason : HaltReason) : Machine × Outcome :=
  ({ m with halted := some reason }, .halts reason)

/-- Applies a rule, and records the step. -/
def applyRule (m : Machine) (r : Rule) : Except Breakdown Machine :=
  (m.configuration.apply r).map fun c =>
    { m with
      configuration := c
      trace := m.trace.push (.capture m.steps m.configuration r)
      steps := m.steps + 1 }

/-- Watches for a configuration that comes up again, if the program asks for it. -/
def watch (m : Machine) : Machine × Outcome :=
  if m.program.detectLoops then
    let (seen, detector) := m.detector.observe m.configuration
    if seen then { m with detector }.halt .loopDetected else ({ m with detector }, .continues)
  else (m, .continues)

/-- Makes one step, unless the run has stopped or stops here. -/
def step (m : Machine) : Except Breakdown (Machine × Outcome) :=
  match m.halted with
  | some reason => .ok (m, .halts reason)
  | none =>
    if m.program.maxSteps ≤ m.steps then .ok (m.halt .stepLimit)
    else match m.transition with
      | none => .ok (m.halt m.verdict)
      | some r => (m.applyRule r).map watch

/-- A step after which the run goes on used up a step of the budget. -/
theorem steps_of_step_continues {m m' : Machine} (h : m.step = .ok (m', .continues)) :
    m'.program = m.program ∧ m'.steps = m.steps + 1 ∧ m.steps < m.program.maxSteps := by
  unfold step at h
  split at h
  · simp at h
  · split at h
    · simp [halt] at h
    · split at h
      · simp [halt] at h
      · next r _ =>
        cases hc : m.configuration.apply r with
        | error e => simp [applyRule, hc, Except.map] at h
        | ok c =>
          simp only [applyRule, hc, Except.map, Except.ok.injEq, watch, halt] at h
          split at h
          · split at h
            · simp at h
            · simp only [Prod.mk.injEq] at h
              obtain ⟨rfl, -⟩ := h
              exact ⟨rfl, rfl, by omega⟩
          · simp only [Prod.mk.injEq] at h
            obtain ⟨rfl, -⟩ := h
            exact ⟨rfl, rfl, by omega⟩

/-- Makes so many calls of `step`, and gives what the last of them came to. -/
def stepMany : (calls : Nat) → Machine → Except Breakdown (Machine × Outcome)
  | 0, m => .ok (m, .continues)
  | 1, m => m.step
  | calls + 2, m =>
    match m.step with
    | .error e => .error e
    | .ok (m, _) => stepMany (calls + 1) m

/-- Steps until the run stops. -/
def run (m : Machine) : Except Breakdown (Machine × HaltReason) :=
  match _h : m.step with
  | .error e => .error e
  | .ok (m, .halts reason) => .ok (m, reason)
  | .ok (m, .continues) => run m
termination_by m.program.maxSteps - m.steps
decreasing_by
  obtain ⟨hp, hs, hlt⟩ := steps_of_step_continues _h
  rw [hp, hs]
  omega

/-- Goes back to the start of the run, and forgets what has been seen. -/
def reset (m : Machine) : Machine :=
  { m with
    configuration := .initial m.program
    detector := .empty
    trace := #[]
    steps := 0
    halted := none }

end Machine

/-- A run that has stopped. -/
structure Execution where
  halt : HaltReason
  configuration : Configuration
  /-- The number of steps made. -/
  totalSteps : Nat
  /-- One entry for each step made. -/
  trace : Array TraceEntry

namespace Execution

/-- Whether the run accepted. -/
def accepted (e : Execution) : Bool := e.halt == .accepted

/-- The state in which the run stopped. -/
def finalState (e : Execution) : State := e.configuration.state

/-- What the windows of the tapes hold in the end. -/
def finalTapes (e : Execution) : List Word := e.configuration.tapes.map (·.contents)

/-- The outcome in words. -/
def message (e : Execution) : String :=
  match e.halt with
  | .accepted => s!"Accepted in state {e.finalState}"
  | .rejected => s!"Rejected in state {e.finalState}"
  | .stepLimit => s!"Stopped after {e.totalSteps} steps (step limit)"
  | .loopDetected =>
    s!"Infinite loop detected at step {e.totalSteps} (configuration repeated)"

end Execution

/-- Runs a machine until it stops. -/
def Machine.execute (m : Machine) : Except Breakdown Execution :=
  m.run.map fun (m, halt) => ⟨halt, m.configuration, m.steps, m.trace⟩

end TapeMachine
