import TapeMachine.Configuration

/-!
# Trace

What is kept of each step of a run: a snapshot of the configuration just before the step, and what
the step did.
-/

namespace TapeMachine

/-- A snapshot of a configuration, and the step that was made in it. -/
structure TraceEntry where
  /-- The number of steps made before. -/
  number : Nat
  state : State
  /-- What the windows of the tapes hold. -/
  contents : List Word
  /-- Where the windows of the tapes start. -/
  origins : List Int
  heads : List Int
  /-- The symbols under the heads. -/
  symbols : Word
  /-- What the rule did, in words. -/
  action : String
  deriving DecidableEq, Repr

/-- The entry for a rule that is about to be applied. -/
def TraceEntry.capture (number : Nat) (c : Configuration) (r : Rule) : TraceEntry :=
  let windows := c.windows
  { number, state := c.state, contents := windows.map (·.content),
    origins := windows.map (·.origin), heads := c.heads, symbols := c.symbols,
    action := r.describe }

end TapeMachine
