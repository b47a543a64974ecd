import TapeMachine.Json.Value
import TapeMachine.Library

/-!
# Library — Wire format

What is found out about programs, as JSON: findings by their kind, and what there is to know about a
program of the library.
-/

namespace TapeMachine

/-- A finding, its kind in front. -/
def Finding.toJson : Finding → Json
  | .initialStateWithoutRules state =>
    .record [("kind", .text "initial_state_without_rules"), ("state", .text state)]
  | .unreachableStates states =>
    .record [("kind", .text "unreachable_states"), ("states", .list .text states)]
  | .shadowedRule index state read =>
    .record [("kind", .text "shadowed_rule"), ("index", .nat index), ("state", .text state),
      ("read", .list .char read)]
  | .unreachableFinalStates states =>
    .record [("kind", .text "unreachable_final_states"), ("states", .list .text states)]

/-- What there is to know about a program. -/
def ProgramInfo.toJson (i : ProgramInfo) : Json :=
  .record [
    ("index", .nat i.index),
    ("name", .text i.name),
    ("initial_state", .text i.initial),
    ("initial_tapes", .list .chars i.tapes),
    ("num_tapes", .nat i.tapeCount),
    ("state_count", .nat i.stateCount),
    ("transition_count", .nat i.ruleCount),
    ("diagnostics", .list Finding.toJson i.findings)]

end TapeMachine
