import TapeMachine.Program.Reach
import TapeMachine.Text.Quoted

/-!
# Program — Findings

What is allowed in a program but is most likely a mistake. `Program.findings` lists the findings
kind by kind: an initial state without rules, states that are never reached, rules that come after
another one for the same state and symbols, and final states that no rule goes to.
-/

namespace TapeMachine

/-- Something that is most likely a mistake. -/
inductive Finding where
  | initialStateWithoutRules (state : State)
  | unreachableStates (states : List State)
  | shadowedRule (index : Nat) (state : State) (read : Word)
  | unreachableFinalStates (states : List State)
  deriving DecidableEq, Repr

/-- The text of a finding. -/
def Finding.message : Finding → String
  | .initialStateWithoutRules state => s!"Initial state '{state}' has no rules"
  | .unreachableStates states =>
    "Unreachable states detected: " ++ Quoted.list (states.map Quoted.string)
  | .shadowedRule index state read =>
    s!"Transition #{index} in state '{state}' reading " ++ Quoted.list (read.map Quoted.char) ++
      " is shadowed by an earlier rule"
  | .unreachableFinalStates states =>
    "Final states never entered by any transition: " ++ Quoted.list (states.map Quoted.string)

namespace Program

/-- The initial state, if it has no rules. -/
def initialFinding (p : Program) : List Finding :=
  if p.rules.any (·.state = p.initial) then [] else [.initialStateWithoutRules p.initial]

/-- The states with rules that are never reached. -/
def reachFinding (p : Program) : List Finding :=
  match p.unreachableStates.toList with
  | [] => []
  | states => [.unreachableStates states]

/-- The rules whose state and symbols are among the keys `seen` or those of a rule before them. The
first of the rules is the one at `index`. -/
def shadowFindings (seen : List (State × Word)) : (index : Nat) → List Rule → List Finding
  | _, [] => []
  | index, r :: rules =>
    if (r.state, r.read) ∈ seen then
      .shadowedRule index r.state r.read :: shadowFindings seen (index + 1) rules
    else shadowFindings ((r.state, r.read) :: seen) (index + 1) rules

/-- The final states that are not initial and that no rule goes to. -/
def finalFinding (p : Program) : List Finding :=
  let targets := p.rules.map (·.next)
  match p.finals.toList.filter fun s => s ≠ p.initial ∧ s ∉ targets with
  | [] => []
  | states => [.unreachableFinalStates states]

/-- All findings about a program. -/
def findings (p : Program) : List Finding :=
  p.initialFinding ++ p.reachFinding ++ shadowFindings [] 0 p.rules ++ p.finalFinding

end Program

end TapeMachine
