import TapeMachine.Program

/-!
# Program — Reach

The states that the rules of a program lead to from its initial state, whatever the symbols. The
search goes depth first: it takes a state from a stack, and if it meets that state for the first
time puts the next states of its rules on the stack. Each rule puts at most one state there, so the
stack is empty after one turn more than there are rules (`Search.run`).
-/

namespace TapeMachine

/-- A search under way: the states to look at, next one first, and those met so far. -/
structure Search where
  stack : List State
  visited : List State

namespace Search

/-- Before the first turn. -/
def start (initial : State) : Search := ⟨[initial], []⟩

/-- The next states of the rules of a state, in the order of the rules. -/
def successors (rules : List Rule) (s : State) : List State :=
  (rules.filter (·.state = s)).map (·.next)

/-- Takes one state from the stack; nothing if the stack is empty. -/
def step (rules : List Rule) (search : Search) : Option Search :=
  match search.stack with
  | [] => none
  | s :: stack =>
    if s ∈ search.visited then some { search with stack }
    else
      let visited := s :: search.visited
      let fresh := (successors rules s).filter (· ∉ visited)
      some ⟨fresh.reverse ++ stack, visited⟩

/-- Takes states from the stack until it is empty, at most so many. -/
def run (rules : List Rule) : (turns : Nat) → Search → Search
  | 0, search => search
  | turns + 1, search =>
    match search.step rules with
    | none => search
    | some search => run rules turns search

end Search

namespace Program

/-- The states that the search meets from the initial state. -/
def reached (p : Program) : List State :=
  ((Search.start p.initial).run p.rules (p.rules.length + 1)).visited

/-- The states that have rules but are never met. -/
def unreachableStates (p : Program) : StateSet :=
  let reached := p.reached
  .ofList ((p.rules.map (·.state)).filter (· ∉ reached))

end Program

end TapeMachine
