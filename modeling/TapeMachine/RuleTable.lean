import TapeMachine.Program.Defect
import Std.Data.HashMap

/-!
# Rule table

An index over the rules of a program, which finds the rule for a state and the symbols read without
going through all rules. Of several rules for the same state and symbols the first one is found; the
others are shadowed.
-/

namespace TapeMachine

/-- What a rule is found by: a state and the symbols read. -/
abbrev RuleKey := State × Word

/-- What a rule is found by. -/
def Rule.key (r : Rule) : RuleKey := (r.state, r.read)

/-- The rules of a program with an index over them. -/
structure RuleTable where
  rules : List Rule
  /-- The first rule of each key, and its place among the rules. -/
  index : Std.HashMap RuleKey (Nat × Rule)
  /-- The states that have rules. -/
  states : Std.HashMap State Unit
  /-- The places of the rules that can never be found, in ascending order. -/
  shadowed : List Nat

namespace RuleTable

/-- The index while it is built. -/
structure Building where
  index : Std.HashMap RuleKey (Nat × Rule) := ∅
  states : Std.HashMap State Unit := ∅
  /-- The shadowed places, last one first. -/
  shadowed : List Nat := []

/-- Adds the rule at place `i`. -/
def Building.add (b : Building) (i : Nat) (r : Rule) : Building :=
  if b.index.contains r.key then { b with shadowed := i :: b.shadowed }
  else { b with index := b.index.insert r.key (i, r), states := b.states.insert r.state () }

/-- Adds rules, the first of them the one at place `i`, and checks that each is written for so many
tapes. -/
def Building.addAll (tapes : Nat) (b : Building) : (i : Nat) → List Rule → Except Defect Building
  | _, [] => .ok b
  | i, r :: rules => do
    r.checkArity i tapes
    (b.add i r).addAll tapes (i + 1) rules

/-- The table of rules, all of which have to be written for so many tapes. -/
def ofRules (rules : List Rule) (tapes : Nat) : Except Defect RuleTable := do
  let b ← ({} : Building).addAll tapes 0 rules
  return ⟨rules, b.index, b.states, b.shadowed.reverse⟩

/-- The rule for a state and the symbols read, with its place among the rules. -/
def find? (t : RuleTable) (state : State) (read : Word) : Option (Nat × Rule) :=
  t.index[(state, read)]?

/-- The rule for a state and the symbols read. -/
def lookup (t : RuleTable) (state : State) (read : Word) : Option Rule :=
  (t.find? state read).map Prod.snd

/-- Whether any rule is for that state. -/
def hasRulesFor (t : RuleTable) (state : State) : Bool := t.states.contains state

end RuleTable

end TapeMachine
