import TapeMachine.Notation.Problem
import TapeMachine.Program.Defect
import TapeMachine.Range
import TapeMachine.Text.Blank

/-!
# Notation — Meaning

The program that a document describes. Sections may come in any order, each kind once; the first
problem in document order is reported. The first block names the initial state; without a section
of final states the states without actions are final. In tapes and actions an underscore stands for
the blank, whatever symbol that is. A name counts without the white space around it.
-/

namespace TapeMachine.Notation

/-- What is kept of the sections read so far. -/
structure Draft where
  seen : List Kind := []
  name : Option (List Char) := none
  blank : Option Symbol := none
  tapes : Option (List Word) := none
  heads : Option (List Int) := none
  finals : Option (List State) := none
  maxSteps : Option Nat := none
  detectLoops : Option Bool := none
  /-- The states of the rules section, each with its rules. -/
  blocks : Option (List (State × List Rule)) := none

/-- The symbol that stands for the blank. -/
def blankMark : Symbol := '_'

/-- A symbol with the blank in the place of its mark. -/
def resolve (blank s : Symbol) : Symbol := if s = blankMark then blank else s

/-- The rule of an action; what is not written is what is read. -/
def Action.rule (state : State) (a : Action) : Rule :=
  ⟨state, a.read, a.write.getD a.read, a.moves, a.next⟩

/-- The rule of an action, which has to be written for one number of tapes. -/
def Action.checkedRule (state : State) (a : Placed Action) : Except (Placed Problem) Rule :=
  let r := a.value.rule state
  if r.read.length = r.write.length ∧ r.read.length = r.moves.length then .ok r
  else .error ⟨a.span, .unevenAction r.read.length r.write.length r.moves.length⟩

/-- The rules of blocks, of which each has to be for a state of its own. `done` holds the blocks
before them, last one first. -/
def Block.rules (done : List (State × List Rule)) :
    List (Placed Block) → Except (Placed Problem) (List (State × List Rule))
  | [] => .ok done.reverse
  | b :: bs => do
    let rules ← b.value.actions.mapM (Action.checkedRule b.value.state)
    if b.value.state ∈ done.map Prod.fst then
      .error ⟨b.span, .duplicateState b.value.state⟩
    else Block.rules ((b.value.state, rules) :: done) bs

/-- The head position that a numeral writes. -/
def headPosition (numeral : Placed (List Char)) : Except (Placed Problem) Int :=
  match Numeral.inRange leastPosition greatestPosition numeral.value with
  | .ok i => .ok i
  | .error fault => .error ⟨numeral.span, .badHead fault⟩

/-- The count that a numeral writes. -/
def stepCount (numeral : Placed (List Char)) : Except (Placed Problem) Nat :=
  match Numeral.inRange 0 greatestCount numeral.value with
  | .ok i => .ok i.toNat
  | .error fault => .error ⟨numeral.span, .badCount fault⟩

namespace Draft

/-- Takes down the tapes, unless there are any already. -/
def addTapes (d : Draft) (span : Span) (contents : List Word) : Except (Placed Problem) Draft :=
  if d.tapes.isSome then .error ⟨span, .exclusiveSections .tape .tapes⟩
  else .ok { d with tapes := some contents }

/-- Takes down the heads, unless there are any already. -/
def addHeads (d : Draft) (span : Span) (positions : List (Placed (List Char))) :
    Except (Placed Problem) Draft :=
  if d.heads.isSome then .error ⟨span, .exclusiveSections .head .heads⟩
  else do
    let heads ← positions.mapM headPosition
    return { d with heads := some heads }

/-- Takes down what a section says, wherever it stands. -/
def addContent (d : Draft) (span : Span) : Section → Except (Placed Problem) Draft
  | .name text => .ok { d with name := some (trim text) }
  | .blank s => .ok { d with blank := some s }
  | .tape content => d.addTapes span [content]
  | .tapes contents => d.addTapes span contents
  | .head position => d.addHeads span [position]
  | .heads positions => d.addHeads span positions
  | .finals states => .ok { d with finals := some states }
  | .maxSteps numeral => do
    let count ← stepCount numeral
    return { d with maxSteps := some count }
  | .detectLoops value => .ok { d with detectLoops := some value }
  | .rules bs => do
    let blocks ← Block.rules [] bs
    return { d with blocks := some blocks }

/-- Takes down a section, which has to be the first one of its kind. -/
def add (d : Draft) (s : Placed Section) : Except (Placed Problem) Draft :=
  if s.value.kind ∈ d.seen then .error ⟨s.span, .duplicateSection s.value.kind⟩
  else { d with seen := s.value.kind :: d.seen }.addContent s.span s.value

/-- Takes down all sections of a document. -/
def ofDocument (sections : Document) : Except (Placed Problem) Draft :=
  sections.foldlM add {}

/-- The program of a draft, if the draft has all that a program needs. -/
def program (d : Draft) : Except Missing Program :=
  match d.name, d.tapes, d.blocks with
  | none, _, _ => .error .name
  | _, none, _ => .error .tapes
  | _, _, none => .error .rules
  | _, _, some [] => .error .states
  | some name, some tapes, some ((initial, first) :: more) =>
    let blocks := (initial, first) :: more
    let blank := d.blank.getD defaultBlank
    .ok {
      name := String.ofList name
      initial
      finals := .ofList (d.finals.getD ((blocks.filter (·.2.isEmpty)).map Prod.fst))
      blank
      tapes := tapes.map (·.map (resolve blank))
      heads := d.heads.getD (tapes.map fun _ => 0)
      tapeCount := tapes.length
      rules := (blocks.flatMap Prod.snd).map fun r =>
        { r with read := r.read.map (resolve blank), write := r.write.map (resolve blank) }
      maxSteps := d.maxSteps.getD defaultMaxSteps
      detectLoops := d.detectLoops.getD true }

end Draft

end TapeMachine.Notation
