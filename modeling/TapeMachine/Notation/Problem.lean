import TapeMachine.Decimal.Numeral
import TapeMachine.Notation.Document

/-!
# Notation — Problems

What can be wrong with a text, and where in the text it is.
-/

namespace TapeMachine.Notation

/-- What is wrong at a place of a text. -/
inductive Problem where
  /-- The grammar knows nothing that could stand here. -/
  | unexpected
  /-- A second section of a kind. -/
  | duplicateSection (kind : Kind)
  /-- A second section for the same thing, of the other of two kinds. -/
  | exclusiveSections (one other : Kind)
  | badHead (fault : NumeralFault)
  | badCount (fault : NumeralFault)
  /-- A second block for a state. -/
  | duplicateState (state : State)
  /-- Lists of different lengths in one action. -/
  | unevenAction (read write moves : Nat)
  deriving DecidableEq, Repr

/-- The text of a problem, if it has one beside its place. -/
def Problem.message : Problem → Option String
  | .unexpected => none
  | .duplicateSection kind => some ("Duplicate \"" ++ kind.label ++ ":\" declaration")
  | .exclusiveSections one other => some s!"Only one of '{one.label}' or '{other.label}' is allowed"
  | .badHead fault => some s!"Invalid head position: {fault.message}"
  | .badCount fault => some s!"Invalid number: {fault.message}"
  | .duplicateState state => some s!"Duplicate transition rule: {state}"
  | .unevenAction read write moves => some
    s!"Inconsistent multi-tape action: read={read}, write={write}, directions={moves}"

/-- What a document lacks. -/
inductive Missing where
  | name
  | tapes
  | rules
  /-- There is a section of rules, but it has no blocks. -/
  | states
  deriving DecidableEq, Repr

/-- The text of what is missing. -/
def Missing.message : Missing → String
  | .name => "Missing 'name' section"
  | .tapes => "Missing 'tape' or 'tapes' section"
  | .rules => "Missing 'rules' section"
  | .states => "The 'rules' section has no states"

/-- A line of a text and a column in it, both counted from 1. -/
structure Position where
  line : Nat
  column : Nat
  deriving DecidableEq, Repr

namespace Position

/-- The position after some text that starts at a position. A line ends with a line feed, before
which there may be a carriage return; a carriage return alone is a character of its line. -/
def after (p : Position) : List Char → Position
  | [] => p
  | '\r' :: '\n' :: cs => after ⟨p.line + 1, 1⟩ cs
  | '\n' :: cs => after ⟨p.line + 1, 1⟩ cs
  | _ :: cs => after ⟨p.line, p.column + 1⟩ cs

/-- The position of the character with that many characters before it. -/
def ofOffset (text : List Char) (offset : Nat) : Position :=
  (Position.mk 1 1).after (text.take offset)

end Position

/-- Where in a text something is wrong: a position, and the one at which what is wrong ends, if that
is known. -/
structure Extent extends Position where
  stop : Option Position
  deriving DecidableEq, Repr

namespace Extent

/-- The place of the character with that many characters before it. -/
def ofOffset (text : List Char) (offset : Nat) : Extent := ⟨.ofOffset text offset, none⟩

/-- The place of a part of a text. -/
def ofSpan (text : List Char) (span : Span) : Extent :=
  ⟨.ofOffset text span.start, some (.ofOffset text span.stop)⟩

end Extent

end TapeMachine.Notation
