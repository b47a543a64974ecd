import TapeMachine.Notation.Reader
import TapeMachine.Program

/-!
# Notation — Documents

What the text of a program says, section by section, before it is checked that the sections belong
together. What an error message may have to point at is placed.
-/

namespace TapeMachine.Notation

/-- One line of a state block: what is read, what is written unless that is the same, the moves and
the next state. -/
structure Action where
  read : Word
  write : Option Word
  moves : List Move
  next : State
  deriving DecidableEq, Repr

/-- The actions of one state. -/
structure Block where
  state : State
  actions : List (Placed Action)
  deriving DecidableEq, Repr

/-- A section of a document. Numbers are kept by their digits, and a sign in front. -/
inductive Section where
  | name (text : List Char)
  | blank (symbol : Symbol)
  | tape (content : Word)
  | tapes (contents : List Word)
  | head (position : Placed (List Char))
  | heads (positions : List (Placed (List Char)))
  | finals (states : List State)
  | maxSteps (count : Placed (List Char))
  | detectLoops (value : Bool)
  | rules (blocks : List (Placed Block))
  deriving DecidableEq, Repr

/-- The sections of a text, in its order. -/
abbrev Document := List (Placed Section)

/-- The kinds of sections. -/
inductive Kind where
  | name | blank | tape | tapes | head | heads | finals | maxSteps | detectLoops | rules
  deriving DecidableEq, Repr

/-- What error messages call a kind of section. -/
def Kind.label : Kind → String
  | .name => "name"
  | .blank => "blank"
  | .tape => "tape"
  | .tapes => "tapes"
  | .head => "head"
  | .heads => "heads"
  | .finals => "final_states"
  | .maxSteps => "max_steps"
  | .detectLoops => "detect_loops"
  | .rules => "rules"

/-- The kind of a section. -/
def Section.kind : Section → Kind
  | .name _ => .name
  | .blank _ => .blank
  | .tape _ => .tape
  | .tapes _ => .tapes
  | .head _ => .head
  | .heads _ => .heads
  | .finals _ => .finals
  | .maxSteps _ => .maxSteps
  | .detectLoops _ => .detectLoops
  | .rules _ => .rules

end TapeMachine.Notation
