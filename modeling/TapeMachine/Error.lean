import TapeMachine.Json.Decode
import TapeMachine.Notation.Problem
import TapeMachine.Program.Defect

/-!
# Error

Why a program cannot be had.  The whole text of an error has its kind in front.  What is wrong with
a text or a request document is told by those who read it, in words of their own (`Wording`).
-/

namespace TapeMachine

/-- Why a program that is well formed is not taken. -/
inductive Invalid where
  /-- The text of the program lacks something. -/
  | missing (what : Notation.Missing)
  /-- The request gives no tape. -/
  | noTape
  /-- The rule at `index` of the request gives no symbols to read. -/
  | noRead (index : Nat) (state : State)
  | noWrite (index : Nat) (state : State)
  | noMoves (index : Nat) (state : State)
  /-- The step budget is beyond a limit. -/
  | budget (asked limit : Nat)
  /-- There are more tapes than a limit allows. -/
  | tapes (asked limit : Nat)
  /-- The text is longer than a limit allows. -/
  | size (bytes limit : Nat)
  /-- The library has no program of that name. -/
  | unknownName (name : String)
  /-- The library has no program with that number. -/
  | unknownIndex (index : Nat)
  /-- The library has no text with that number. -/
  | unknownText (index : Nat)
  deriving DecidableEq

/-- The text of the reason. -/
def Invalid.message : Invalid → String
  | .missing what => what.message
  | .noTape => "At least one tape must be given (initial_tape or initial_tapes)"
  | .noRead index state => s!"Transition #{index} from state '{state}' has no read symbols"
  | .noWrite index state => s!"Transition #{index} from state '{state}' has no write symbols"
  | .noMoves index state => s!"Transition #{index} from state '{state}' has no move directions"
  | .budget asked limit => s!"Step budget {asked} exceeds the limit of {limit}"
  | .tapes asked limit => s!"{asked} tapes requested, at most {limit} are supported"
  | .size bytes limit => s!"Program is {bytes} bytes, the limit is {limit} bytes"
  | .unknownName name => s!"Program '{name}' not found"
  | .unknownIndex index => s!"Program index {index} out of range"
  | .unknownText index => s!"Program text index {index} out of range"

/-- Why a file or directory cannot be read. -/
inductive ReadFault where
  | notFound
  | notADirectory
  | isADirectory
  | nameTooLong
  /-- The path holds a character that no path can hold. -/
  | nulInPath
  | notUtf8
  /-- Any other fault, in the words of the system. -/
  | other (text : String)
  deriving DecidableEq

/-- The text of the fault. -/
def ReadFault.message : ReadFault → String
  | .notFound => "No such file or directory (os error 2)"
  | .notADirectory => "Not a directory (os error 20)"
  | .isADirectory => "Is a directory (os error 21)"
  | .nameTooLong => "File name too long (os error 36)"
  | .nulInPath => "file name contained an unexpected NUL byte"
  | .notUtf8 => "stream did not contain valid UTF-8"
  | .other text => text

/-- Why a program cannot be had. -/
inductive Error where
  /-- The parts of the program do not fit together. -/
  | structural (defect : Defect)
  /-- The text of the program has a problem. -/
  | unreadable (place : Notation.Extent) (problem : Notation.Problem)
  | invalid (reason : Invalid)
  /-- The request document has a fault. -/
  | request (fault : Json.Fault)
  | file (path : String) (fault : ReadFault)
  | noDirectory (path : String)
  | directory (path : String) (fault : ReadFault)
  /-- A program file of a directory cannot be loaded. -/
  | program (path : String) (cause : Error)
  deriving DecidableEq

/-- The words of those who read texts and request documents. -/
structure Wording where
  /-- What is wrong with a text, and where. -/
  problem : Notation.Extent → Notation.Problem → String
  /-- What is wrong with a request document. -/
  fault : Json.Fault → String

/-- Plain words.  The reader of texts shows the line in question as well, and the reader of
documents adds a place. -/
def Wording.plain : Wording where
  problem place problem :=
    s!"line {place.line}, column {place.column}: " ++ problem.message.getD "unexpected input"
  fault := Json.Fault.message

namespace Error

/-- The text of an error, in words for what readers have to say. -/
def messageIn (w : Wording) : Error → String
  | .structural defect => "Structural error: " ++ defect.message
  | .unreadable place problem => "Program parsing error: " ++ w.problem place problem
  | .invalid reason => "Program validation error: " ++ reason.message
  | .request fault => "Invalid request: " ++ w.fault fault
  | .file path fault => s!"File error: Failed to read file {path}: " ++ fault.message
  | .noDirectory path => s!"File error: Directory {path} does not exist"
  | .directory path fault => s!"File error: Failed to read directory {path}: " ++ fault.message
  | .program path cause =>
    s!"File error: Failed to load program from {path}: " ++ cause.messageIn w

/-- The text of an error, in plain words. -/
def message : Error → String := messageIn .plain

/-- The text of what is behind an error, if its own text only repeats that. -/
def causeIn? (w : Wording) : Error → Option String
  | .structural defect => some defect.message
  | .unreadable place problem => some (w.problem place problem)
  | _ => none

/-- The text of what is behind an error, in plain words. -/
def cause? : Error → Option String := causeIn? .plain

end Error

end TapeMachine
