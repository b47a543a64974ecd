import TapeMachine.StateSet
import TapeMachine.Tape

/-!
# Program

Programs of a deterministic machine with one or more tapes: how the tapes and heads start, and what
the machine does in a state at the symbols under its heads.
-/

namespace TapeMachine

/-- Where a head goes after a write. -/
inductive Move where
  | left
  | right
  | stay
  deriving DecidableEq, Repr

namespace Move

/-- How far a move takes a head to the right. -/
def offset : Move → Int
  | .left => -1
  | .right => 1
  | .stay => 0

/-- The letter of a move. -/
def letter : Move → String
  | .left => "L"
  | .right => "R"
  | .stay => "N"

end Move

/-- What the machine does in `state` when it reads `read` from its tapes: it writes one symbol and
makes one move on each tape, and goes to the state `next`. -/
structure Rule where
  state : State
  read : Word
  write : Word
  moves : List Move
  next : State
  deriving DecidableEq, Repr

/-- What a rule does, in words: `write 1, move R, goto q1`, with brackets around the symbols and
moves unless there is one of each. -/
def Rule.describe (r : Rule) : String :=
  match r.write, r.moves with
  | [s], [m] => s!"write {s}, move {m.letter}, goto {r.next}"
  | ss, ms =>
    let written := ", ".intercalate (ss.map String.singleton)
    let moved := ", ".intercalate (ms.map Move.letter)
    s!"write [{written}], move [{moved}], goto {r.next}"

/-- The blank symbol of a program that names none. -/
def defaultBlank : Symbol := '_'

/-- The step budget of a program that names none. -/
def defaultMaxSteps : Nat := 1000

/-- A program. Its parts need not fit together: `Program.check` says whether they do. -/
structure Program where
  name : String
  initial : State
  /-- The states in which to halt is to accept. -/
  finals : StateSet
  blank : Symbol
  /-- What each tape holds at the start, from position 0 onwards. -/
  tapes : List Word
  /-- Where each head starts. -/
  heads : List Int
  /-- The number of tapes that rules are written for. -/
  tapeCount : Nat
  /-- The rules; of two for the same state and symbols the first one counts. -/
  rules : List Rule
  /-- The number of steps after which a run is stopped. -/
  maxSteps : Nat
  /-- Whether a run is stopped when a configuration comes up again. -/
  detectLoops : Bool
  deriving DecidableEq

namespace Program

/-- What the first tape holds at the start. -/
def firstTape (p : Program) : Word := p.tapes.headD []

/-- Where the first head starts. -/
def firstHead (p : Program) : Int := p.heads.headD 0

/-- Whether the rules are written for one tape. -/
def isSingleTape (p : Program) : Bool := p.tapeCount == 1

/-- Whether to halt in a state is to accept. -/
def isFinal (p : Program) (s : State) : Bool := s ∈ p.finals

/-- Every state that the program mentions. -/
def states (p : Program) : StateSet :=
  .ofList (p.initial :: p.finals.toList ++ p.rules.flatMap fun r => [r.state, r.next])

end Program

end TapeMachine
