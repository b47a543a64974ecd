import TapeMachine.Program.Defect
import TapeMachine.Range

/-!
# Configuration

What a machine is at one moment: its state, and a tape with a head for each of its tapes. Applying a
rule writes, moves and goes to the next state, whether the rule matches or not; a head stops at the
least and at the greatest position.
-/

namespace TapeMachine

/-- The position that a head comes to by a move. -/
def Move.apply (m : Move) (head : Int) : Int :=
  max leastPosition (min greatestPosition (head + m.offset))

/-- A tape with its head. -/
structure Track where
  tape : Tape
  head : Int
  deriving DecidableEq, Repr

namespace Track

/-- The symbol under the head. -/
def symbol (t : Track) : Symbol := t.tape.read t.head

/-- Writes a symbol under the head and then moves the head. -/
def apply (t : Track) (s : Symbol) (m : Move) : Except Breakdown Track :=
  (t.tape.write t.head s).map fun tape => ⟨tape, m.apply t.head⟩

/-- Writes and moves on each of a list of tracks. Symbols and moves beyond the last track are left
alone. -/
def applyAll : List Track → Word → List Move → Except Breakdown (List Track)
  | [], _, _ => .ok []
  | t :: ts, s :: ss, m :: ms => do
    let t ← t.apply s m
    let ts ← applyAll ts ss ms
    return t :: ts
  | _ :: _, _, _ => .error .ruleTooShort

end Track

/-- A state, and the tapes with their heads. -/
structure Configuration where
  state : State
  tracks : List Track
  deriving DecidableEq, Repr

namespace Configuration

/-- The configuration with these tapes and heads, if there are as many heads as tapes. -/
def ofParts (state : State) (tapes : List Tape) (heads : List Int) :
    Except Defect Configuration :=
  if tapes.length = heads.length then .ok ⟨state, List.zipWith Track.mk tapes heads⟩
  else .error (.headCount tapes.length heads.length)

/-- The configuration in which a program starts. -/
def initial (p : Program) : Configuration :=
  ⟨p.initial, List.zipWith (fun content head => ⟨.ofWord content p.blank, head⟩) p.tapes p.heads⟩

/-- The tapes. -/
def tapes (c : Configuration) : List Tape := c.tracks.map (·.tape)

/-- The positions of the heads. -/
def heads (c : Configuration) : List Int := c.tracks.map (·.head)

/-- The symbols under the heads. -/
def symbols (c : Configuration) : Word := c.tracks.map (·.symbol)

/-- The windows of the tapes. -/
def windows (c : Configuration) : List Window := c.tracks.map (·.tape.window)

/-- Writes and moves on each tape as a rule says, and goes to its next state. -/
def apply (c : Configuration) (r : Rule) : Except Breakdown Configuration :=
  (Track.applyAll c.tracks r.write r.moves).map fun tracks => ⟨r.next, tracks⟩

end Configuration

end TapeMachine
