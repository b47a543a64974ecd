import TapeMachine.Program

/-!
# Program — Defects

What keeps a program from being run. `Program.check` looks for the defects in a fixed order and
gives the first one it finds.
-/

namespace TapeMachine

/-- A way in which the parts of a program do not fit together. -/
inductive Defect where
  | noTapes
  | tapeCount (expected actual : Nat)
  | headCount (expected actual : Nat)
  /-- A head starts too far from the content of its tape. -/
  | headOutOfRange (tape : Nat) (position : Int)
  /-- A rule reads, writes or moves on a number of tapes other than `expected`. -/
  | ruleArity (index : Nat) (state : State) (read write moves expected : Nat)
  | noFinalStates
  | noSteps
  deriving DecidableEq, Repr

/-- How far from the content of its tape a head may start. -/
def maxHeadOffset : Nat := 10000

/-- The text of a defect. -/
def Defect.message : Defect → String
  | .noTapes => "No tapes defined"
  | .tapeCount expected actual => s!"Expected {expected} initial tapes, got {actual}"
  | .headCount expected actual =>
    s!"Number of head positions ({actual}) does not match number of tapes ({expected})"
  | .headOutOfRange tape position =>
    s!"Head {tape} starts at {position}, more than {maxHeadOffset} cells outside its tape"
  | .ruleArity index state read write moves expected =>
    s!"Transition #{index} in state '{state}' has {read} read symbols, {write} write symbols " ++
      s!"and {moves} moves; expected {expected} of each"
  | .noFinalStates => "At least one final state is required"
  | .noSteps => "Step budget must be at least 1"

namespace Rule

/-- Whether the rule reads, writes and moves on that many tapes. -/
def HasArity (r : Rule) (tapes : Nat) : Prop :=
  r.read.length = tapes ∧ r.write.length = tapes ∧ r.moves.length = tapes

instance (r : Rule) (tapes : Nat) : Decidable (r.HasArity tapes) :=
  inferInstanceAs (Decidable (_ ∧ _))

/-- Checks that the rule, the one at `index`, is written for that many tapes. -/
def checkArity (r : Rule) (index tapes : Nat) : Except Defect Unit :=
  if r.HasArity tapes then .ok ()
  else .error (.ruleArity index r.state r.read.length r.write.length r.moves.length tapes)

/-- Checks rules, the first of them the one at `index`. -/
def checkArities (tapes : Nat) : (index : Nat) → List Rule → Except Defect Unit
  | _, [] => .ok ()
  | index, r :: rules => do
    r.checkArity index tapes
    checkArities tapes (index + 1) rules

end Rule

namespace Program

/-- There is a tape at least, and as many as the rules are written for. -/
def checkTapes (p : Program) : Except Defect Unit :=
  if p.tapeCount = 0 ∨ p.tapes = [] then .error .noTapes
  else if p.tapes.length ≠ p.tapeCount then .error (.tapeCount p.tapeCount p.tapes.length)
  else .ok ()

/-- There are as many heads as the rules are written for. -/
def checkHeads (p : Program) : Except Defect Unit :=
  if p.heads.length ≠ p.tapeCount then .error (.headCount p.tapeCount p.heads.length) else .ok ()

/-- Each head, the first of them that of `tape`, starts near the content of its tape. -/
def checkHeadRange : (tape : Nat) → List Word → List Int → Except Defect Unit
  | tape, content :: contents, head :: heads =>
    if head < -maxHeadOffset ∨ content.length + maxHeadOffset < head then
      .error (.headOutOfRange tape head)
    else checkHeadRange (tape + 1) contents heads
  | _, _, _ => .ok ()

/-- There is a final state. -/
def checkFinals (p : Program) : Except Defect Unit :=
  if p.finals.toList = [] then .error .noFinalStates else .ok ()

/-- A step may be made. -/
def checkBudget (p : Program) : Except Defect Unit :=
  if p.maxSteps = 0 then .error .noSteps else .ok ()

/-- The first defect of a program, if it has any. -/
def check (p : Program) : Except Defect Unit := do
  p.checkTapes
  p.checkHeads
  checkHeadRange 0 p.tapes p.heads
  Rule.checkArities p.tapeCount 0 p.rules
  p.checkFinals
  p.checkBudget

end Program

end TapeMachine
