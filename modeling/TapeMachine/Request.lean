import TapeMachine.Limits
import TapeMachine.Machine

/-!
# Request

A request to run a program, as it comes from outside: tapes, heads and rules may be given singly or
in lists, and most parts may be missing. `Request.program` makes a program of a request;
`Request.ofProgram` writes a program as a request, singly where it can.
-/

namespace TapeMachine

/-- A rule of a request. Each of its three parts is given singly, or as a list, which counts if both
are given. -/
structure RequestRule where
  current : State
  next : State
  readSymbol : Option Symbol
  writeSymbol : Option Symbol
  move : Option Move
  readSymbols : Option Word
  writeSymbols : Option Word
  moves : Option (List Move)
  deriving DecidableEq, Repr

/-- A request. The list of tapes counts if a single tape is given too, and the list of heads
likewise. -/
structure Request where
  name : Option String
  tape : Option Word
  tapes : Option (List Word)
  /-- The number of tapes that the rules are written for, unless it is that of the tapes. -/
  tapeCount : Option Nat
  blank : Symbol
  initial : State
  finals : List State
  rules : List RequestRule
  maxSteps : Nat
  head : Option Int
  heads : Option (List Int)
  detectLoops : Bool
  deriving DecidableEq, Repr

/-- The list, or else the list of the single item. -/
def pick {α : Type} (many : Option (List α)) (one : Option α) : Option (List α) :=
  many <|> one.map ([·])

/-- What is there, or else an error. -/
def orInvalid {α : Type} (a : Option α) (reason : Invalid) : Except Error α :=
  match a with
  | some a => .ok a
  | none => .error (.invalid reason)

namespace RequestRule

/-- The rule at place `index` of a request. -/
def rule (r : RequestRule) (index : Nat) : Except Error Rule := do
  let read ← orInvalid (pick r.readSymbols r.readSymbol) (.noRead index r.current)
  let write ← orInvalid (pick r.writeSymbols r.writeSymbol) (.noWrite index r.current)
  let moves ← orInvalid (pick r.moves r.move) (.noMoves index r.current)
  return ⟨r.current, read, write, moves, r.next⟩

/-- The rules of a request, the first of them the one at place `index`. -/
def rulesFrom : (index : Nat) → List RequestRule → Except Error (List Rule)
  | _, [] => .ok []
  | index, r :: rs => do
    let rule ← r.rule index
    let rules ← rulesFrom (index + 1) rs
    return rule :: rules

/-- A rule in a request: singly if it reads, writes and moves once, in lists if not. -/
def ofRule (r : Rule) : RequestRule :=
  match r.read, r.write, r.moves with
  | [read], [write], [move] =>
    ⟨r.state, r.next, some read, some write, some move, none, none, none⟩
  | read, write, moves => ⟨r.state, r.next, none, none, none, some read, some write, some moves⟩

end RequestRule

namespace Request

/-- The heads of a request for so many tapes: a single head is that of the first tape. -/
def headsFor (r : Request) (tapes : Nat) : List Int :=
  match r.heads with
  | some heads => heads
  | none => match tapes with
    | 0 => []
    | n + 1 => r.head.getD 0 :: List.replicate n 0

/-- The name of a program whose request gives none. -/
def defaultName : String := "request"

/-- The program that a request asks for, before any check. -/
def draft (r : Request) : Except Error Program := do
  let tapes ← orInvalid (pick r.tapes r.tape) .noTape
  let rules ← RequestRule.rulesFrom 0 r.rules
  return {
    name := r.name.getD defaultName
    initial := r.initial
    finals := .ofList r.finals
    blank := r.blank
    tapes
    heads := r.headsFor tapes.length
    tapeCount := r.tapeCount.getD tapes.length
    rules
    maxSteps := r.maxSteps
    detectLoops := r.detectLoops }

/-- The program that a request asks for, if it is within limits and has no defects. -/
def program (r : Request) (limits : Limits) : Except Error Program := do
  let p ← r.draft
  limits.check p
  p.check.mapError Error.structural
  return p

/-- The request for a program. -/
def ofProgram (p : Program) : Request :=
  let single := p.isSingleTape
  { name := some p.name
    tape := if single then some p.firstTape else none
    tapes := if single then none else some p.tapes
    tapeCount := some p.tapeCount
    blank := p.blank
    initial := p.initial
    finals := p.finals.toList
    rules := p.rules.map .ofRule
    maxSteps := p.maxSteps
    head := if single then some p.firstHead else none
    heads := if single then none else some p.heads
    detectLoops := p.detectLoops }

end Request

/-- The answer to a request: how the run ended, and all of its steps. -/
structure Response where
  success : Bool
  accepted : Bool
  finalState : State
  finalTapes : List Word
  totalSteps : Nat
  halted : Bool
  haltReason : HaltReason
  loopDetected : Bool
  /-- The time that the run took, in seconds. -/
  executionTime : NumberLiteral
  message : String
  tapeCount : Nat
  steps : List TraceEntry
  deriving DecidableEq, Repr

/-- The answer for a run, whose time is not measured. -/
def Response.ofExecution (e : Execution) : Response :=
  { success := true
    accepted := e.accepted
    finalState := e.finalState
    finalTapes := e.finalTapes
    totalSteps := e.totalSteps
    halted := true
    haltReason := e.halt
    loopDetected := e.halt == .loopDetected
    executionTime := .ofNat 0
    message := e.message
    tapeCount := e.configuration.tracks.length
    steps := e.trace.toList }

/-- Why a request has no answer. -/
inductive Failure where
  | error (e : Error)
  | breakdown (b : Breakdown)
  deriving DecidableEq

/-- Runs the program that a request asks for. -/
def Request.simulate (r : Request) : Except Failure Response := do
  let p ← (r.program {}).mapError Failure.error
  let m ← (Machine.ofProgram p).mapError (Failure.error ∘ Error.structural)
  let e ← m.execute.mapError Failure.breakdown
  return .ofExecution e

end TapeMachine
