import TapeMachine.CommandLine.Options
import TapeMachine.Library
import TapeMachine.Loader

/-!
# Command line — Sessions

What a command line comes to: an exit code, and what is written to the two outputs. All that a
session needs of the world is the content of files and a clock (`Host`), so the same session can be
run on a world that is given as data.
-/

namespace TapeMachine.CommandLine

/-- What a session needs of the world. -/
structure Host (μ : Type → Type) where
  /-- The text of the file at a path. -/
  read : String → μ (Except ReadFault String)
  /-- The time now, in milliseconds since some moment before the session. -/
  clock : μ Nat

/-- The end of a session. -/
structure Result where
  exit : Nat
  output : String := ""
  errors : String := ""
  deriving DecidableEq, Repr

/-- Why a session fails. -/
inductive Trouble where
  /-- The program file at a path cannot be loaded. -/
  | unloadable (path : String) (e : Error)
  | error (e : Error)
  | noProgram
  | tooManyInputs (given : Nat) (name : String) (tapes : Nat)
  | timedOut (timeout : Nat) (steps : Nat) (state : State)
  | breakdown (b : Breakdown)

namespace Trouble

/-- The text of what went wrong. -/
def message : Trouble → String
  | .unloadable path _ => s!"Failed to load {path}"
  | .error e => e.message
  | .noProgram => "Either --program or --example is required"
  | .tooManyInputs given name tapes => s!"{given} inputs given, but '{name}' has {tapes} tapes"
  | .timedOut timeout steps state =>
    s!"Timed out after {timeout} ms ({steps} steps, state {state})"
  | .breakdown .tapeFull => "A tape is full"
  | .breakdown .ruleTooShort => "A rule does not address all tapes"

/-- The texts of what is behind it, one behind the other. -/
def causes : Trouble → List String
  | .unloadable _ e => e.message :: e.cause?.toList
  | .error e => e.cause?.toList
  | _ => []

/-- A text whose lines after the first one are indented. -/
def indented (indent : String) (text : String) : String :=
  String.ofList (text.toList.flatMap fun c => if c = '\n' then '\n' :: indent.toList else [c])

/-- The causes, each on a line of its own, numbered from `n` if there are several. -/
def causeLines (several : Bool) : (n : Nat) → List String → String
  | _, [] => ""
  | n, c :: cs =>
    let line := if several then s!"\n{numbered n}: " ++ indented "       " c
      else "\n    " ++ indented "    " c
    line ++ causeLines several (n + 1) cs
where
  numbered (n : Nat) : String :=
    let digits := toString n
    String.ofList (List.replicate (5 - digits.length) ' ') ++ digits

/-- The report on what went wrong. -/
def report (t : Trouble) : String :=
  let causes := t.causes
  "Error: " ++ t.message ++
    (if causes.isEmpty then ""
      else "\n\nCaused by:" ++ causeLines (1 < causes.length) 0 causes) ++ "\n"

end Trouble

/-- A word as text. -/
def wordText (w : Word) : String := String.ofList w

/-- The line of the library listing for the program with a number. -/
def listingLine (index : Nat) (name : String) : String :=
  match Library.info index with
  | .ok info =>
    let tapes := " | ".intercalate (info.tapes.map wordText)
    s!"{index}: {name} ({info.tapeCount} tapes, {info.ruleCount} rules) [{tapes}]\n"
  | .error _ => s!"{index}: {name}\n"

/-- The listing of the library. -/
def listing : String :=
  String.join (Library.names.zipIdx.map fun (name, index) => listingLine index name)

/-- The line for one step of a run. -/
def stepLine (e : TraceEntry) : String :=
  let tapes := ", ".intercalate (e.contents.map wordText)
  let heads := Quoted.list (e.heads.map toString)
  let read := Quoted.list (e.symbols.map Quoted.char)
  s!"Step: {e.number}, State: {e.state}, Tapes: [{tapes}], Heads: {heads}, Read: {read} => " ++
    e.action ++ "\n"

/-- The program of the library with a name or number. -/
def builtIn (nameOrNumber : String) : Except Error Program :=
  match count? nameOrNumber.toList with
  | some index => Library.program index
  | none => Library.named nameOrNumber

/-- Puts the inputs into the place of the contents of the first tapes. -/
def replaceTapes (blank : Symbol) : List Word → List String → List Word
  | _ :: tapes, input :: inputs =>
    input.toList.map (Notation.resolve blank) :: replaceTapes blank tapes inputs
  | tapes, _ => tapes

/-- The program with what the options put into the place of its parts, if it is within limits. -/
def adjust (o : Options) (p : Program) : Except Trouble Program :=
  if p.tapes.length < o.inputs.length then
    .error (.tooManyInputs o.inputs.length p.name p.tapes.length)
  else do
    let p := { p with
      tapes := replaceTapes p.blank p.tapes o.inputs
      maxSteps := o.maxSteps.getD p.maxSteps
      detectLoops := p.detectLoops && !o.noLoopDetection }
    (({} : Limits).check p).mapError Trouble.error
    return p

/-- Runs a machine until it halts; gives up after a step if so much time has passed then. -/
def runTimed {μ : Type → Type} [Monad μ] (elapsed : μ Nat) (timeout : Nat) (m : Machine) :
    μ (Except Trouble Machine) :=
  match _h : m.step with
  | .error b => return .error (.breakdown b)
  | .ok (m, .halts _) => return .ok m
  | .ok (m, .continues) => do
    let time ← elapsed
    if timeout ≤ time then return .error (.timedOut timeout m.steps m.configuration.state)
    else runTimed elapsed timeout m
termination_by m.program.maxSteps - m.steps
decreasing_by
  obtain ⟨hp, hs, hlt⟩ := Machine.steps_of_step_continues _h
  rw [hp, hs]
  omega

/-- Runs a program, for a limited time if the options say so. -/
def runProgram {μ : Type → Type} [Monad μ] (host : Host μ) (o : Options) (p : Program) :
    μ (Except Trouble Execution) := do
  match Machine.ofProgram p with
  | .error defect => return .error (.error (.structural defect))
  | .ok m =>
    let stopped ← match o.timeout with
      | none => pure (.ok m)
      | some timeout => do
        let start ← host.clock
        runTimed (return (← host.clock) - start) timeout m
    return stopped.bind fun m => m.execute.mapError Trouble.breakdown

/-- What is written about a run that has stopped. -/
def summary (o : Options) (e : Execution) : String :=
  if o.json then (Response.ofExecution e).toJson.pretty ++ "\n"
  else
    let steps := if o.debug then String.join (e.trace.toList.map stepLine) ++ "\n" else ""
    steps ++ s!"{e.message} ({e.totalSteps} steps)\n" ++
      "\n".intercalate (e.finalTapes.map wordText) ++ "\n"

/-- The program that the options ask for. -/
def chosen {μ : Type → Type} [Monad μ] (host : Host μ) (o : Options) :
    μ (Except Trouble Program) := do
  match o.program, o.builtIn with
  | some path, _ =>
    let content ← host.read path
    return (Loader.file {} path content).mapError (Trouble.unloadable path)
  | none, some nameOrNumber => return (builtIn nameOrNumber).mapError Trouble.error
  | none, none => return .error .noProgram

/-- What the session writes to its output, or what goes wrong. -/
def output {μ : Type → Type} [Monad μ] (host : Host μ) (o : Options) :
    μ (Except Trouble String) := do
  if o.list then return .ok listing
  else
    match (← chosen host o).bind (adjust o) with
    | .error t => return .error t
    | .ok p =>
      if o.lint then return .ok (String.join (p.findings.map (·.message ++ "\n")))
      else return (← runProgram host o p).map (summary o)

/-- The exit code after a command line that was not understood. -/
def usageExit : Nat := 2

/-- What to say about the command line. -/
def usage : String :=
  "Usage: tape-machine [--program FILE | --example NAME] [--input TAPE]... [--max-steps N]\n" ++
  "         [--no-loop-detection] [--timeout-ms MS] [--debug] [--json] [--lint] [--list]\n" ++
  "         [--verbose]\n"

/-- A whole session. -/
def session {μ : Type → Type} [Monad μ] (host : Host μ) (args : List String) : μ Result := do
  match Options.read args with
  | .error .usage => return { exit := usageExit, errors := usage }
  | .error .help => return { exit := 0, output := usage }
  | .error .version => return { exit := 0, output := "tape-machine 0.1.0\n" }
  | .ok o =>
    match ← output host o with
    | .ok text => return { exit := 0, output := text }
    | .error t => return { exit := 1, errors := t.report }

end TapeMachine.CommandLine
