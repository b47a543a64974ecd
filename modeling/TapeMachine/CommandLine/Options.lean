import TapeMachine.Range

/-!
# Command line — Options

What a command line asks for. Options have a long name and most of them a letter; letters can be
joined behind one dash. The value of an option is joined to it (`--name=value`, `-nvalue`) or is the
next argument, which may not start with a dash then. Only `--input` may be given more than once.
-/

namespace TapeMachine.CommandLine

/-- What a command line asks for. -/
structure Options where
  /-- The path of a program file. -/
  program : Option String := none
  /-- The name or number of a program of the library. -/
  builtIn : Option String := none
  /-- What the tapes hold in the place of what the program says, in order. -/
  inputs : List String := []
  /-- The step budget in the place of that of the program. -/
  maxSteps : Option Nat := none
  noLoopDetection : Bool := false
  /-- The time after which the run is given up, in milliseconds. -/
  timeout : Option Nat := none
  /-- Whether to show each step. -/
  debug : Bool := false
  /-- Whether to show the result as JSON. -/
  json : Bool := false
  /-- Whether to show the findings about the program and no run. -/
  lint : Bool := false
  /-- Whether to show what is in the library, and nothing else. -/
  list : Bool := false
  verbose : Bool := false
  deriving DecidableEq, Repr

/-- What can be switched on. -/
inductive Switch where
  | noLoopDetection | debug | json | lint | list | verbose
  deriving DecidableEq, Repr

/-- What can be given a value. -/
inductive Setting where
  | program | builtIn | input | maxSteps | timeout
  deriving DecidableEq, Repr

/-- What an option stands for. -/
inductive Meaning where
  | switch (s : Switch)
  | setting (s : Setting)
  | help
  | version
  deriving DecidableEq, Repr

/-- Why a command line asks for nothing that can be done here. -/
inductive Refusal where
  /-- It is no command line of this program. -/
  | usage
  | help
  | version
  deriving DecidableEq, Repr

/-- The long names. -/
def longNames : List (String × Meaning) := [
  ("program", .setting .program), ("example", .setting .builtIn), ("input", .setting .input),
  ("max-steps", .setting .maxSteps), ("no-loop-detection", .switch .noLoopDetection),
  ("timeout-ms", .setting .timeout), ("debug", .switch .debug), ("json", .switch .json),
  ("lint", .switch .lint), ("list", .switch .list), ("verbose", .switch .verbose),
  ("help", .help), ("version", .version)]

/-- The letters. -/
def letters : List (Char × Meaning) := [
  ('p', .setting .program), ('e', .setting .builtIn), ('i', .setting .input),
  ('m', .setting .maxSteps), ('d', .switch .debug), ('l', .switch .list), ('v', .switch .verbose),
  ('h', .help), ('V', .version)]

/-- A count of up to 64 bits in decimal digits, with or without a plus in front. -/
def count? (cs : List Char) : Option Nat :=
  let digits := match cs with
    | '+' :: ds => ds
    | ds => ds
  if digits ≠ [] ∧ digits.all Char.isDigit then
    let n := Nat.ofDigitChars 10 digits 0
    if n ≤ greatestCount then some n else none
  else none

namespace Options

/-- Switches something on that is not on already. -/
def switchOn (o : Options) : Switch → Except Refusal Options
  | .noLoopDetection => once o.noLoopDetection { o with noLoopDetection := true }
  | .debug => once o.debug { o with debug := true }
  | .json => once o.json { o with json := true }
  | .lint => once o.lint { o with lint := true }
  | .list => once o.list { o with list := true }
  | .verbose => once o.verbose { o with verbose := true }
where
  once (already : Bool) (o : Options) : Except Refusal Options :=
    if already then .error .usage else .ok o

/-- The value that a text gives to something that has none yet. -/
def fresh {α : Type} (before : Option α) (value : Option α) : Except Refusal (Option α) :=
  match before, value with
  | none, some a => .ok (some a)
  | _, _ => .error .usage

/-- Gives a value to a setting. -/
def set (o : Options) (value : String) : Setting → Except Refusal Options
  | .program => do
    let program ← fresh o.program (if value = "" then none else some value)
    return { o with program }
  | .builtIn => do
    let builtIn ← fresh o.builtIn (some value)
    return { o with builtIn }
  | .input => .ok { o with inputs := o.inputs ++ [value] }
  | .maxSteps => do
    let maxSteps ← fresh o.maxSteps (count? value.toList)
    return { o with maxSteps }
  | .timeout => do
    let timeout ← fresh o.timeout (count? value.toList)
    return { o with timeout }

/-- Reads a cluster of letters; the setting that still waits for its value, if there is one. -/
def readLetters (o : Options) : List Char → Except Refusal (Options × Option Setting)
  | [] => .ok (o, none)
  | c :: cs =>
    match letters.lookup c with
    | none => .error .usage
    | some .help => .error .help
    | some .version => .error .version
    | some (.switch s) => do
      let o ← o.switchOn s
      o.readLetters cs
    | some (.setting s) =>
      match cs with
      | [] => .ok (o, some s)
      | '=' :: value => do return (← o.set (String.ofList value) s, none)
      | value => do return (← o.set (String.ofList value) s, none)

/-- Reads a long option without its dashes; the setting that still waits for its value, if there is
one. -/
def readLong (o : Options) (cs : List Char) : Except Refusal (Options × Option Setting) :=
  let name := String.ofList (cs.takeWhile (· ≠ '='))
  let value : Option String := match cs.dropWhile (· ≠ '=') with
    | [] => none
    | _ :: value => some (String.ofList value)
  match longNames.lookup name, value with
  | some .help, none => .error .help
  | some .version, none => .error .version
  | some (.switch s), none => do return (← o.switchOn s, none)
  | some (.setting s), none => .ok (o, some s)
  | some (.setting s), some value => do return (← o.set value s, none)
  | _, _ => .error .usage

/-- Reads the arguments; `waiting` is the setting that the first of them may give a value to. After
two dashes alone there may be no argument. -/
def readAll (o : Options) (waiting : Option Setting) : List String → Except Refusal Options
  | [] => if waiting.isSome then .error .usage else .ok o
  | arg :: args =>
    match arg.toList, waiting with
    | ['-', '-'], none => if args.isEmpty then .ok o else .error .usage
    | '-' :: '-' :: cs, none => do
      let (o, waiting) ← o.readLong cs
      o.readAll waiting args
    | '-' :: c :: cs, none => do
      let (o, waiting) ← o.readLetters (c :: cs)
      o.readAll waiting args
    | _, none => .error .usage
    | '-' :: _ :: _, some _ => .error .usage
    | _, some s => do
      let o ← o.set arg s
      o.readAll none args

/-- What a command line asks for. It has to ask for something, and a program is taken either from a
file or from the library. -/
def read (args : List String) : Except Refusal Options := do
  let o ← ({} : Options).readAll none args
  if o = {} ∨ (o.program.isSome ∧ o.builtIn.isSome) then .error .usage
  return o

end Options

end TapeMachine.CommandLine
