import TapeMachine.Library.Texts
import TapeMachine.Notation
import TapeMachine.Program.Finding

/-!
# Library

The programs that come with the machine. They are numbered from 0 in a fixed order and have names,
which are found without regard to the case of letters.
-/

namespace TapeMachine

namespace Library

/-- The texts, in the order of the library. -/
def texts : List (List Char) := [
  binaryIncrementText, unaryAdditionText, multiTapeCopyText, palindromeText,
  balancedParenthesesText, bubbleSortText, busyBeaver2Text, pingPongText,
  binaryMultiplicationText, primeCheckerText, binaryReverseText, duplicateStringText]

/-- The program of a text with that text, if the text describes one. -/
def entry? (text : List Char) : Option (Program × List Char) :=
  match Program.parse text with
  | .ok p => some (p, text)
  | .error _ => none

/-- The programs with their texts. -/
def entries : List (Program × List Char) := texts.filterMap entry?

/-- The number of programs. -/
def size : Nat := entries.length

/-- The names of the programs. -/
def names : List String := entries.map (·.1.name)

/-- The program with a number. -/
def program (index : Nat) : Except Error Program :=
  match entries[index]? with
  | some (p, _) => .ok p
  | none => .error (.invalid (.unknownIndex index))

/-- The text of the program with a number. -/
def text (index : Nat) : Except Error String :=
  match entries[index]? with
  | some (_, t) => .ok (String.ofList t)
  | none => .error (.invalid (.unknownText index))

/-- Two texts are alike if they differ at most in the case of the letters from A to Z. -/
def alike (s t : String) : Bool := s.toList.map Char.toLower == t.toList.map Char.toLower

/-- The first program with a name, whatever the case of its letters. -/
def named (name : String) : Except Error Program :=
  match entries.find? (alike ·.1.name name) with
  | some (p, _) => .ok p
  | none => .error (.invalid (.unknownName name))

/-- The lower case of a character, as far as it is a letter from a to z. The Kelvin sign is the only
character outside of ASCII that has one. -/
def toLower (c : Char) : Char := if c = '\u212a' then 'k' else c.toLower

/-- Whether a text stands anywhere in another. -/
def occursIn (query : List Char) : List Char → Bool
  | [] => query.isEmpty
  | c :: cs => query.isPrefixOf (c :: cs) || occursIn query cs

/-- The numbers of the programs whose names contain a text, whatever the case of letters. -/
def search (query : String) : List Nat :=
  let query := query.toList.map toLower
  (names.zipIdx.filter fun (name, _) => occursIn query (name.toList.map toLower)).map Prod.snd

end Library

/-- What there is to know about a program of the library without running it. -/
structure ProgramInfo where
  index : Nat
  name : String
  initial : State
  tapes : List Word
  tapeCount : Nat
  /-- The number of states that the program mentions. -/
  stateCount : Nat
  ruleCount : Nat
  findings : List Finding

/-- What there is to know about the program with a number. -/
def Library.info (index : Nat) : Except Error ProgramInfo := do
  let p ← Library.program index
  return {
    index
    name := p.name
    initial := p.initial
    tapes := p.tapes
    tapeCount := p.tapeCount
    stateCount := p.states.toList.length
    ruleCount := p.rules.length
    findings := p.findings }

end TapeMachine
