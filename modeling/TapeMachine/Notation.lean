import TapeMachine.Error
import TapeMachine.Notation.Grammar
import TapeMachine.Notation.Meaning

/-!
# Notation

The text notation of programs: a text is read into a document, the document is given its meaning,
and the program so found is checked. What `Program.parse` accepts can be run.
-/

namespace TapeMachine

namespace Notation

/-- The program that a text without white space at its ends describes. It may have defects. -/
def describe (text : List Char) : Except Error Program :=
  match Document.read text with
  | .error offset => .error (.unreadable (.ofOffset text offset) .unexpected)
  | .ok document =>
    match Draft.ofDocument document with
    | .error problem => .error (.unreadable (.ofSpan text problem.span) problem.value)
    | .ok draft => match draft.program with
      | .error missing => .error (.invalid (.missing missing))
      | .ok p => .ok p

end Notation

/-- The program that a text describes, which has no defects. -/
def Program.parse (text : List Char) : Except Error Program := do
  let p ← Notation.describe (trim text)
  p.check.mapError Error.structural
  return p

end TapeMachine
