import TapeMachine.Notation.Document

/-!
# Notation — Grammar

The grammar of program texts. A text is a sequence of sections, one or more line breaks apart:

```text
name: Binary increment
tape: 1011
rules:
  q0:
    0 -> 0, R, q0
    _ -> 1, N, q_halt
  q_halt:
```

Blanks, tabs and comments (from `#` to the end of the line) may stand between any two parts of a
construct, `next p` being `p` after such a gap; a line break may not. The tokens `text`, `state`,
`symbol`, `index` and `number` have no gaps inside.
-/

namespace TapeMachine.Notation

namespace Grammar

open Reader

variable {α : Type}

/-! ### Gaps and repetitions -/

/-- A line feed or a carriage return. -/
def isLineEnd (c : Char) : Bool := c = '\n' || c = '\r'

/-- Blanks and tabs, and a comment after them. -/
def gap : Reader Unit := fun c =>
  let c := Cursor.skipWhile (fun a => a = ' ' || a = '\t') c.rest c.offset
  match c.rest with
  | '#' :: _ => ⟨some ((), Cursor.skipWhile (!isLineEnd ·) c.rest c.offset), 0⟩
  | _ => ⟨some ((), c), 0⟩

/-- A construct after a gap. -/
def next (p : Reader α) : Reader α := do
  gap
  p

/-- A construct as often as it is there, with gaps between. -/
def many (p : Reader α) : Reader (List α) :=
  orElse (do
    let a ← p
    let more ← repeated (next p)
    return a :: more) (succeed [])

/-- A line feed, a carriage return, or both. -/
def lineBreak : Reader Unit := firstOf [literal "\n", literal "\r\n", literal "\r"]

/-- A line break or more. -/
def lineBreaks : Reader Unit := do
  lineBreak
  let _ ← next (many lineBreak)
  return ()

/-- A construct or more, with commas between. -/
def listOf (p : Reader α) : Reader (List α) := do
  let a ← p
  let more ← next (many do
    literal ","
    next p)
  return a :: more

/-- A construct in square brackets. -/
def bracketed (p : Reader α) : Reader α := do
  literal "["
  let a ← next p
  next (literal "]")
  return a

/-- A section: its keyword, a colon and its content. -/
def headed (word : String) (content : Reader α) : Reader α :=
  named do
    literal word
    next (literal ":")
    next content

/-! ### Tokens -/

/-- The rest of a line, up to a comment. -/
def text : Reader (List Char) := named (takeWhile1 fun c => !isLineEnd c && c != '#')

/-- The name of a state: letters, digits and underscores. -/
def state : Reader State :=
  named (String.ofList <$> takeWhile1 fun c => c.isAlphanum || c = '_')

/-- Whether a symbol can stand without quotes. -/
def isPlain (c : Char) : Bool :=
  !isLineEnd c && c != ' ' && c != '\t' && c != ',' && c != '[' && c != ']' && c != '\'' && c != '#'

/-- Any character but the quote, between quotes. -/
def quotedSymbol : Reader Symbol := do
  literal "'"
  let c ← satisfying (· != '\'')
  literal "'"
  return c

/-- A symbol, between quotes or, if it can, without them. -/
def symbol : Reader Symbol := named (quotedSymbol.orElse (satisfying isPlain))

/-- Digits with or without a minus in front. -/
def index : Reader (Placed (List Char)) :=
  placed (named do
    let sign ← optional (satisfying (· = '-'))
    let digits ← takeWhile1 Char.isDigit
    return sign.toList ++ digits)

/-- Digits. -/
def number : Reader (Placed (List Char)) := placed (named (takeWhile1 Char.isDigit))

/-- One of the two truth values. -/
def boolean : Reader Bool :=
  named (orElse (do literal "true"; return true) (do literal "false"; return false))

/-- A move, by its letter or by a sign. -/
def direction : Reader Move :=
  named (firstOf [
    do literal "L"; return .left,
    do literal "R"; return .right,
    do literal "S"; return .stay,
    do literal "N"; return .stay,
    do literal "<"; return .left,
    do literal ">"; return .right,
    do literal "-"; return .stay])

/-! ### Tapes -/

/-- Symbols, with commas between or without. -/
def symbols : Reader Word :=
  named do
    let a ← symbol
    let more ← next (many do
      let _ ← optional (literal ",")
      next symbol)
    return a :: more

/-- The content of one tape among several, in brackets. -/
def tapeList : Reader Word :=
  named do
    literal "["
    let content ← next (optional symbols)
    next (literal "]")
    return content.getD []

/-- The contents of tapes, on lines of their own or not. -/
def tapeLists : Reader (List Word) := do
  let _ ← many lineBreak
  let a ← next tapeList
  let more ← next (many do
    let _ ← many lineBreak
    next tapeList)
  return a :: more

/-! ### Rules -/

/-- A symbol to write. -/
def written (p : Reader α) : Reader (Option α) :=
  next (optional do
    literal "->"
    next p)

/-- A comma and the next state. -/
def target : Reader State := do
  next (literal ",")
  next state

/-- An action on one tape. -/
def singleAction : Reader Action :=
  named do
    let read ← symbol
    let write ← written symbol
    next (literal ",")
    let move ← next direction
    let next ← target
    return ⟨[read], write.map ([·]), [move], next⟩

/-- Symbols in brackets, one for each tape. -/
def symbolList : Reader Word := named (bracketed (listOf symbol))

/-- Moves in brackets, one for each tape. -/
def directionList : Reader (List Move) := named (bracketed (listOf direction))

/-- An action on several tapes. -/
def listAction : Reader Action :=
  named do
    let read ← symbolList
    let write ← written symbolList
    next (literal ",")
    let moves ← next directionList
    let next ← target
    return ⟨read, write, moves, next⟩

/-- A line of a state block. -/
def action : Reader (Placed Action) := placed (named (listAction.orElse singleAction))

/-- A word that starts a section, and its colon. -/
def keyword : Reader Unit := do
  firstOf (["name", "blank", "tapes", "tape", "heads", "head", "final", "max_steps",
    "detect_loops", "rules"].map literal)
  next (literal ":")

/-- The block of a state: its name, which is no keyword, and its actions on lines of their own. -/
def block : Reader (Placed Block) :=
  placed (named do
    notAhead keyword
    let s ← next state
    next (literal ":")
    let actions ← next (many do
      lineBreaks
      next action)
    return ⟨s, actions⟩)

/-! ### Sections -/

/-- The states of a section of final states, in brackets or not. -/
def finalStates : Reader (List State) := (bracketed (listOf state)).orElse (listOf state)

/-- The blocks of a section of rules. -/
def blocks : Reader (List (Placed Block)) :=
  many do
    lineBreaks
    next block

/-- A section. -/
def anySection : Reader (Placed Section) :=
  placed (firstOf [
    .name <$> headed "name" text,
    .blank <$> headed "blank" symbol,
    .tapes <$> headed "tapes" tapeLists,
    (.tape <| ·.getD []) <$> headed "tape" (optional symbols),
    .heads <$> headed "heads" (bracketed (listOf index)),
    .head <$> headed "head" index,
    .finals <$> headed "final" finalStates,
    .maxSteps <$> headed "max_steps" number,
    .detectLoops <$> headed "detect_loops" boolean,
    .rules <$> headed "rules" blocks])

/-- The end of the text. -/
def theEnd : Reader Unit := named endOfText

/-- A whole text. -/
def document : Reader Document :=
  named do
    let _ ← next (many lineBreak)
    let sections ← next (many do
      let s ← anySection
      next (lineBreaks.orElse (ahead theEnd))
      return s)
    next theEnd
    return sections

end Grammar

/-- The sections of a text; or the offset up to which the text was understood. -/
def Document.read (text : List Char) : Except Nat Document :=
  match Grammar.document ⟨text, 0⟩ with
  | ⟨some (sections, _), _⟩ => .ok sections
  | ⟨none, furthest⟩ => .error furthest

end TapeMachine.Notation
