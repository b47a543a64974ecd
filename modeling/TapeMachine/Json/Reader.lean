import TapeMachine.Json.Token

/-!
# JSON — Reading

Reads a whole text into a value. The tokens drive a small machine whose stack holds the arrays and
objects that are still open, so that no depth of nesting is too much. Each token is at least one
character, so a text is read in at most as many turns as it has characters (`Json.read?`).
-/

namespace TapeMachine

/-- An array or object that is still open, with what it holds so far, last item first. -/
inductive Json.Frame where
  | array (items : List Json)
  /-- An object that waits for the value of `key`. -/
  | object (members : List (StringLiteral × Json)) (key : StringLiteral)

/-- What may come next. -/
inductive Json.Expects where
  /-- A value. -/
  | value
  /-- The first item of an array, or its end. -/
  | firstItem
  /-- The first key of an object, or its end. -/
  | firstKey
  /-- The key of a further member of an object that holds `members`. -/
  | key (members : List (StringLiteral × Json))
  /-- The colon after the key of a member. -/
  | colon (members : List (StringLiteral × Json)) (key : StringLiteral)
  /-- A comma or the end of the innermost open array, which holds `items`. -/
  | afterItem (items : List Json)
  /-- A comma or the end of the innermost open object, which holds `members`. -/
  | afterMember (members : List (StringLiteral × Json))
  /-- Nothing: the document is this value. -/
  | done (value : Json)

/-- A document that is partly read. -/
structure Json.Partial where
  stack : List Json.Frame
  expects : Json.Expects

namespace Json.Partial

/-- Before the first token. -/
def start : Partial := ⟨[], .value⟩

/-- Puts a complete value where it belongs. -/
def complete (stack : List Frame) (v : Json) : Partial :=
  match stack with
  | [] => ⟨[], .done v⟩
  | .array items :: stack => ⟨stack, .afterItem (v :: items)⟩
  | .object members key :: stack => ⟨stack, .afterMember ((key, v) :: members)⟩

/-- The start of a value: a value that is one token is complete, an array or object is opened. -/
def value (stack : List Frame) : Token → Option Partial
  | .null => some (complete stack .null)
  | .boolean b => some (complete stack (.boolean b))
  | .number n => some (complete stack (.number n))
  | .string s => some (complete stack (.string s))
  | .openArray => some ⟨stack, .firstItem⟩
  | .openObject => some ⟨stack, .firstKey⟩
  | _ => none

/-- One token further; nothing if the token may not stand here. -/
def step (p : Partial) (t : Token) : Option Partial :=
  match p.expects, t with
  | .value, t => value p.stack t
  | .firstItem, .closeArray => some (complete p.stack (.array []))
  | .firstItem, t => value (.array [] :: p.stack) t
  | .firstKey, .closeObject => some (complete p.stack (.object []))
  | .firstKey, .string key => some ⟨p.stack, .colon [] key⟩
  | .key members, .string key => some ⟨p.stack, .colon members key⟩
  | .colon members key, .colon => some ⟨.object members key :: p.stack, .value⟩
  | .afterItem items, .comma => some ⟨.array items :: p.stack, .value⟩
  | .afterItem items, .closeArray => some (complete p.stack (.array items.reverse))
  | .afterMember members, .comma => some ⟨p.stack, .key members⟩
  | .afterMember members, .closeObject => some (complete p.stack (.object members.reverse))
  | _, _ => none

/-- Reads tokens to the end of the text, at most `turns` of them. -/
def run : (turns : Nat) → Partial → List Char → Option Json
  | 0, _, _ => none
  | turns + 1, p, cs =>
    match Token.next cs with
    | .nothing => match p.expects with
      | .done v => some v
      | _ => none
    | .junk => none
    | .token t rest => match p.step t with
      | some p => run turns p rest
      | none => none

end Json.Partial

/-- The document that a text holds; nothing if the text is not well formed. -/
def Json.read? (cs : List Char) : Option Json := Partial.start.run (cs.length + 1) cs

end TapeMachine
