import TapeMachine.Decimal.Shortest
import TapeMachine.Json.Reader
import TapeMachine.Range
import TapeMachine.Text.Quoted

/-!
# JSON — Decoding

From values to typed data. A document is looked at from left to right, and its first fault is the
answer (`Json.Fault`). A structure is described by its fields in declaration order (`Fields`), and
may be given as an object or as an array; each member of an object fills the field of its name,
members of other names are skipped, and what is missing at the end is taken from defaults.
-/

namespace TapeMachine

namespace Json

/-- What was found in the place of something else. -/
inductive Found where
  | null
  | boolean (value : Bool)
  | integer (value : Int)
  | float (negative : Bool) (value : Binary64)
  | string (value : String)
  | sequence
  | map
  deriving DecidableEq

/-- Why a document does not hold what is asked for. -/
inductive Fault where
  | escape (fault : EscapeFault)
  /-- The number is beyond the greatest one. -/
  | outOfRange
  | invalidType (found : Found) (wanted : String)
  | invalidValue (found : Found) (wanted : String)
  /-- An array that should hold the fields of a structure ends too soon. -/
  | invalidLength (given : Nat) (name : String) (fields : Nat)
  /-- Something follows where the end was due. -/
  | trailing
  | missingField (name : String)
  | duplicateField (name : String)
  | unknownVariant (name : String) (known : List String)
  /-- No value of the wanted kind starts here. -/
  | noValue
  /-- The text is not well formed. -/
  | malformed
  deriving DecidableEq

/-- Floating point numbers are positional from `10 ^ -5` to below `10 ^ 16`. -/
def floatLayout : NumberLayout := ⟨-5, 16⟩

/-- How messages name what was found. -/
def Found.describe : Found → String
  | .null => "null"
  | .boolean b => "boolean `" ++ (if b then "true" else "false") ++ "`"
  | .integer i => "integer `" ++ toString i ++ "`"
  | .float negative x =>
    "floating point `" ++ String.ofList (floatLayout.write negative x) ++ "`"
  | .string s => "string " ++ Quoted.string s
  | .sequence => "sequence"
  | .map => "map"

/-- The known names of a variant, as messages list them. -/
def knownNames (names : List String) : String :=
  "one of " ++ ", ".intercalate (names.map fun n => "`" ++ n ++ "`")

/-- The text of a fault, without its place.  What is not well formed has a text here that says no
more than that; a reader of documents tells many such faults apart. -/
def Fault.message : Fault → String
  | .escape .unpaired => "unexpected end of hex escape"
  | .escape .misplaced => "lone leading surrogate in hex escape"
  | .outOfRange => "number out of range"
  | .invalidType found wanted => "invalid type: " ++ found.describe ++ ", expected " ++ wanted
  | .invalidValue found wanted => "invalid value: " ++ found.describe ++ ", expected " ++ wanted
  | .invalidLength given name fields =>
    s!"invalid length {given}, expected struct {name} with {fields} elements"
  | .trailing => "trailing characters"
  | .missingField name => "missing field `" ++ name ++ "`"
  | .duplicateField name => "duplicate field `" ++ name ++ "`"
  | .unknownVariant name known =>
    "unknown variant `" ++ name ++ "`, expected " ++ knownNames known
  | .noValue => "expected value"
  | .malformed => "malformed document"

/-- A number as the fields see it: whole numbers of 64 bits are integers, all others are floating
point numbers. -/
inductive Quantity where
  | integer (value : Int)
  | float (negative : Bool) (value : Binary64)

end Json

namespace NumberLiteral

/-- The greatest exponent that is told apart from greater ones, `2 ^ 31 - 1`. -/
def exponentBound : Nat := 2147483647

/-- The leading digits of a number that make a count: their value, and the digits left. -/
def leadingDigits (value : Nat) : List Char → Nat × List Char
  | [] => (value, [])
  | c :: cs =>
    let next := value * 10 + (c.toNat - 48)
    if next ≤ greatestCount then leadingDigits next cs else (value, c :: cs)

/-- The digits that count towards the value, as a natural number and a power of ten: the whole part
and then the fraction as long as the number stays a count. Further digits of the whole part count as
noughts, further digits of the fraction not at all. -/
def significand (n : NumberLiteral) : Nat × Int :=
  let (value, skipped) := leadingDigits 0 n.whole
  let (value, unused) := leadingDigits value n.fraction
  (value, (skipped.length : Int) - (n.fraction.length - unused.length : Nat))

/-- The floating point value: the significand, times the power of ten. -/
def float? (n : NumberLiteral) : Option Binary64 :=
  let (value, power) := n.significand
  match n.exponent with
  | none => do (← Binary64.ofQuotient? value 1).scaleByTen? power
  | some (negative, ds) =>
    let e := Nat.ofDigitChars 10 ds 0
    if exponentBound < e then
      if value = 0 ∨ negative then some Binary64.zero else none
    else do
      (← Binary64.ofQuotient? value 1).scaleByTen? (if negative then power - e else power + e)

/-- What the literal stands for; nothing if it is beyond the greatest number. A negative nought is a
floating point number. -/
def quantity? (n : NumberLiteral) : Option Json.Quantity :=
  let value := Nat.ofDigitChars 10 n.whole 0
  if n.isWhole && !n.negative && value ≤ greatestCount then some (.integer value)
  else if n.isWhole && n.negative && 0 < value && leastPosition ≤ -(value : Int) then
    some (.integer (-value))
  else n.float?.map (.float n.negative)

end NumberLiteral

namespace Json

/-- A decoder: what a value stands for, or its first fault. -/
abbrev Decoder (α : Type) := Json → Except Fault α

/-- The fault of a value in the place of something else. A string or number with a fault of its own
has that one. -/
def mismatch (j : Json) (wanted : String) : Fault :=
  match j with
  | .null => .invalidType .null wanted
  | .boolean b => .invalidType (.boolean b) wanted
  | .number n => match n.quantity? with
    | none => .outOfRange
    | some (.integer i) => .invalidType (.integer i) wanted
    | some (.float negative x) => .invalidType (.float negative x) wanted
  | .string (.ok s) => .invalidType (.string s) wanted
  | .string (.error f) => .escape f
  | .array _ => .invalidType .sequence wanted
  | .object _ => .invalidType .map wanted

namespace Decode

/-- A string of any length. -/
def string : Decoder String
  | .string (.ok s) => .ok s
  | j => .error (j.mismatch "a string")

/-- A string of any length, by its characters. -/
def chars : Decoder (List Char) := fun j => (string j).map String.toList

/-- A string of one character. -/
def char : Decoder Char
  | .string (.ok s) =>
    match s.toList with
    | [c] => .ok c
    | _ => .error (.invalidValue (.string s) "a character")
  | j => .error (j.mismatch "a character")

/-- One of the two truth values. -/
def bool : Decoder Bool
  | .boolean b => .ok b
  | j => .error (j.mismatch "a boolean")

/-- An integer in a range, called `wanted`. -/
def integer (wanted : String) (low high : Int) : Decoder Int
  | .number n =>
    match n.quantity? with
    | some (.integer i) =>
      if low ≤ i ∧ i ≤ high then .ok i else .error (.invalidValue (.integer i) wanted)
    | _ => .error ((Json.number n).mismatch wanted)
  | j => .error (j.mismatch wanted)

/-- A count of up to 64 bits. -/
def count : Decoder Nat := fun j => (integer "usize" 0 greatestCount j).map Int.toNat

/-- A position: a signed integer of 64 bits. -/
def position : Decoder Int := integer "i64" leastPosition greatestPosition

/-- Any number within range, as it is written. -/
def number : Decoder NumberLiteral
  | .number n => if n.quantity?.isSome then .ok n else .error .outOfRange
  | j => .error (j.mismatch "f64")

/-- Nothing, for `null`, or something. -/
def optional {α : Type} (decode : Decoder α) : Decoder (Option α)
  | .null => .ok none
  | j => (decode j).map some

/-- A list of values. -/
def list {α : Type} (decode : Decoder α) : Decoder (List α)
  | .array items => items.mapM decode
  | j => .error (j.mismatch "a sequence")

/-- One of a few named values, given by its name, or as an object whose only member has that name
and no value. The listed names appear in the message about any other. -/
def variant {α : Type} (names : List (String × α)) : Decoder α
  | .string (.ok s) => named s
  | .string (.error f) => .error (.escape f)
  | .object ((.error f, _) :: _) => .error (.escape f)
  | .object ((.ok s, j) :: more) =>
    match named s, j, more with
    | .error f, _, _ => .error f
    | .ok a, .null, [] => .ok a
    | .ok _, .null, _ :: _ => .error .noValue
    | .ok _, j, _ => .error (j.mismatch "unit")
  | _ => .error .noValue
where
  named (s : String) : Except Fault α :=
    match names.lookup s with
    | some a => .ok a
    | none => .error (.unknownVariant s (names.map Prod.fst))

end Decode

/-- A field of a structure: its name, what its value stands for, and what stands for it if it is
missing. -/
structure Field (α : Type) where
  name : String
  decode : Decoder α
  default : Option α

/-- The fields of a structure in declaration order, each still to be read or read already. -/
inductive Fields : Type → Type 1 where
  | start {α : Type} (make : α) : Fields α
  | pending {α β : Type} (before : Fields (α → β)) (field : Field α) : Fields β
  | filled {α β : Type} (before : Fields (α → β)) (field : Field α) (value : α) : Fields β

namespace Fields

/-- One more field, which has to be there. -/
def required {α β : Type} (before : Fields (α → β)) (name : String) (decode : Decoder α) :
    Fields β := .pending before ⟨name, decode, none⟩

/-- One more field, which has a default. -/
def defaulted {α β : Type} (before : Fields (α → β)) (name : String) (decode : Decoder α)
    (value : α) : Fields β := .pending before ⟨name, decode, some value⟩

/-- One more field, which may be missing or `null`. -/
def optional {α β : Type} (before : Fields (Option α → β)) (name : String) (decode : Decoder α) :
    Fields β := before.defaulted name (Decode.optional decode) none

/-- The number of fields. -/
def size {β : Type} : Fields β → Nat
  | .start _ => 0
  | .pending before _ => before.size + 1
  | .filled before _ _ => before.size + 1

/-- Fills the field of that name; a name that no field has changes nothing. -/
def feed {β : Type} (fields : Fields β) (name : String) (j : Json) : Except Fault (Fields β) :=
  match fields with
  | .start make => .ok (.start make)
  | .pending before field =>
    if field.name = name then
      match field.decode j with
      | .ok value => .ok (.filled before field value)
      | .error fault => .error fault
    else match before.feed name j with
      | .ok before => .ok (.pending before field)
      | .error fault => .error fault
  | .filled before field value =>
    if field.name = name then .error (.duplicateField name)
    else match before.feed name j with
      | .ok before => .ok (.filled before field value)
      | .error fault => .error fault

/-- Fills fields from the members of an object. -/
def feedMembers {β : Type} (fields : Fields β) :
    List (StringLiteral × Json) → Except Fault (Fields β)
  | [] => .ok fields
  | (.error fault, _) :: _ => .error (.escape fault)
  | (.ok name, j) :: more =>
    match fields.feed name j with
    | .ok fields => fields.feedMembers more
    | .error fault => .error fault

/-- The structure, with the defaults of the fields that are still to be read. -/
def finish {β : Type} : Fields β → Except Fault β
  | .start make => .ok make
  | .filled before _ value => before.finish.map (· value)
  | .pending before field =>
    match before.finish with
    | .error fault => .error fault
    | .ok make => match field.default with
      | some value => .ok (make value)
      | none => .error (.missingField field.name)

/-- The structure whose fields are the items of an array, in declaration order, and the items left;
fields at the end that have defaults may be missing. `short given` is the fault of an array that
holds too few items. -/
def ofItems {β : Type} (short : Nat → Fault) (items : List Json) :
    Fields β → Except Fault (β × List Json)
  | .start make => .ok (make, items)
  | .filled before _ value =>
    (before.ofItems short items).map fun (make, rest) => (make value, rest)
  | .pending before field =>
    match before.ofItems short items with
    | .error fault => .error fault
    | .ok (make, []) => match field.default with
      | some value => .ok (make value, [])
      | none => .error (short items.length)
    | .ok (make, j :: rest) => (field.decode j).map fun value => (make value, rest)

/-- A structure called `name`. -/
def decoder {β : Type} (name : String) (fields : Fields β) : Decoder β
  | .object members => do
    match fields.feedMembers members with
    | .ok fields => fields.finish
    | .error fault => .error fault
  | .array items =>
    match fields.ofItems (.invalidLength · name fields.size) items with
    | .ok (value, []) => .ok value
    | .ok (_, _ :: _) => .error .trailing
    | .error fault => .error fault
  | j => .error (j.mismatch ("struct " ++ name))

end Fields

/-- What a text stands for that holds a value for the decoder. -/
def decodeText {α : Type} (decode : Decoder α) (text : String) : Except Fault α :=
  match Json.read? text.toList with
  | none => .error .malformed
  | some j => decode j

end Json

end TapeMachine
