/-!
# Notation — Readers

A reader takes a construct off the start of a text, or fails and takes nothing. Choices are ordered:
the second reader of `p.orElse q` is asked only if the first one fails, and what a repetition has
taken it does not give back. Beside its result a reader tells how far the text was understood: the
greatest offset at which a named construct was looked for and not found (`Reply.furthest`), in
branches that were given up as well.
-/

namespace TapeMachine.Notation

/-- A place in a text: what is left of it, and how many characters come before. -/
structure Cursor where
  rest : List Char
  offset : Nat
  deriving DecidableEq, Repr

/-- What reading comes to. -/
structure Reply (α : Type) where
  /-- What was read and where it ends; nothing if the construct is not there. -/
  result : Option (α × Cursor)
  /-- The greatest offset at which a named construct was looked for in vain. -/
  furthest : Nat

/-- A reader of a construct. -/
def Reader (α : Type) := Cursor → Reply α

/-- A part of a text, by the offsets at which it starts and ends. -/
structure Span where
  start : Nat
  stop : Nat
  deriving DecidableEq, Repr

/-- Something read, and where it stands. -/
structure Placed (α : Type) where
  span : Span
  value : α
  deriving DecidableEq, Repr

namespace Cursor

/-- Takes characters as long as they have a property. -/
def skipWhile (p : Char → Bool) : List Char → (offset : Nat) → Cursor
  | [], offset => ⟨[], offset⟩
  | c :: cs, offset => if p c then skipWhile p cs (offset + 1) else ⟨c :: cs, offset⟩

end Cursor

namespace Reader

variable {α β : Type}

/-- Reads nothing and succeeds. -/
def succeed (a : α) : Reader α := fun c => ⟨some (a, c), 0⟩

/-- Reads nothing and fails. -/
def fail : Reader α := fun _ => ⟨none, 0⟩

/-- Reads one construct and then the next one, which may depend on it. -/
def andThen (p : Reader α) (q : α → Reader β) : Reader β := fun c =>
  match p c with
  | ⟨none, k⟩ => ⟨none, k⟩
  | ⟨some (a, c), k⟩ =>
    let r := q a c
    ⟨r.result, max k r.furthest⟩

instance : Monad Reader where
  pure := succeed
  bind := andThen

/-- Reads by the first reader, and by the second one if the first one fails. -/
def orElse (p q : Reader α) : Reader α := fun c =>
  match p c with
  | ⟨some found, k⟩ => ⟨some found, k⟩
  | ⟨none, k⟩ =>
    let r := q c
    ⟨r.result, max k r.furthest⟩

/-- Reads by the first of the readers that succeeds. -/
def firstOf : List (Reader α) → Reader α
  | [] => fail
  | p :: ps => p.orElse (firstOf ps)

/-- Reads a construct that may be missing. -/
def optional (p : Reader α) : Reader (Option α) := (some <$> p).orElse (succeed none)

/-- Reads a construct again and again, until it fails. `done` holds what has been read, last one
first, and `fuel` bounds the repetitions by its length. -/
def repeatFrom (p : Reader α) (done : List α) (furthest : Nat) :
    (fuel : List Char) → Reader (List α)
  | [] => fun c => ⟨some (done.reverse, c), furthest⟩
  | _ :: fuel => fun c =>
    match p c with
    | ⟨none, k⟩ => ⟨some (done.reverse, c), max furthest k⟩
    | ⟨some (a, c), k⟩ => repeatFrom p (a :: done) (max furthest k) fuel c

/-- Reads a construct, which takes a character at least, as often as it is there. -/
def repeated (p : Reader α) : Reader (List α) := fun c => repeatFrom p [] 0 (' ' :: c.rest) c

/-- Succeeds where the construct is there, and takes nothing. -/
def ahead (p : Reader α) : Reader Unit := fun c =>
  let r := p c
  ⟨r.result.map fun _ => ((), c), r.furthest⟩

/-- Succeeds where the construct is not there, and takes nothing. -/
def notAhead (p : Reader α) : Reader Unit := fun c =>
  match (p c).result with
  | none => ⟨some ((), c), 0⟩
  | some _ => ⟨none, 0⟩

/-- Makes a construct a named one: where it is not found, its start counts as a place that was
looked at. -/
def named (p : Reader α) : Reader α := fun c =>
  match p c with
  | ⟨some found, k⟩ => ⟨some found, k⟩
  | ⟨none, k⟩ => ⟨none, max k c.offset⟩

/-- Tells where a construct stands. -/
def placed (p : Reader α) : Reader (Placed α) := fun c =>
  let r := p c
  ⟨r.result.map fun (a, d) => (⟨⟨c.offset, d.offset⟩, a⟩, d), r.furthest⟩

/-- Takes one character that has a property. -/
def satisfying (p : Char → Bool) : Reader Char := fun c =>
  match c.rest with
  | [] => ⟨none, 0⟩
  | a :: rest => if p a then ⟨some (a, ⟨rest, c.offset + 1⟩), 0⟩ else ⟨none, 0⟩

/-- Takes the characters of a text. -/
def characters : List Char → Reader Unit
  | [] => succeed ()
  | a :: text => do
    let _ ← satisfying (· = a)
    characters text

/-- Takes the characters of a text. -/
def literal (text : String) : Reader Unit := characters text.toList

/-- Takes all characters up to the first one that does not have a property. -/
def takeWhile (p : Char → Bool) : Reader (List Char) := fun c =>
  ⟨some (c.rest.takeWhile p, Cursor.skipWhile p c.rest c.offset), 0⟩

/-- Takes one character at least, and all up to the first one that does not have a property. -/
def takeWhile1 (p : Char → Bool) : Reader (List Char) := do
  let a ← satisfying p
  let more ← takeWhile p
  return a :: more

/-- Succeeds at the end of the text. -/
def endOfText : Reader Unit := fun c => ⟨if c.rest.isEmpty then some ((), c) else none, 0⟩

end Reader

end TapeMachine.Notation
