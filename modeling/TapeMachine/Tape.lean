/-!
# Tape

A tape is infinite in both directions and blank almost everywhere. The cells between the outermost
ones ever filled are stored; `Tape.read` sees the whole tape, and `Tape.window` shows the stored
cells without the blanks at both ends. Writing a blank outside of the stored cells changes nothing,
and any other write outside of them extends the store up to the place of the write.
-/

namespace TapeMachine

/-- A symbol that a cell can hold. -/
abbrev Symbol := Char

/-- The hash of a symbol is its code point. -/
instance : Hashable Symbol := ⟨fun s => s.toNat.toUInt64⟩

/-- A finite string of symbols. -/
abbrev Word := List Symbol

/-- Why a configuration cannot be changed as asked. -/
inductive Breakdown where
  /-- The tape would store more cells than can be. -/
  | tapeFull
  /-- The rule has no symbol to write, or no move, for one of the tapes. -/
  | ruleTooShort
  deriving DecidableEq, Repr

/-- A tape: its stored cells, the position of the first of them, and its blank symbol. -/
structure Tape where
  cells : Word
  origin : Int
  blank : Symbol
  deriving DecidableEq, Repr

/-- The part of a tape between its outermost symbols other than the blank, and where it starts.
Nothing, at position 0, for a tape that is all blank. -/
structure Window where
  origin : Int
  content : Word
  deriving DecidableEq, Repr, Hashable

namespace Tape

/-- The greatest number of cells that a tape can store, `2 ^ 61 - 1`. -/
def capacity : Nat := 2305843009213693951

/-- The tape that holds a word from position 0 onwards. -/
def ofWord (content : Word) (blank : Symbol) : Tape := ⟨content, 0, blank⟩

/-- Whether the cell at a position is stored. -/
def Covers (t : Tape) (p : Int) : Prop := t.origin ≤ p ∧ p < t.origin + t.cells.length

instance (t : Tape) (p : Int) : Decidable (t.Covers p) :=
  inferInstanceAs (Decidable (_ ∧ _))

/-- The symbol at a position. -/
def read (t : Tape) (p : Int) : Symbol :=
  if p < t.origin then t.blank else t.cells.getD (p - t.origin).toNat t.blank

/-- Puts a symbol to the left of the stored cells, and blanks between it and them. -/
def growLeft (t : Tape) (p : Int) (s : Symbol) : Except Breakdown Tape :=
  let gap := (t.origin - p).toNat
  if capacity < t.cells.length + gap then .error .tapeFull
  else .ok { t with cells := s :: (List.replicate (gap - 1) t.blank ++ t.cells), origin := p }

/-- Puts a symbol to the right of the stored cells, and blanks between them and it. -/
def growRight (t : Tape) (p : Int) (s : Symbol) : Except Breakdown Tape :=
  let index := (p - t.origin).toNat
  if capacity < index + 1 then .error .tapeFull
  else .ok { t with cells := t.cells ++ (List.replicate (index - t.cells.length) t.blank ++ [s]) }

/-- Writes a symbol at a position. -/
def write (t : Tape) (p : Int) (s : Symbol) : Except Breakdown Tape :=
  if t.Covers p then .ok { t with cells := t.cells.set (p - t.origin).toNat s }
  else if s = t.blank then .ok t
  else if t.cells.isEmpty then .ok { t with cells := [s], origin := p }
  else if p < t.origin then t.growLeft p s
  else t.growRight p s

/-- The least and the greatest stored position, if any cell is stored. -/
def bounds (t : Tape) : Option (Int × Int) :=
  if t.cells.isEmpty then none else some (t.origin, t.origin + (t.cells.length - 1))

/-- A word without the blanks at its end. -/
def dropBlanksRight (blank : Symbol) (w : Word) : Word :=
  (w.reverse.dropWhile (· = blank)).reverse

/-- The window of a tape. -/
def window (t : Tape) : Window :=
  let left := t.cells.takeWhile (· = t.blank)
  match t.cells.dropWhile (· = t.blank) with
  | [] => ⟨0, []⟩
  | rest => ⟨t.origin + left.length, dropBlanksRight t.blank rest⟩

/-- The content of the window of a tape. -/
def contents (t : Tape) : Word := t.window.content

end Tape

end TapeMachine
