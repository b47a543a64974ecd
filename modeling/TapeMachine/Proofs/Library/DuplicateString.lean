import TapeMachine.Proofs.Library.Programs
import TapeMachine.Proofs.Machine.OneTape

/-!
# Library — Duplicate string

The program takes the letters of a word from left to right.  It marks each one in upper case and
brings a copy of it, which is marked as well, to the end of the tape (`reaches_copy`), so that the
copies stand behind the word in the order of the word (`reaches_copied`).  Then it goes back over
the marked letters and once more over all of the tape, and turns both halves into plain letters
(`reaches_plain`).
-/

namespace TapeMachine.Library.DuplicateString

open List (replicate)

/-- What the program comes to on a strip. -/
abbrev Reaches : Strip → Strip → Prop := Strip.Reaches duplicateString

/-- A letter of a word. -/
def plain : Fin 3 → Symbol
  | 0 => 'a'
  | 1 => 'b'
  | 2 => 'c'

/-- The mark of a letter that has been copied. -/
def marked : Fin 3 → Symbol
  | 0 => 'A'
  | 1 => 'B'
  | 2 => 'C'

/-- The copy of a letter. -/
def copied : Fin 3 → Symbol
  | 0 => 'x'
  | 1 => 'y'
  | 2 => 'z'

/-- The state in which a letter is brought to the end. -/
def bringing : Fin 3 → State
  | 0 => "carry_a"
  | 1 => "carry_b"
  | 2 => "carry_c"

variable {a d : List (Fin 3)} {l r : Word}

/-! ### Rules for letters -/

/-- What the program does by one of its rules. -/
abbrev Does : State → Symbol → Symbol → Move → State → Prop := duplicateString.Does

theorem does_take (x : Fin 3) : Does "q0" (plain x) (marked x) .right (bringing x) := by
  decide +revert

theorem does_bring_plain (x y : Fin 3) :
    Does (bringing x) (plain y) (plain y) .right (bringing x) := by decide +revert

theorem does_bring_copied (x y : Fin 3) :
    Does (bringing x) (copied y) (copied y) .right (bringing x) := by decide +revert

theorem does_put (x : Fin 3) : Does (bringing x) '_' (copied x) .left "back" := by decide +revert

theorem does_turn (x : Fin 3) : Does "back" (marked x) (marked x) .right "q0" := by decide +revert

theorem does_end (x : Fin 3) : Does "q0" (copied x) (copied x) .left "lower" := by decide +revert

theorem does_pass (x : Fin 3) : Does "unmark" (plain x) (plain x) .right "unmark" := by
  decide +revert

theorem does_unmark (x : Fin 3) : Does "unmark" (copied x) (plain x) .right "unmark" := by
  decide +revert

/-- Every word over the letters is one of letters. -/
theorem exists_eq_map_plain {w : Word} (hw : ∀ c ∈ w, c ∈ ['a', 'b', 'c']) :
    ∃ a : List (Fin 3), w = a.map plain :=
  exists_eq_map_of_mem (List.finRange 3) hw

/-! ### Copies -/

/-- **A letter is copied** behind the letters that have been copied before it. -/
theorem reaches_copy (x : Fin 3) (a d : List (Fin 3)) (l r : Word) :
    Reaches ⟨"q0", l, plain x :: (a.map plain ++ (d.map copied ++ '_' :: r))⟩
      ⟨"q0", marked x :: l, a.map plain ++ (d.map copied ++ copied x :: r)⟩ :=
  calc
    Reaches _ ⟨bringing x, marked x :: l, a.map plain ++ (d.map copied ++ '_' :: r)⟩ :=
      Strip.reaches_right (does_take x)
    Reaches _ ⟨bringing x, (a.map plain).reverse ++ marked x :: l, d.map copied ++ '_' :: r⟩ :=
      Strip.sweep_right_of_mem fun y _ => does_bring_plain x y
    Reaches _ (.leftward (bringing x)
        ('_' :: ((d.map copied).reverse ++ ((a.map plain).reverse ++ marked x :: l))) r) :=
      Strip.sweep_right_of_mem fun y _ => does_bring_copied x y
    Reaches _ (.leftward "back" ((d.map copied).reverse ++ ((a.map plain).reverse ++ marked x :: l))
        (copied x :: r)) :=
      Strip.reaches_left (does_put x) (by simp)
    Reaches _ (.leftward "back" ((a.map plain).reverse ++ marked x :: l)
        (d.map copied ++ copied x :: r)) :=
      Strip.sweep_back (by decide) (by simp)
    Reaches _ (.leftward "back" (marked x :: l)
        (a.map plain ++ (d.map copied ++ copied x :: r))) :=
      Strip.sweep_back (by decide) (by simp)
    Reaches _ ⟨"q0", marked x :: l, a.map plain ++ (d.map copied ++ copied x :: r)⟩ :=
      Strip.reaches_right (does_turn x)

/-- All letters are copied, in the order of the word. -/
theorem reaches_copied (a d : List (Fin 3)) (l r : Word) :
    Reaches ⟨"q0", l, a.map plain ++ (d.map copied ++ (replicate a.length '_' ++ r))⟩
      ⟨"q0", (a.map marked).reverse ++ l, (d ++ a).map copied ++ r⟩ := by
  induction a generalizing d l with
  | nil =>
      rw [List.append_nil]
      exact .refl
  | cons x a ih =>
      have hrest := ih (d ++ [x]) (marked x :: l)
      simp only [List.map_append, List.append_assoc, List.map_cons, List.map_nil, List.cons_append,
        List.nil_append, List.reverse_cons] at hrest ⊢
      exact (reaches_copy x a d l _).trans hrest

/-! ### The whole run -/

/-- At the first copy, or at the blank behind an empty word, the program turns back. -/
theorem reaches_lower (a : List (Fin 3)) (hl : l ≠ []) (r : Word) :
    Reaches ⟨"q0", l, a.map copied ++ '_' :: r⟩ (.leftward "lower" l (a.map copied ++ '_' :: r)) := by
  cases a with
  | nil => exact Strip.reaches_left (w := l) (by decide) hl
  | cons x a => exact Strip.reaches_left (w := l) (does_end x) hl

/-- Both halves are turned into plain letters. -/
theorem reaches_plain (a : List (Fin 3)) (r : Word) :
    Reaches ⟨"q0", (a.map marked).reverse ++ ['_'], a.map copied ++ '_' :: r⟩
      ⟨"done", (a.map plain).reverse ++ ((a.map plain).reverse ++ ['_']), '_' :: r⟩ :=
  calc
    Reaches _ (.leftward "lower" ((a.map marked).reverse ++ ['_']) (a.map copied ++ '_' :: r)) :=
      reaches_lower a (by simp) r
    Reaches _ (.leftward "lower" ['_'] (a.map plain ++ (a.map copied ++ '_' :: r))) :=
      Strip.sweep_back (by decide) (by simp)
    Reaches _ ⟨"unmark", ['_'], a.map plain ++ (a.map copied ++ '_' :: r)⟩ :=
      Strip.reaches_right (by decide)
    Reaches _ ⟨"unmark", (a.map plain).reverse ++ ['_'], a.map copied ++ '_' :: r⟩ :=
      Strip.sweep_right_of_mem fun x _ => does_pass x
    Reaches _ ⟨"unmark", (a.map plain).reverse ++ ((a.map plain).reverse ++ ['_']), '_' :: r⟩ :=
      Strip.sweep_right_of_mem fun x _ => does_unmark x
    Reaches _ ⟨"done", (a.map plain).reverse ++ ((a.map plain).reverse ++ ['_']), '_' :: r⟩ :=
      Strip.reaches_stay (by decide)

/-- The program comes to every word written twice. -/
theorem reaches_done (a : List (Fin 3)) :
    Reaches ⟨"q0", ['_'], a.map plain ++ replicate (a.length + 1) '_'⟩
      ⟨"done", (a.map plain).reverse ++ ((a.map plain).reverse ++ ['_']), ['_']⟩ := by
  rw [List.replicate_succ']
  exact (reaches_copied a [] ['_'] ['_']).trans (reaches_plain a [])

/-- **Duplicate string duplicates.**  On a word over the letters it halts, with any budget beyond
the steps to the halt and whether it looks for loops or not; it accepts, and leaves the word
twice. -/
theorem duplicates (w : Word) (hw : ∀ c ∈ w, c ∈ ['a', 'b', 'c']) (hsize : w.length < 1099511627776) :
    ∃ p, named "Duplicate String" = .ok p ∧ p.HaltsOn w fun e =>
      e.halt = .accepted ∧ e.finalState = "done" ∧ e.finalTapes = [w ++ w] := by
  have hblank : '_' ∉ w ++ w := by
    rw [List.mem_append, or_self]
    exact fun h => absurd (hw '_' h) (by decide)
  obtain ⟨a, rfl⟩ := exists_eq_map_plain hw
  have hroom : 1 + (a.map plain).length + (a.length + 1) < 4398046511104 := by
    rw [List.length_map] at hsize ⊢
    omega
  have hcells : (Strip.mk "done" ((a.map plain).reverse ++ ((a.map plain).reverse ++ ['_']))
      ['_']).cells = replicate 1 '_' ++ (a.map plain ++ a.map plain) ++ replicate 1 '_' := by
    simp [Strip.cells]
  have hfinal : "done" ∈ duplicateString.finals := by decide
  exact ⟨duplicateString, named_duplicateString,
    Program.accepts_of_reaches wellFormed_duplicateString rfl rfl hroom (reaches_done a)
      (Strip.stuck_of_firstRule (by decide)) hfinal hcells (trimmed_of_not_mem hblank)⟩

/-- A letter that occurs twice is copied at both places. -/
theorem duplicates_again : (∀ c ∈ ['b', 'a', 'b'], c ∈ ['a', 'b', 'c']) ∧
    ['b', 'a', 'b'].length < 1099511627776 ∧
    ∃ p, named "Duplicate String" = .ok p ∧ p.HaltsOn ['b', 'a', 'b'] fun e =>
      e.halt = .accepted ∧ e.finalState = "done" ∧
      e.finalTapes = [['b', 'a', 'b', 'b', 'a', 'b']] :=
  have hw : ∀ c ∈ ['b', 'a', 'b'], c ∈ ['a', 'b', 'c'] := by simp
  ⟨hw, by decide, duplicates ['b', 'a', 'b'] hw (by decide)⟩

end TapeMachine.Library.DuplicateString
