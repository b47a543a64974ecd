import TapeMachine.Proofs.Library.Binary
import TapeMachine.Proofs.Library.Programs
import TapeMachine.Proofs.Machine.OneTape

/-!
# Library — Binary reverse

Binary reverse puts a bar behind the word and copies the bits of the word behind the bar, one at a
time and the last one first; a bit that has been copied gets a mark (`reaches_copy`).  The copies
stand in the order in which the bits were taken, so they are the word in reverse when all bits have
marks (`reaches_copied`); then the marks and the bar are erased (`reaches_done`).

Words to the left of the bar are told from right to left here, as their bits are taken.
-/

namespace TapeMachine.Library.BinaryReverse

open List (replicate)
open Binary (bit)

/-- What binary reverse comes to on a strip. -/
abbrev Reaches : Strip → Strip → Prop := Strip.Reaches binaryReverse

/-- The mark of a bit that has been copied. -/
def mark : Bool → Symbol
  | false => 'a'
  | true => 'b'

/-- The state in which a bit is brought behind the bar. -/
def bringing : Bool → State
  | false => "carry0"
  | true => "carry1"

variable {a d : List Bool} {l r : Word}

/-! ### Rules for bits -/

/-- What binary reverse does by one of its rules. -/
abbrev Does : State → Symbol → Symbol → Move → State → Prop := binaryReverse.Does

theorem does_take (x : Bool) : Does "take" (bit x) (mark x) .right (bringing x) := by
  decide +revert

theorem does_bring_mark (x y : Bool) : Does (bringing x) (mark y) (mark y) .right (bringing x) := by
  decide +revert

theorem does_bring_bar (x : Bool) : Does (bringing x) '|' '|' .right (bringing x) := by
  decide +revert

theorem does_bring_bit (x y : Bool) : Does (bringing x) (bit y) (bit y) .right (bringing x) := by
  decide +revert

theorem does_put (x : Bool) : Does (bringing x) '_' (bit x) .left "back" := by decide +revert

/-! ### Copies -/

/-- **A bit is copied** behind the bits that have been copied before it. -/
theorem reaches_copy (x : Bool) (d : List Bool) (l r : Word) :
    Reaches (.leftward "take" (d.map mark ++ bit x :: l) ('|' :: (d.map bit ++ '_' :: r)))
      (.leftward "take" ((d ++ [x]).map mark ++ l) ('|' :: ((d ++ [x]).map bit ++ r))) :=
  calc
    Reaches _ (.leftward "take" (bit x :: l)
        ((d.map mark).reverse ++ '|' :: (d.map bit ++ '_' :: r))) :=
      Strip.sweep_left (by decide) (by simp)
    Reaches _ ⟨bringing x, mark x :: l, (d.map mark).reverse ++ '|' :: (d.map bit ++ '_' :: r)⟩ :=
      Strip.reaches_right (does_take x)
    Reaches _ ⟨bringing x, d.map mark ++ mark x :: l, '|' :: (d.map bit ++ '_' :: r)⟩ :=
      Strip.sweep_right (does_bring_mark x)
    Reaches _ ⟨bringing x, '|' :: (d.map mark ++ mark x :: l), d.map bit ++ '_' :: r⟩ :=
      Strip.reaches_right (does_bring_bar x)
    Reaches _ (.leftward (bringing x)
        ('_' :: ((d.map bit).reverse ++ '|' :: (d.map mark ++ mark x :: l))) r) :=
      Strip.sweep_right_of_mem fun y _ => does_bring_bit x y
    Reaches _ (.leftward "back" ((d.map bit).reverse ++ '|' :: (d.map mark ++ mark x :: l))
        (bit x :: r)) :=
      Strip.reaches_left (does_put x) (by simp)
    Reaches _ (.leftward "back" ('|' :: (d.map mark ++ mark x :: l)) (d.map bit ++ bit x :: r)) :=
      Strip.sweep_back (by decide) (by simp)
    Reaches _ (.leftward "take" (d.map mark ++ mark x :: l) ('|' :: (d.map bit ++ bit x :: r))) :=
      Strip.reaches_left (by decide) (by simp)
    _ = .leftward "take" ((d ++ [x]).map mark ++ l) ('|' :: ((d ++ [x]).map bit ++ r)) := by simp

/-- All bits are copied, in the order in which they are taken. -/
theorem reaches_copied (a d : List Bool) (l r : Word) :
    Reaches
      (.leftward "take" (d.map mark ++ (a.map bit ++ l))
        ('|' :: (d.map bit ++ (replicate a.length '_' ++ r))))
      (.leftward "take" ((d ++ a).map mark ++ l) ('|' :: ((d ++ a).map bit ++ r))) := by
  induction a generalizing d with
  | nil => rw [List.append_nil]; exact .refl
  | cons x a ih =>
      have hrest := ih (d ++ [x])
      rw [List.append_assoc d [x] a] at hrest
      exact (reaches_copy x d _ _).trans hrest

/-! ### The whole run -/

/-- A bar is put behind the word. -/
theorem reaches_take (a : List Bool) (r : Word) :
    Reaches ⟨"start", ['_'], (a.map bit).reverse ++ '_' :: r⟩
      (.leftward "take" (a.map bit ++ ['_']) ('|' :: r)) :=
  calc
    Reaches _ (.leftward "start" ('_' :: (a.map bit ++ ['_'])) r) := Strip.sweep_right (by decide)
    Reaches _ (.leftward "take" (a.map bit ++ ['_']) ('|' :: r)) :=
      Strip.reaches_left (by decide) (by simp)

/-- The marks and the bar are erased. -/
theorem reaches_done (a : List Bool) (r : Word) :
    Reaches (.leftward "take" (a.map mark ++ ['_']) ('|' :: r))
      ⟨"done", replicate (a.length + 2) '_', r⟩ :=
  calc
    Reaches _ (.leftward "take" ['_'] ((a.map mark).reverse ++ '|' :: r)) :=
      Strip.sweep_left (by decide) (by simp)
    Reaches _ ⟨"erase", ['_'], (a.map mark).reverse ++ '|' :: r⟩ := Strip.reaches_right (by decide)
    Reaches _ ⟨"erase", (a.map fun _ => '_') ++ ['_'], '|' :: r⟩ := Strip.sweep_right (by decide)
    Reaches _ ⟨"done", '_' :: ((a.map fun _ => '_') ++ ['_']), r⟩ := Strip.reaches_right (by decide)
    _ = ⟨"done", replicate (a.length + 2) '_', r⟩ := by
      rw [List.map_const', ← List.replicate_succ']
      rfl

/-- Binary reverse comes to the reverse of every word. -/
theorem reaches_reverse (a : List Bool) :
    Reaches ⟨"start", ['_'], (a.map bit).reverse ++ replicate (a.length + 2) '_'⟩
      ⟨"done", replicate (a.length + 2) '_', a.map bit ++ ['_']⟩ :=
  calc
    Reaches _ (.leftward "take" (a.map bit ++ ['_']) ('|' :: replicate (a.length + 1) '_')) :=
      reaches_take a _
    Reaches _ (.leftward "take" (a.map mark ++ ['_']) ('|' :: (a.map bit ++ ['_']))) := by
      rw [List.replicate_succ']
      exact reaches_copied a [] ['_'] ['_']
    Reaches _ ⟨"done", replicate (a.length + 2) '_', a.map bit ++ ['_']⟩ := reaches_done a _

/-- **Binary reverse reverses.**  On bits it halts, with any budget beyond the steps to the halt and
whether it looks for loops or not; it accepts, and leaves the word in reverse. -/
theorem reverses (w : Word) (hw : ∀ c ∈ w, c = '0' ∨ c = '1') (hsize : w.length < 1099511627776) :
    ∃ p, named "Binary Reverse" = .ok p ∧ p.HaltsOn w fun e =>
      e.halt = .accepted ∧ e.finalState = "done" ∧ e.finalTapes = [w.reverse] := by
  obtain ⟨b, rfl⟩ := Binary.exists_eq_map_bit hw
  have hreaches := reaches_reverse b.reverse
  rw [List.map_reverse, List.reverse_reverse, List.length_reverse] at hreaches
  have hroom : 1 + (b.map bit).length + (b.length + 2) < 4398046511104 := by
    rw [List.length_map] at hsize ⊢
    omega
  have hidle : ∀ r ∈ binaryReverse.rules, r.state ≠ "done" := by decide
  have hfinal : "done" ∈ binaryReverse.finals := by decide
  have hcells :
      (Strip.mk "done" (replicate (b.length + 2) '_') ((b.map bit).reverse ++ ['_'])).cells =
        replicate (b.length + 2) '_' ++ (b.map bit).reverse ++ replicate 1 '_' := by
    rw [Strip.cells, List.reverse_replicate, List.append_assoc]
    rfl
  have hblank : '_' ∉ (b.map bit).reverse := by
    rw [List.mem_reverse]
    exact Binary.blank_not_mem_map_bit b
  exact ⟨binaryReverse, named_binaryReverse,
    Program.accepts_of_reaches wellFormed_binaryReverse rfl rfl hroom hreaches
      (Strip.stuck_of_idle hidle (by simp)) hfinal hcells (trimmed_of_not_mem hblank)⟩

/-- A word that begins with zeros keeps them at the end. -/
theorem reverses_zeros : (∀ c ∈ ['0', '0', '1'], c = '0' ∨ c = '1') ∧
    ['0', '0', '1'].length < 1099511627776 ∧
    ∃ p, named "Binary Reverse" = .ok p ∧ p.HaltsOn ['0', '0', '1'] fun e =>
      e.halt = .accepted ∧ e.finalState = "done" ∧ e.finalTapes = [['1', '0', '0']] :=
  have hw : ∀ c ∈ ['0', '0', '1'], c = '0' ∨ c = '1' := by simp
  ⟨hw, by decide, reverses ['0', '0', '1'] hw (by decide)⟩

end TapeMachine.Library.BinaryReverse
