import TapeMachine.Proofs.Tape.Window

/-!
# Tape — Rewriting a window

What a write does to the window of a tape is told by the window alone: lay out the cells of the
window and all those between it and the place of the write, put the symbol in its place, and trim
the blanks (`Window.write`).  The window so found is read like the old one with the symbol written
(`Window.read_write`), and it is the window of the tape after the write, whatever cells the tape
stores (`Tape.window_write`).
-/

namespace TapeMachine

/-- The cells from position `low` up to `high`, which is left out, of a tape that is read in this
way, with nothing stored around them. -/
def Tape.layOut (low high : Int) (b : Symbol) (f : Int → Symbol) : Tape :=
  ⟨(List.range (high - low).toNat).map fun i : Nat => f (low + i), low, b⟩

theorem Tape.read_layOut {low high : Int} {b : Symbol} {f : Int → Symbol}
    (h : ∀ q, q < low ∨ high ≤ q → f q = b) : (layOut low high b f).read = f := by
  funext q
  rw [Tape.read_eq]
  simp only [layOut, List.getElem?_map]
  by_cases hq : q < low
  · rw [if_pos hq, h q (.inl hq)]
  · rw [if_neg hq]
    by_cases hq' : high ≤ q
    · rw [List.getElem?_eq_none (by simp only [List.length_range]; omega), h q (.inr hq')]
      rfl
    · rw [List.getElem?_range (by omega), Option.map_some, Option.getD_some]
      congr 1
      omega

namespace Window

/-- The window after the write of a symbol at a position. -/
def write (w : Window) (b : Symbol) (p : Int) (s : Symbol) : Window :=
  (Tape.layOut (min w.origin p) (max (w.origin + w.content.length) (p + 1)) b
    (Function.update (w.tape b).read p s)).window

theorem read_layOut_update (w : Window) (b : Symbol) (p : Int) (s : Symbol) :
    (Tape.layOut (min w.origin p) (max (w.origin + w.content.length) (p + 1)) b
      (Function.update (w.tape b).read p s)).read = Function.update (w.tape b).read p s := by
  refine Tape.read_layOut fun q hq => ?_
  rw [Function.update_of_ne (by omega)]
  refine Tape.read_of_not_covers (t := w.tape b) ?_
  simp only [Tape.Covers, tape]
  omega

theorem read_write (w : Window) (b : Symbol) (p : Int) (s : Symbol) :
    ((w.write b p s).tape b).read = Function.update (w.tape b).read p s :=
  (Tape.read_window _).trans (read_layOut_update w b p s)

end Window

namespace Tape

variable {t u : Tape} {p : Int} {s : Symbol}

/-- The window of a tape after a write is the window before it, rewritten. -/
theorem window_write (h : t.write p s = .ok u) : u.window = t.window.write t.blank p s := by
  have hb : u.blank = t.blank := blank_write h
  refine (window_eq_window_iff (u := layOut _ _ t.blank _) hb).mpr ?_
  rw [Window.read_layOut_update, read_window]
  exact read_write h

/-- A window that is erased is at position 0. -/
example : (Window.mk 2 ['a']).write '_' 2 '_' = ⟨0, []⟩ := by decide

end Tape

end TapeMachine
