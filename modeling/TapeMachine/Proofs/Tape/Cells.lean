import TapeMachine.Tape
import Mathlib.Tactic

/-!
# Tape — Cells

What a write does to the stored cells, and what it does to the tape as it is read.  A write goes one
of five ways (`Tape.Written`): the cell is stored; a blank falls outside of the store; the store is
empty; the store grows to the left; it grows to the right.  Read back, all five are the same thing
(`Tape.read_write`): the symbol stands at its position, and every other position reads as before.

A store that lies in an interval stays in it as long as the writes do (`Tape.Written.within`).
-/

namespace TapeMachine.Tape

variable {t t' : Tape} {p q low high : Int} {s : Symbol}

/-! ### Reading -/

theorem read_of_not_covers (h : ¬ t.Covers p) : t.read p = t.blank := by
  unfold read
  split
  · rfl
  · next hp =>
      have hlen : t.cells.length ≤ (p - t.origin).toNat := by
        simp only [Covers, not_and, not_lt] at h
        have := h (not_lt.mp hp)
        omega
      rw [List.getD_eq_getElem?_getD, List.getElem?_eq_none hlen, Option.getD_none]

/-- Reading, by the cell at the distance from the origin. -/
theorem read_eq (t : Tape) (p : Int) :
    t.read p = if p < t.origin then t.blank else (t.cells[(p - t.origin).toNat]?).getD t.blank := by
  rw [read, List.getD_eq_getElem?_getD]

/-- Blanks around the stored cells are not seen. -/
theorem read_pad (w : Word) (o : Int) (b : Symbol) (i j : Nat) :
    (Tape.mk (List.replicate i b ++ w ++ List.replicate j b) o b).read =
      (Tape.mk w (o + i) b).read := by
  funext p
  simp only [read_eq]
  grind

/-! ### The five ways of a write -/

/-- What becomes of a tape by the write of a symbol at a position. -/
inductive Written (t : Tape) (p : Int) (s : Symbol) : Tape → Prop where
  | stored (h : t.Covers p) :
      Written t p s { t with cells := t.cells.set (p - t.origin).toNat s }
  | blank (h : ¬ t.Covers p) (hs : s = t.blank) : Written t p s t
  | first (h : t.cells = []) (hs : s ≠ t.blank) :
      Written t p s { t with cells := [s], origin := p }
  | left (n : Nat) (h : p + n + 1 = t.origin) (hc : t.cells ≠ []) (hs : s ≠ t.blank) :
      Written t p s
        { t with cells := s :: (List.replicate n t.blank ++ t.cells), origin := p }
  | right (n : Nat) (h : p = t.origin + t.cells.length + n) (hc : t.cells ≠ [])
      (hs : s ≠ t.blank) :
      Written t p s { t with cells := t.cells ++ (List.replicate n t.blank ++ [s]) }

theorem written_of_write (h : t.write p s = .ok t') : Written t p s t' := by
  unfold write at h
  split at h
  · next hc =>
      cases h
      exact .stored hc
  · next hc =>
      split at h
      · next hs =>
          cases h
          exact .blank hc hs
      · next hs =>
          split at h
          · next he =>
              cases h
              exact .first (List.isEmpty_iff.mp he) hs
          · next he =>
              have hne : t.cells ≠ [] := fun e => he (List.isEmpty_iff.mpr e)
              simp only [Covers, not_and, not_lt] at hc
              split at h
              · next hlt =>
                  simp only [growLeft] at h
                  split at h
                  · cases h
                  · cases h
                    exact .left _ (by omega) hne hs
              · next hge =>
                  have := hc (not_lt.mp hge)
                  simp only [growRight] at h
                  split at h
                  · cases h
                  · cases h
                    exact .right _ (by omega) hne hs

theorem Written.blank_eq (h : Written t p s t') : t'.blank = t.blank := by
  cases h <;> rfl

theorem blank_write (h : t.write p s = .ok t') : t'.blank = t.blank :=
  (written_of_write h).blank_eq

/-- The write of a symbol is seen at its position and nowhere else. -/
theorem Written.read_eq (h : Written t p s t') (q : Int) :
    t'.read q = if q = p then s else t.read q := by
  cases h with
  | stored hc =>
      simp only [Covers] at hc
      simp only [Tape.read_eq]
      grind
  | blank hc hs =>
      split
      · next hq => rw [hq, read_of_not_covers hc, hs]
      · rfl
  | first hc _ =>
      simp only [Tape.read_eq, hc]
      grind
  | left n hn _ _ =>
      simp only [Tape.read_eq]
      grind
  | right n hn _ _ =>
      simp only [Tape.read_eq]
      grind

theorem read_write (h : t.write p s = .ok t') : t'.read = Function.update t.read p s := by
  funext q
  rw [(written_of_write h).read_eq, Function.update_apply]

/-! ### Where the stored cells lie -/

/-- Every stored position lies between `low`, which may be one of them, and `high`. -/
def Within (t : Tape) (low high : Int) : Prop := ∀ q, t.Covers q → low ≤ q ∧ q < high

theorem within_iff (hc : t.cells ≠ []) :
    t.Within low high ↔ low ≤ t.origin ∧ t.origin + t.cells.length ≤ high := by
  have hpos : 0 < t.cells.length := List.length_pos_iff.mpr hc
  constructor
  · intro h
    have hfirst := h t.origin ⟨le_refl _, by omega⟩
    have hlast := h (t.origin + t.cells.length - 1) ⟨by omega, by omega⟩
    omega
  · rintro ⟨hl, hh⟩ q ⟨h₁, h₂⟩
    omega

theorem within_ofWord {w : Word} {b : Symbol} (hl : low ≤ 0) (hh : (w.length : Int) ≤ high) :
    (ofWord w b).Within low high := by
  rintro q ⟨h₁, h₂⟩
  simp only [ofWord] at h₁ h₂
  omega

/-- A store in an interval stays there when a write falls into the interval. -/
theorem Written.within (h : Written t p s t') (ht : t.Within low high) (hl : low ≤ p)
    (hh : p < high) : t'.Within low high := by
  cases h with
  | stored hc =>
      intro q hq
      exact ht q (by simpa [Covers] using hq)
  | blank _ _ => exact ht
  | first _ _ =>
      rw [within_iff (by simp)]
      simp only [List.length_singleton]
      omega
  | left n hn hc _ =>
      rw [within_iff hc] at ht
      rw [within_iff (by simp)]
      simp only [List.length_cons, List.length_append, List.length_replicate]
      omega
  | right n hn hc _ =>
      rw [within_iff hc] at ht
      rw [within_iff (by simp)]
      simp only [List.length_append, List.length_replicate, List.length_singleton]
      omega

end TapeMachine.Tape
