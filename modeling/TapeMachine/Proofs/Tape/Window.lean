import TapeMachine.Proofs.Tape.Cells
import Mathlib.Data.List.TakeWhile
import Mathlib.Data.Set.List

/-!
# Tape — Window

The window of a tape shows its stored cells without the blanks around them.  Those blanks are not
seen, so a window read as a tape of its own is read like the tape (`Tape.read_window`); and the
outermost symbols of a window are no blanks (`Tape.window_trimmed`), so a tape that is read in the
same way has the same window (`Tape.window_eq_window_iff`), whatever cells either of them stores.
-/

namespace TapeMachine

/-- Neither the first nor the last symbol of a word is the blank. -/
structure Trimmed (b : Symbol) (w : Word) : Prop where
  head : w.head? ≠ some b
  last : w.getLast? ≠ some b

theorem trimmed_of_not_mem {b : Symbol} {w : Word} (h : b ∉ w) : Trimmed b w :=
  ⟨fun hb => h (List.mem_of_mem_head? hb), fun hb => h (List.mem_of_getLast? hb)⟩

/-- A word is one of things of a kind if each of its symbols is that of such a thing. -/
theorem exists_eq_map {α : Type} {f : α → Symbol} {w : Word} (h : ∀ c ∈ w, ∃ a, f a = c) :
    ∃ as : List α, w = as.map f := by
  have hmem : w ∈ Set.range (List.map f) := by
    rw [Set.range_list_map]
    exact h
  obtain ⟨as, has⟩ := hmem
  exact ⟨as, has.symm⟩

/-- So is a word over an alphabet that lists the symbols of some of these things. -/
theorem exists_eq_map_of_mem {α : Type} {f : α → Symbol} {w : Word} (alphabet : List α)
    (h : ∀ c ∈ w, c ∈ alphabet.map f) : ∃ as : List α, w = as.map f := by
  refine exists_eq_map fun c hc => ?_
  obtain ⟨a, -, ha⟩ := List.mem_map.mp (h c hc)
  exact ⟨a, ha⟩

/-- The tape that holds what a window shows, and is blank elsewhere. -/
def Window.tape (w : Window) (b : Symbol) : Tape := ⟨w.content, w.origin, b⟩

namespace Tape

variable {t u : Tape} {b : Symbol} {w v : Word} {o o' p : Int}

/-! ### The parts of the stored cells -/

theorem takeWhile_blank (b : Symbol) (w : Word) :
    w.takeWhile (· = b) = List.replicate (w.takeWhile (· = b)).length b :=
  List.eq_replicate_of_mem fun _ ha => by simpa using List.mem_takeWhile_imp ha

theorem dropWhile_head (b : Symbol) (w : Word) : (w.dropWhile (· = b)).head? ≠ some b := by
  intro h
  have := List.head?_dropWhile_not (· = b) w
  rw [h] at this
  simp at this

/-- A word is what is left of it without blanks at its end, and those blanks. -/
theorem dropBlanksRight_append (b : Symbol) (w : Word) :
    ∃ j, dropBlanksRight b w ++ List.replicate j b = w := by
  refine ⟨(w.reverse.takeWhile (· = b)).length, ?_⟩
  have h : (w.reverse.takeWhile (· = b)).reverse
      = List.replicate (w.reverse.takeWhile (· = b)).length b := by
    conv_lhs => rw [takeWhile_blank, List.reverse_replicate]
  rw [dropBlanksRight, ← h, ← List.reverse_append, List.takeWhile_append_dropWhile,
    List.reverse_reverse]

theorem trimmed_dropBlanksRight (hw : w.head? ≠ some b) : Trimmed b (dropBlanksRight b w) := by
  refine ⟨?_, ?_⟩
  · obtain ⟨j, hj⟩ := dropBlanksRight_append b w
    intro h
    apply hw
    rw [← hj, List.head?_append, h]
    rfl
  · rw [dropBlanksRight, List.getLast?_reverse]
    exact dropWhile_head b w.reverse

/-- A tape is its window with blanks stored around it; a tape of stored blanks shows nothing. -/
theorem exists_pad (t : Tape) :
    (∃ n, t.cells = List.replicate n t.blank ∧ t.window = ⟨0, []⟩) ∨
    ∃ i j w, t.cells = List.replicate i t.blank ++ w ++ List.replicate j t.blank ∧ w ≠ [] ∧
      Trimmed t.blank w ∧ t.window = ⟨t.origin + i, w⟩ := by
  have hsplit : t.cells = t.cells.takeWhile (· = t.blank) ++ t.cells.dropWhile (· = t.blank) :=
    List.takeWhile_append_dropWhile.symm
  rw [takeWhile_blank] at hsplit
  unfold window
  split
  · next hd =>
      rw [hd, List.append_nil] at hsplit
      exact .inl ⟨_, hsplit, rfl⟩
  · next hd =>
      obtain ⟨j, hj⟩ := dropBlanksRight_append t.blank (t.cells.dropWhile (· = t.blank))
      refine .inr ⟨_, j, dropBlanksRight t.blank (t.cells.dropWhile (· = t.blank)), ?_, ?_,
        trimmed_dropBlanksRight (dropWhile_head _ _), rfl⟩
      · rw [List.append_assoc, hj]
        exact hsplit
      · intro h
        rw [h, List.nil_append] at hj
        have hhead := dropWhile_head t.blank t.cells
        cases j with
        | zero => exact hd (by rw [← hj]; rfl)
        | succ j => exact hhead (by rw [← hj]; rfl)

/-! ### A window is read like its tape -/

theorem read_replicate (n : Nat) (o : Int) (b : Symbol) :
    (Tape.mk (List.replicate n b) o b).read = fun _ => b := by
  funext p
  simp only [read_eq]
  grind

theorem read_window (t : Tape) : (t.window.tape t.blank).read = t.read := by
  obtain ⟨n, hc, hw⟩ | ⟨i, j, w, hc, -, -, hw⟩ := t.exists_pad
  · have ht : t = ⟨List.replicate n t.blank, t.origin, t.blank⟩ := by rw [← hc]
    rw [hw, ht, read_replicate]
    exact read_replicate 0 0 t.blank
  · have ht : t =
        ⟨List.replicate i t.blank ++ w ++ List.replicate j t.blank, t.origin, t.blank⟩ := by
      rw [← hc]
    rw [hw, ht, read_pad]
    rfl

theorem window_trimmed (t : Tape) : Trimmed t.blank t.window.content := by
  obtain ⟨n, -, hw⟩ | ⟨i, j, w, -, -, htr, hw⟩ := t.exists_pad
  · rw [hw]
    exact ⟨nofun, nofun⟩
  · rw [hw]
    exact htr

theorem window_origin (h : t.window.content = []) : t.window.origin = 0 := by
  obtain ⟨n, -, hw⟩ | ⟨i, j, w, -, hne, -, hw⟩ := t.exists_pad
  · rw [hw]
  · rw [hw] at h
    exact absurd h hne

/-! ### Trimmed words, told apart by reading -/

theorem read_origin_ne (hw : w ≠ []) (ht : Trimmed b w) : (Tape.mk w o b).read o ≠ b := by
  obtain ⟨s, w, rfl⟩ := List.exists_cons_of_ne_nil hw
  have := ht.head
  simpa [read_eq] using this

theorem read_end_ne (hw : w ≠ []) (ht : Trimmed b w) :
    (Tape.mk w o b).read (o + w.length - 1) ≠ b := by
  have hpos : 0 < w.length := List.length_pos_iff.mpr hw
  have hlast := ht.last
  rw [List.getLast?_eq_getElem?] at hlast
  have hidx : (o + w.length - 1 - o).toNat = w.length - 1 := by omega
  simp only [read_eq]
  rw [if_neg (by omega), hidx]
  intro h
  apply hlast
  rw [List.getElem?_eq_getElem (by omega)] at h ⊢
  exact congrArg some h

/-- Where a tape reads something other than the blank, a cell is stored. -/
theorem covers_of_read_ne (h : t.read p ≠ t.blank) : t.Covers p :=
  by_contra fun hc => h (read_of_not_covers hc)

theorem eq_of_read_eq (hw : w ≠ []) (ht : Trimmed b w) (hv : v ≠ []) (hu : Trimmed b v)
    (h : (Tape.mk w o b).read = (Tape.mk v o' b).read) : o = o' ∧ w = v := by
  -- Each word covers both ends of the other one.
  have hw₁ := covers_of_read_ne (t := ⟨v, o', b⟩) (h ▸ read_origin_ne (o := o) hw ht)
  have hw₂ := covers_of_read_ne (t := ⟨v, o', b⟩) (h ▸ read_end_ne (o := o) hw ht)
  have hv₁ := covers_of_read_ne (t := ⟨w, o, b⟩) (h ▸ read_origin_ne (o := o') hv hu)
  have hv₂ := covers_of_read_ne (t := ⟨w, o, b⟩) (h ▸ read_end_ne (o := o') hv hu)
  simp only [Covers] at hw₁ hw₂ hv₁ hv₂
  have ho : o = o' := by omega
  subst ho
  refine ⟨rfl, List.ext_getElem (by omega) fun i hi hi' => ?_⟩
  have hread := congrFun h (o + i)
  simp only [read_eq] at hread
  grind

/-- The window of a tape and the way it is read determine each other. -/
theorem window_eq_window_iff (hb : t.blank = u.blank) : t.window = u.window ↔ t.read = u.read := by
  constructor
  · intro h
    rw [← read_window t, ← read_window u, h, hb]
  · intro h
    rw [← read_window t, ← read_window u, ← hb] at h
    have htt := window_trimmed t
    have htu := window_trimmed u
    rw [← hb] at htu
    have hnil (v : Window) (hv : v.content = []) : (v.tape t.blank).read = fun _ => t.blank := by
      rw [Window.tape, hv]
      exact read_replicate 0 _ _
    -- A window without content reads blank everywhere, and one with content does not at its origin.
    by_cases ht : t.window.content = [] <;> by_cases hu : u.window.content = []
    · exact congrArg₂ Window.mk ((window_origin ht).trans (window_origin hu).symm)
        (ht.trans hu.symm)
    · rw [hnil _ ht] at h
      exact absurd (congrFun h u.window.origin).symm (read_origin_ne hu htu)
    · rw [hnil _ hu] at h
      exact absurd (congrFun h t.window.origin) (read_origin_ne ht htt)
    · obtain ⟨ho, hc⟩ := eq_of_read_eq ht htt hu htu h
      exact congrArg₂ Window.mk ho hc

end Tape

end TapeMachine
