import TapeMachine.Proofs.Tape.Writes
import TapeMachine.Range

/-!
# Tape — Bounds

The stored cells are the exact hull of what was put on a tape: of the positions of its content,
blank or not, and of those where a symbol other than the blank was written (`Tape.filled`).  Nothing
else is stored, and no cell is given up when a blank is written over it (`Tape.span_writeAll`).  So
the bounds of a tape are the least and the greatest of these positions (`Tape.bounds_exact`),
whatever the order of the writes.

Many writes, like one, fail for want of cells only: they succeed exactly if everything fits
(`Tape.exists_writeAll_iff`).
-/

namespace TapeMachine.Tape

variable {t u : Tape} {p lo hi : Int} {s b : Symbol} {w : Word} {ws ws' : List (Int × Symbol)}

/-! ### The span after many writes -/

/-- The positions where writes put a symbol other than the blank. -/
def marks (b : Symbol) (ws : List (Int × Symbol)) : Set Int := {q | ∃ s, (q, s) ∈ ws ∧ s ≠ b}

theorem marks_nil (b : Symbol) : marks b [] = ∅ :=
  Set.eq_empty_of_forall_notMem fun _ ⟨_, h, _⟩ => List.not_mem_nil h

theorem marks_cons_blank (b : Symbol) (p : Int) (ws : List (Int × Symbol)) :
    marks b ((p, b) :: ws) = marks b ws := by
  ext q
  constructor
  · rintro ⟨s, hmem, hs⟩
    rcases List.mem_cons.1 hmem with heq | hmem
    · exact absurd (Prod.mk.inj heq).2 hs
    · exact ⟨s, hmem, hs⟩
  · rintro ⟨s, hmem, hs⟩
    exact ⟨s, List.mem_cons_of_mem _ hmem, hs⟩

theorem marks_cons_of_ne (hs : s ≠ b) : marks b ((p, s) :: ws) = insert p (marks b ws) := by
  ext q
  constructor
  · rintro ⟨s', hmem, hs'⟩
    rcases List.mem_cons.1 hmem with heq | hmem
    · exact .inl (Prod.mk.inj heq).1
    · exact .inr ⟨s', hmem, hs'⟩
  · rintro (rfl | ⟨s', hmem, hs'⟩)
    · exact ⟨s, List.mem_cons_self, hs⟩
    · exact ⟨s', List.mem_cons_of_mem _ hmem, hs'⟩

theorem marks_eq_empty_iff : marks b ws = ∅ ↔ ∀ x ∈ ws, x.2 = b := by
  rw [Set.eq_empty_iff_forall_notMem]
  constructor
  · intro h x hx
    by_contra hb
    exact h x.1 ⟨x.2, hx, hb⟩
  · rintro h q ⟨s, hmem, hs⟩
    exact hs (h (q, s) hmem)

/-- Blank writes leave no marks, and the others leave the same ones in any order. -/
theorem marks_eq_of_perm (h : (ws'.filter (·.2 ≠ b)).Perm (ws.filter (·.2 ≠ b))) :
    marks b ws' = marks b ws := by
  ext q
  refine exists_congr fun s => ?_
  have hmem := h.mem_iff (a := (q, s))
  simpa only [List.mem_filter, decide_eq_true_eq] using hmem

/-- **The span after writes** is the hull of what was stored and of what was written. -/
theorem span_writeAll (h : t.writeAll ws = .ok u) : u.span = hull (t.span ∪ marks t.blank ws) := by
  induction ws generalizing t with
  | nil =>
      cases h
      rw [marks_nil, Set.union_empty, hull_eq_self u.ordConnected_span]
  | cons w ws ih =>
      obtain ⟨p, s⟩ := w
      obtain ⟨t', hw, h⟩ := writeAll_cons_eq_ok.1 h
      rw [ih h, blank_write hw]
      by_cases hs : s = t.blank
      · subst hs
        rw [span_write_blank hw, marks_cons_blank]
      · rw [span_write_of_ne hw hs, marks_cons_of_ne hs, hull_hull_union, Set.insert_union,
          Set.union_insert]

theorem fits_writeAll (ht : Fits t.span) (h : t.writeAll ws = .ok u) : Fits u.span := by
  induction ws generalizing t with
  | nil =>
      cases h
      exact ht
  | cons w ws ih =>
      obtain ⟨t', hw, h⟩ := writeAll_cons_eq_ok.1 h
      exact ih (fits_write ht hw) h

theorem exists_writeAll_of_fits (h : Fits (t.span ∪ marks t.blank ws)) :
    ∃ u, t.writeAll ws = .ok u := by
  induction ws generalizing t with
  | nil => exact ⟨t, rfl⟩
  | cons w ws ih =>
      obtain ⟨p, s⟩ := w
      simp only [writeAll_cons_eq_ok]
      by_cases hs : s = t.blank
      · subst hs
        obtain ⟨t', hw⟩ := t.exists_write_blank p
        rw [marks_cons_blank, ← span_write_blank hw, ← blank_write hw] at h
        obtain ⟨u, hu⟩ := ih h
        exact ⟨u, t', hw, hu⟩
      · rw [marks_cons_of_ne hs, Set.union_insert, ← Set.insert_union] at h
        have ht : Fits t.span := h.mono ((Set.subset_insert p _).trans Set.subset_union_left)
        obtain ⟨t', hw⟩ :=
          exists_write_iff.2 ((hasRoom_iff ht hs).2 (h.mono Set.subset_union_left))
        rw [← fits_hull_iff, ← hull_hull_union, ← span_write_of_ne hw hs, fits_hull_iff,
          ← blank_write hw] at h
        obtain ⟨u, hu⟩ := ih h
        exact ⟨u, t', hw, hu⟩

/-- **Writes succeed exactly if everything fits** that is stored and is to be stored. -/
theorem exists_writeAll_iff (ht : Fits t.span) :
    (∃ u, t.writeAll ws = .ok u) ↔ Fits (t.span ∪ marks t.blank ws) := by
  refine ⟨fun ⟨u, h⟩ => ?_, exists_writeAll_of_fits⟩
  rw [← fits_hull_iff, ← span_writeAll h]
  exact fits_writeAll ht h

/-! ### Bounds -/

theorem bounds_eq_none_iff : t.bounds = none ↔ t.span = ∅ := by
  rw [bounds, span_eq, Set.Ico_eq_empty_iff]
  by_cases hc : t.cells = []
  · simp [hc]
  · have := List.length_pos_iff.2 hc
    simp [hc]

theorem bounds_of_ne_nil (hc : t.cells ≠ []) :
    t.bounds = some (t.origin, t.origin + (t.cells.length - 1)) :=
  if_neg fun h => hc (List.isEmpty_iff.1 h)

theorem eq_of_bounds (h : t.bounds = some (lo, hi)) :
    lo = t.origin ∧ hi = t.origin + (t.cells.length - 1) := by
  by_cases hc : t.cells = []
  · rw [bounds, if_pos (List.isEmpty_iff.2 hc)] at h
    cases h
  · rw [bounds_of_ne_nil hc] at h
    cases h
    exact ⟨rfl, rfl⟩

theorem bounds_eq_some_iff :
    t.bounds = some (lo, hi) ↔ IsLeast t.span lo ∧ IsGreatest t.span hi := by
  by_cases hc : t.cells = []
  · have hempty : t.span = ∅ := bounds_eq_none_iff.1 (if_pos (List.isEmpty_iff.2 hc))
    rw [bounds_eq_none_iff.2 hempty, hempty]
    exact ⟨nofun, fun h => absurd h.1.1 (Set.notMem_empty lo)⟩
  · have hlo : IsLeast t.span t.origin := ⟨origin_mem_span hc, fun q hq => hq.1⟩
    have hhi : IsGreatest t.span (t.origin + (t.cells.length - 1)) := by
      rw [← add_sub_assoc]
      exact ⟨end_mem_span hc, fun q hq => Int.le_sub_one_of_lt hq.2⟩
    constructor
    · intro h
      obtain ⟨rfl, rfl⟩ := eq_of_bounds h
      exact ⟨hlo, hhi⟩
    · rintro ⟨h₁, h₂⟩
      rw [bounds_of_ne_nil hc, hhi.unique h₂, hlo.unique h₁]

theorem bounds_eq_of_span_eq (h : t.span = u.span) : t.bounds = u.bounds := by
  ext ⟨lo, hi⟩
  rw [bounds_eq_some_iff, bounds_eq_some_iff, h]

/-- The positions where a content and writes put something: those of the content, blank or not, and
those of the writes of symbols other than the blank. -/
def filled (content : Word) (blank : Symbol) (ws : List (Int × Symbol)) : Set Int :=
  Set.Ico 0 (content.length : Int) ∪ marks blank ws

theorem span_of_writeAll_ofWord (h : (ofWord w b).writeAll ws = .ok t) :
    t.span = hull (filled w b ws) := by
  rw [span_writeAll h, span_ofWord]
  rfl

theorem filled_eq_empty_iff : filled w b ws = ∅ ↔ w = [] ∧ ∀ x ∈ ws, x.2 = b := by
  rw [filled, Set.union_empty_iff, marks_eq_empty_iff, Set.Ico_eq_empty_iff,
    ← List.length_eq_zero_iff]
  simp

theorem isPosition_of_mem_filled (hw : w.length ≤ capacity) (hws : ∀ x ∈ ws, IsPosition x.1)
    {q : Int} (hq : q ∈ filled w b ws) : IsPosition q := by
  rcases hq with ⟨h₀, hlen⟩ | ⟨s, hmem, -⟩
  · simp only [IsPosition, leastPosition, greatestPosition, capacity] at hw ⊢
    omega
  · exact hws _ hmem

/-- **The bounds of a tape are those of what was put on it.**  Writes succeed exactly if a tape has
cells for all positions between those of the content and those where symbols other than the blank
are written.  After writes that succeed, the tape has no bounds exactly if its content was empty and
nothing but blanks was written; otherwise its bounds are the least and the greatest of these
positions.  The tape stores no more cells than it can, so that the sum which its upper bound is
worked out by stays in the range of positions.  The same writes in another order succeed as well and
come to the same bounds, with any blanks written before, between and after them; and a blank can be
written anywhere and leaves the bounds as they are. -/
theorem bounds_exact (content : Word) (blank : Symbol) (ws : List (Int × Symbol))
    (hcontent : content.length ≤ capacity) (hws : ∀ w ∈ ws, IsPosition w.1) :
    ((∃ t, (ofWord content blank).writeAll ws = .ok t) ↔ Fits (filled content blank ws)) ∧
    ∀ t, (ofWord content blank).writeAll ws = .ok t →
      (t.bounds = none ↔ content = [] ∧ ∀ w ∈ ws, w.2 = blank) ∧
      (∀ lo hi, t.bounds = some (lo, hi) ↔
        IsLeast (filled content blank ws) lo ∧ IsGreatest (filled content blank ws) hi) ∧
      t.cells.length ≤ capacity ∧
      (∀ lo hi, t.bounds = some (lo, hi) → lo = t.origin ∧
        hi = t.origin + (t.cells.length - 1) ∧ IsPosition lo ∧ IsPosition hi) ∧
      (∀ ws' : List (Int × Symbol), (ws'.filter (·.2 ≠ blank)).Perm (ws.filter (·.2 ≠ blank)) →
        ∃ t', (ofWord content blank).writeAll ws' = .ok t' ∧ t'.bounds = t.bounds) ∧
      ∀ p, ∃ t', t.write p blank = .ok t' ∧ t'.bounds = t.bounds := by
  have hstart : Fits (ofWord content blank).span := fits_span_iff.2 hcontent
  have hexists (ws : List (Int × Symbol)) : (∃ t, (ofWord content blank).writeAll ws = .ok t) ↔
      Fits (filled content blank ws) := by
    rw [exists_writeAll_iff hstart, span_ofWord]
    rfl
  refine ⟨hexists ws, fun t h => ?_⟩
  have hspan := span_of_writeAll_ofWord h
  have hbounds (lo hi : Int) : t.bounds = some (lo, hi) ↔
      IsLeast (filled content blank ws) lo ∧ IsGreatest (filled content blank ws) hi := by
    rw [bounds_eq_some_iff, hspan, isLeast_hull_iff, isGreatest_hull_iff]
  refine ⟨?_, hbounds, fits_span_iff.1 (fits_writeAll hstart h), fun lo hi hb => ?_,
    fun ws' hperm => ?_, fun p => ?_⟩
  · rw [bounds_eq_none_iff, hspan, hull_eq_empty_iff, filled_eq_empty_iff]
  · obtain ⟨hlo, hhi⟩ := (hbounds lo hi).1 hb
    obtain ⟨horigin, hend⟩ := eq_of_bounds hb
    exact ⟨horigin, hend, isPosition_of_mem_filled hcontent hws hlo.1,
      isPosition_of_mem_filled hcontent hws hhi.1⟩
  · have hfilled : filled content blank ws' = filled content blank ws := by
      rw [filled, marks_eq_of_perm hperm, filled]
    obtain ⟨t', ht'⟩ := (hexists ws').2 (hfilled ▸ (hexists ws).1 ⟨t, h⟩)
    refine ⟨t', ht', bounds_eq_of_span_eq ?_⟩
    rw [span_of_writeAll_ofWord ht', hfilled, hspan]
  · obtain rfl : t.blank = blank := blank_writeAll h
    obtain ⟨t', ht'⟩ := t.exists_write_blank p
    exact ⟨t', ht', bounds_eq_of_span_eq (span_write_blank ht')⟩

/-- Symbols at the greatest position and two before it, the first of which is erased again, and a
blank at the least position. -/
theorem bounds_exact_extreme : ∃ t : Tape, ([] : Word).length ≤ capacity ∧
    (∀ w ∈ [(greatestPosition, 'x'), (leastPosition, '_'), (greatestPosition - 2, 'y'),
      (greatestPosition, '_')], IsPosition w.1) ∧
    (ofWord [] '_').writeAll [(greatestPosition, 'x'), (leastPosition, '_'),
      (greatestPosition - 2, 'y'), (greatestPosition, '_')] = .ok t ∧
    t.bounds = some (greatestPosition - 2, greatestPosition) ∧
    ∃ t', (ofWord [] '_').writeAll [(greatestPosition - 2, 'y'), (greatestPosition, 'x')] = .ok t' ∧
      t'.bounds = t.bounds := by
  have hpositions : ∀ w ∈ [(greatestPosition, 'x'), (leastPosition, '_'),
      (greatestPosition - 2, 'y'), (greatestPosition, '_')], IsPosition w.1 := by decide
  obtain ⟨-, hall⟩ := bounds_exact [] '_' _ (Nat.zero_le _) hpositions
  obtain ⟨-, -, -, -, hperm, -⟩ := hall ⟨['y', '_', '_'], greatestPosition - 2, '_'⟩ rfl
  exact ⟨_, Nat.zero_le _, hpositions, rfl, rfl, hperm _ (List.Perm.swap _ _ _)⟩

end TapeMachine.Tape
