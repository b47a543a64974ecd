import TapeMachine.Proofs.Tape.Cells

/-!
# Tape — Span

The span of a tape is the set of the positions that it stores.  A write takes the span no further
than to the place of the write: what is stored then lies between positions that were stored before
and that place (`Tape.span_write`).  All of that is stored indeed when a symbol other than the blank
is written (`Tape.span_write_of_ne`), and a blank leaves the span as it is
(`Tape.span_write_blank`).
-/

namespace TapeMachine

/-- The positions between two of a set, those of the set included. -/
def hull (s : Set Int) : Set Int := {q | ∃ a ∈ s, ∃ b ∈ s, a ≤ q ∧ q ≤ b}

section

variable {s u : Set Int} {a : Int}

theorem subset_hull (s : Set Int) : s ⊆ hull s := fun q hq => ⟨q, hq, q, hq, le_rfl, le_rfl⟩

theorem hull_subset_hull (h : s ⊆ hull u) : hull s ⊆ hull u := by
  rintro q ⟨a, ha, b, hb, haq, hqb⟩
  obtain ⟨a', ha', -, -, haa', -⟩ := h ha
  obtain ⟨-, -, b', hb', -, hbb'⟩ := h hb
  exact ⟨a', ha', b', hb', haa'.trans haq, hqb.trans hbb'⟩

theorem hull_mono (h : s ⊆ u) : hull s ⊆ hull u := hull_subset_hull (h.trans (subset_hull u))

theorem hull_subset (h : s ⊆ u) (hu : u.OrdConnected) : hull s ⊆ u := by
  rintro q ⟨a, ha, b, hb, haq, hqb⟩
  exact hu.out (h ha) (h hb) ⟨haq, hqb⟩

theorem hull_eq_self (hs : s.OrdConnected) : hull s = s :=
  (hull_subset le_rfl hs).antisymm (subset_hull s)

theorem hull_hull_union (s u : Set Int) : hull (hull s ∪ u) = hull (s ∪ u) := by
  refine (hull_subset_hull (Set.union_subset ?_ ?_)).antisymm ?_
  · exact hull_mono Set.subset_union_left
  · exact Set.subset_union_right.trans (subset_hull _)
  · exact hull_mono (Set.union_subset_union_left u (subset_hull s))

theorem hull_eq_empty_iff : hull s = ∅ ↔ s = ∅ := by
  refine ⟨fun h => Set.subset_empty_iff.1 (h ▸ subset_hull s), ?_⟩
  rintro rfl
  exact hull_eq_self Set.ordConnected_empty

theorem isLeast_hull_iff : IsLeast (hull s) a ↔ IsLeast s a := by
  constructor
  · rintro ⟨⟨b, hb, -, -, hba, -⟩, hleast⟩
    obtain rfl : b = a := le_antisymm hba (hleast (subset_hull s hb))
    exact ⟨hb, fun q hq => hleast (subset_hull s hq)⟩
  · rintro ⟨ha, hleast⟩
    refine ⟨subset_hull s ha, ?_⟩
    rintro q ⟨b, hb, -, -, hbq, -⟩
    exact (hleast hb).trans hbq

theorem isGreatest_hull_iff : IsGreatest (hull s) a ↔ IsGreatest s a := by
  constructor
  · rintro ⟨⟨-, -, b, hb, -, hab⟩, hgreatest⟩
    obtain rfl : a = b := le_antisymm hab (hgreatest (subset_hull s hb))
    exact ⟨hb, fun q hq => hgreatest (subset_hull s hq)⟩
  · rintro ⟨ha, hgreatest⟩
    refine ⟨subset_hull s ha, ?_⟩
    rintro q ⟨-, -, b, hb, -, hqb⟩
    exact hqb.trans (hgreatest hb)

end

namespace Tape

variable {t t' : Tape} {p : Int} {s : Symbol}

/-- The positions that a tape stores. -/
def span (t : Tape) : Set Int := {q | t.Covers q}

theorem span_ofWord (w : Word) (b : Symbol) : (ofWord w b).span = Set.Ico 0 (w.length : Int) := by
  ext q
  change (ofWord w b).Covers q ↔ _
  simp only [Covers, ofWord, zero_add, Set.mem_Ico]

theorem origin_mem_span (h : t.cells ≠ []) : t.origin ∈ t.span := by
  have hpos : 0 < t.cells.length := List.length_pos_iff.mpr h
  exact ⟨le_rfl, by omega⟩

theorem end_mem_span (h : t.cells ≠ []) : t.origin + t.cells.length - 1 ∈ t.span := by
  have hpos : 0 < t.cells.length := List.length_pos_iff.mpr h
  exact ⟨by omega, by omega⟩

theorem Written.span_subset (h : Written t p s t') : t'.span ⊆ hull (insert p t.span) := by
  have hold : t.span ⊆ hull (insert p t.span) :=
    (Set.subset_insert p t.span).trans (subset_hull _)
  have hnew : p ∈ insert p t.span := Set.mem_insert p t.span
  cases h with
  | stored _ =>
      intro q hq
      exact hold (by simpa [span, Covers] using hq)
  | blank _ _ => exact hold
  | first _ _ =>
      rintro q ⟨h₁, h₂⟩
      simp only [List.length_singleton, Nat.cast_one] at h₁ h₂
      exact ⟨p, hnew, p, hnew, h₁, by omega⟩
  | left n hn hc _ =>
      rintro q ⟨h₁, h₂⟩
      simp only [List.length_cons, List.length_append, List.length_replicate] at h₁ h₂
      exact ⟨p, hnew, _, Set.mem_insert_of_mem p (end_mem_span hc), h₁, by omega⟩
  | right n hn hc _ =>
      rintro q ⟨h₁, h₂⟩
      simp only [List.length_append, List.length_replicate, List.length_singleton] at h₁ h₂
      exact ⟨_, Set.mem_insert_of_mem p (origin_mem_span hc), p, hnew, h₁, by omega⟩

/-- **A write takes the span no further than to its place.** -/
theorem span_write (h : t.write p s = .ok t') : t'.span ⊆ hull (insert p t.span) :=
  (written_of_write h).span_subset

theorem span_eq (t : Tape) : t.span = Set.Ico t.origin (t.origin + t.cells.length) := rfl

theorem ordConnected_span (t : Tape) : t.span.OrdConnected := Set.ordConnected_Ico

/-- No cell is given up. -/
theorem Written.subset_span (h : Written t p s t') : t.span ⊆ t'.span := by
  intro q hq
  simp only [span_eq, Set.mem_Ico] at hq
  cases h with
  | stored _ => simpa [span_eq] using hq
  | blank _ _ => exact hq
  | first hc _ =>
      rw [hc, List.length_nil] at hq
      omega
  | left n hn _ _ =>
      simp only [span_eq, Set.mem_Ico, List.length_cons, List.length_append, List.length_replicate]
      omega
  | right n hn _ _ =>
      simp only [span_eq, Set.mem_Ico, List.length_append, List.length_replicate,
        List.length_singleton]
      omega

theorem span_write_blank (h : t.write p t.blank = .ok t') : t'.span = t.span := by
  cases written_of_write h with
  | stored _ => simp only [span_eq, List.length_set]
  | blank _ _ => rfl
  | first _ hs => exact absurd rfl hs
  | left _ _ _ hs => exact absurd rfl hs
  | right _ _ _ hs => exact absurd rfl hs

/-- The cell of a symbol other than the blank is stored, and so are those up to it. -/
theorem span_write_of_ne (h : t.write p s = .ok t') (hs : s ≠ t.blank) :
    t'.span = hull (insert p t.span) := by
  have hw := written_of_write h
  have hp : t'.Covers p := by
    -- An uncovered position would read as the blank, and not as what was written there.
    by_contra hc
    have hblank := read_of_not_covers hc
    rw [hw.read_eq, if_pos rfl, hw.blank_eq] at hblank
    exact hs hblank
  exact (span_write h).antisymm
    (hull_subset (Set.insert_subset hp hw.subset_span) t'.ordConnected_span)

end Tape

end TapeMachine
