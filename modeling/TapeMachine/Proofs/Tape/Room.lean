import TapeMachine.Proofs.Tape.Span

/-!
# Tape — Room

What a tape can store.  A write fails for want of cells and for no other reason: it succeeds exactly
if there is room for it (`Tape.exists_write_iff`), and there is always room for a blank.  So a tape
never overflows while the writes stay in an interval around its store that fits the capacity
(`Tape.exists_write`).

Of a tape that stores no more than it can, the room is told by the span: all that is to be stored
must fit (`Tape.hasRoom_iff`), and after a write it does (`Tape.fits_write`).
-/

namespace TapeMachine.Tape

variable {t t' : Tape} {p low high : Int} {s : Symbol}

/-! ### When a write succeeds -/

/-- There is room on a tape for a symbol at a position: its cell is stored, or it is the blank, or
no stored cell is too far away. -/
def HasRoom (t : Tape) (p : Int) (s : Symbol) : Prop :=
  t.Covers p ∨ s = t.blank ∨ ∀ q, t.Covers q → p - q < capacity ∧ q - p < capacity

theorem exists_growLeft_iff (hc : t.cells ≠ []) (hp : p < t.origin) :
    (∃ t', t.growLeft p s = .ok t') ↔ ∀ q, t.Covers q → p - q < capacity ∧ q - p < capacity := by
  have hend := end_mem_span hc
  rw [growLeft]
  split
  · next hfull =>
      refine iff_of_false (by simp) fun h => ?_
      have := h _ hend
      omega
  · refine iff_of_true ⟨_, rfl⟩ fun q hq => ?_
    obtain ⟨hfirst, hlast⟩ := hq
    omega

theorem exists_growRight_iff (hc : t.cells ≠ []) (hp : t.origin + t.cells.length ≤ p) :
    (∃ t', t.growRight p s = .ok t') ↔ ∀ q, t.Covers q → p - q < capacity ∧ q - p < capacity := by
  have horigin := origin_mem_span hc
  rw [growRight]
  split
  · next hfull =>
      refine iff_of_false (by simp) fun h => ?_
      have := h _ horigin
      omega
  · refine iff_of_true ⟨_, rfl⟩ fun q hq => ?_
    obtain ⟨hfirst, hlast⟩ := hq
    omega

/-- **A write succeeds exactly if there is room for it.** -/
theorem exists_write_iff : (∃ t', t.write p s = .ok t') ↔ t.HasRoom p s := by
  rw [write, HasRoom]
  by_cases hcovers : t.Covers p
  · rw [if_pos hcovers]
    exact iff_of_true ⟨_, rfl⟩ (.inl hcovers)
  rw [if_neg hcovers, or_iff_right hcovers]
  by_cases hs : s = t.blank
  · rw [if_pos hs]
    exact iff_of_true ⟨_, rfl⟩ (.inl hs)
  rw [if_neg hs, or_iff_right hs]
  by_cases hc : t.cells = []
  · rw [if_pos (List.isEmpty_iff.2 hc)]
    refine iff_of_true ⟨_, rfl⟩ fun q hq => ?_
    simp only [Covers, hc, List.length_nil] at hq
    omega
  rw [if_neg fun h => hc (List.isEmpty_iff.1 h)]
  simp only [Covers, not_and, not_lt] at hcovers
  split
  · next hp => exact exists_growLeft_iff hc hp
  · next hp => exact exists_growRight_iff hc (hcovers (not_lt.1 hp))

theorem exists_write_blank (t : Tape) (p : Int) : ∃ t', t.write p t.blank = .ok t' :=
  exists_write_iff.2 (.inr (.inl rfl))

/-- A tape takes every write into an interval around its store that fits the capacity. -/
theorem exists_write (s : Symbol) (ht : t.Within low high) (hl : low ≤ p) (hh : p < high)
    (hcap : high - low ≤ capacity) : ∃ t', t.write p s = .ok t' := by
  refine exists_write_iff.2 (.inr (.inr fun q hq => ?_))
  have := ht q hq
  omega

/-! ### What fits on a tape -/

/-- Positions of which no two are further apart than the cells of a tape can be. -/
def Fits (S : Set Int) : Prop := ∀ a ∈ S, ∀ b ∈ S, b - a < capacity

theorem Fits.mono {S T : Set Int} (h : Fits T) (hST : S ⊆ T) : Fits S :=
  fun a ha b hb => h a (hST ha) b (hST hb)

theorem fits_hull_iff {S : Set Int} : Fits (hull S) ↔ Fits S := by
  refine ⟨fun h => h.mono (subset_hull S), ?_⟩
  rintro h p ⟨a, ha, -, -, hap, -⟩ q ⟨-, -, b, hb, -, hqb⟩
  have := h a ha b hb
  omega

theorem fits_span_iff : Fits t.span ↔ t.cells.length ≤ capacity := by
  constructor
  · intro h
    by_cases hc : t.cells = []
    · rw [hc]
      exact Nat.zero_le _
    · have := h _ (origin_mem_span hc) _ (end_mem_span hc)
      omega
  · rintro h p ⟨hp, -⟩ q ⟨-, hq⟩
    omega

/-- A tape whose cells fit has room for a symbol if the cells up to it fit as well. -/
theorem hasRoom_iff (ht : Fits t.span) (hs : s ≠ t.blank) :
    t.HasRoom p s ↔ Fits (insert p t.span) := by
  constructor
  · rintro (hp | hb | hnear)
    · rwa [Set.insert_eq_of_mem (show p ∈ t.span from hp)]
    · exact absurd hb hs
    · rintro a (rfl | ha) b (rfl | hb)
      · rw [sub_self]
        decide
      · have := hnear b hb
        omega
      · have := hnear a ha
        omega
      · exact ht a ha b hb
  · intro h
    refine .inr (.inr fun q hq => ?_)
    have hq' := Set.mem_insert_of_mem p (show q ∈ t.span from hq)
    have h₁ := h p (Set.mem_insert p _) q hq'
    have h₂ := h q hq' p (Set.mem_insert p _)
    omega

theorem fits_write (ht : Fits t.span) (h : t.write p s = .ok t') : Fits t'.span := by
  by_cases hs : s = t.blank
  · subst hs
    rwa [span_write_blank h]
  · rw [span_write_of_ne h hs, fits_hull_iff]
    exact (hasRoom_iff ht hs).1 (exists_write_iff.1 ⟨t', h⟩)

end TapeMachine.Tape
