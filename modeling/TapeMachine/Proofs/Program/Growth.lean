import TapeMachine.Proofs.Program.Course

/-!
# Program — Growth

How far a course takes the heads, and how much of the tapes it stores.  After `n` steps a head is at
most `n` positions from its start, and what is stored lies between the content that the tape held at
the start and the positions that the head has written to (`Track.Grown`, `Program.grown_after`).
Since a head starts near the content, a tape stores few cells beside it (`Track.Grown.length_le`),
and since both are far from the ends of the range of positions, no head ever comes there
(`Track.Grown.head_clear`).
-/

namespace TapeMachine

namespace Track

variable {t u : Track} {w : Word} {start : Int} {n : Nat}

/-- What has become of a track after `n` steps that started with the head at `start`, over a tape
that held the content `w`.  In its first step the head writes where it starts, so that it has
written up to `n - 1` positions away. -/
structure Grown (w : Word) (start : Int) (n : Nat) (t : Track) : Prop where
  le_head : start - n ≤ t.head
  head_le : t.head ≤ start + n
  span_subset : t.tape.span ⊆
    hull (Set.Ico 0 (w.length : Int) ∪ Set.Icc (start - (n - 1)) (start + (n - 1)))

theorem grown_start (w : Word) (b : Symbol) (start : Int) :
    Grown w start 0 ⟨.ofWord w b, start⟩ where
  le_head := by simp
  head_le := by simp
  span_subset := by
    rw [Tape.span_ofWord]
    exact Set.subset_union_left.trans (subset_hull _)

/-- One step takes the head one position further at most, and writes where it was. -/
theorem Grown.apply {s : Symbol} {m : Move} (h : t.Grown w start n)
    (hlow : leastPosition ≤ t.head) (hhigh : t.head ≤ greatestPosition) (hu : t.apply s m = .ok u) :
    u.Grown w start (n + 1) := by
  obtain ⟨tape, hw, rfl⟩ := exists_write_of_apply hu
  have h₁ := h.le_head
  have h₂ := h.head_le
  have hmove : t.head - 1 ≤ m.apply t.head ∧ m.apply t.head ≤ t.head + 1 := by
    rw [Move.apply_eq]
    cases m <;> simp only [Move.destination] <;> omega
  refine ⟨by push_cast; omega, by push_cast; omega, (Tape.span_write hw).trans ?_⟩
  refine hull_subset_hull (Set.insert_subset (subset_hull _ (.inr ?_)) ?_)
  · rw [Set.mem_Icc]
    push_cast
    omega
  · refine h.span_subset.trans (hull_mono (Set.union_subset_union_right _ ?_))
    exact Set.Icc_subset_Icc (by push_cast; omega) (by push_cast; omega)

/-- A tape stores no more than its content, the cells between it and the start of the head, and
those that the head has come to. -/
theorem Grown.length_le (h : t.Grown w start n) (hs : Program.HeadInRange w start) :
    t.tape.cells.length ≤ w.length + maxHeadOffset + 2 * n := by
  by_cases hc : t.tape.cells = []
  · rw [hc]
    exact Nat.zero_le _
  · obtain ⟨a, ha, -, -, hfirst, -⟩ := h.span_subset (Tape.origin_mem_span hc)
    obtain ⟨-, -, b, hb, -, hlast⟩ := h.span_subset (Tape.end_mem_span hc)
    simp only [Set.mem_union, Set.mem_Ico, Set.mem_Icc] at ha hb
    simp only [Program.HeadInRange, maxHeadOffset] at hs ⊢
    omega

/-- A head stays clear of the ends of the range of positions, wherever it moves next. -/
theorem Grown.head_clear (h : t.Grown w start n) (hs : Program.HeadInRange w start)
    (hw : w.length < 1099511627776) (hn : n ≤ 1099511627776) (m : Move) :
    leastPosition < m.destination t.head ∧ m.destination t.head < greatestPosition := by
  have h₁ := h.le_head
  have h₂ := h.head_le
  simp only [Program.HeadInRange, maxHeadOffset] at hs
  simp only [leastPosition, greatestPosition]
  cases m <;> simp only [Move.destination] <;> omega

end Track

namespace Program

variable {p : Program} {c : Configuration} {t : Track} {i n : Nat}

/-- **The growth of a course.** -/
theorem grown_after (hp : p.WellFormed) (hm : p.Modest) (hn : n ≤ 1099511627776)
    (hc : p.after n = some c) (ht : c.tracks[i]? = some t) :
    ∃ w start, p.tapes[i]? = some w ∧ p.heads[i]? = some start ∧ HeadInRange w start ∧
      t.Grown w start n := by
  induction n generalizing c t with
  | zero =>
      cases hc
      obtain ⟨w, start, hw, hs, rfl⟩ := List.getElem?_zipWith_eq_some.mp ht
      have hmem : (w, start) ∈ p.tapes.zip p.heads :=
        List.mem_iff_getElem?.mpr ⟨i, List.getElem?_zip_eq_some.mpr ⟨hw, hs⟩⟩
      exact ⟨w, start, hw, hs, hp.headInRange _ hmem, Track.grown_start w p.blank start⟩
  | succ n ih =>
      obtain ⟨d, r, hd, -, happly⟩ := after_succ_eq_some.mp hc
      obtain ⟨us, hus, rfl⟩ := Configuration.exists_tracks_of_apply happly
      obtain ⟨t', s, m, ht', -, -, happly⟩ := (Track.getElem?_applyAll hus).1 ht
      obtain ⟨w, start, hw, hs, hrange, hgrown⟩ := ih (by omega) hd ht'
      have hclear := hgrown.head_clear hrange (hm.length_lt w (List.mem_of_getElem? hw)) (by omega)
        .stay
      exact ⟨w, start, hw, hs, hrange, hgrown.apply hclear.1.le hclear.2.le happly⟩

/-- The tapes of a course take every symbol under their heads. -/
theorem exists_write_after (hp : p.WellFormed) (hm : p.Modest) (hn : n ≤ 1099511627776)
    (hc : p.after n = some c) (ht : c.tracks[i]? = some t) (s : Symbol) :
    ∃ tape, t.tape.write t.head s = .ok tape := by
  have hroom := room_of_modest hm
  have hhoused := housed_after hp hroom (confined_of_modest hp hm hn) hc
  obtain ⟨w, start, hw, -, hrange, hgrown⟩ := grown_after hp hm hn hc ht
  have hlen := hm.length_lt w (List.mem_of_getElem? hw)
  have h₁ := hgrown.le_head
  have h₂ := hgrown.head_le
  simp only [HeadInRange, maxHeadOffset] at hrange
  refine Tape.exists_write s (hhoused.within t (List.mem_of_getElem? ht)) ?_ ?_ hroom.fits
  · simp only [modestReach]
    omega
  · simp only [modestReach]
    omega

end Program

end TapeMachine
