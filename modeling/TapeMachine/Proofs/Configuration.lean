import TapeMachine.LoopDetector
import TapeMachine.Proofs.Ideal
import TapeMachine.Proofs.Results
import TapeMachine.Proofs.Tape.Room
import TapeMachine.Proofs.Tape.Window

/-!
# Configuration

A configuration seen as an ideal one (`Configuration.ideal`): each tape is what is read from it.

* `Configuration.exists_apply`: in an interval that fits the capacity and stays clear of the ends of
  the range of positions, a rule with a symbol and a move for each tape can be applied, and does to
  the ideal configuration what the ideal machine does.
* `Configuration.fingerprint_eq_iff`: the fingerprints of two configurations with the same blank are
  the same exactly if the configurations are the same ideal one, whatever cells they store.
-/

namespace TapeMachine

/-! ### Moves -/

namespace Move

variable {h : Int}

/-- A head goes where its move takes it, but not beyond an end of the range of positions. -/
theorem apply_eq (m : Move) (h : Int) :
    m.apply h = max leastPosition (min greatestPosition (m.destination h)) := by
  cases m <;> simp [apply, offset, destination, sub_eq_add_neg]

theorem apply_of_clear (hlow : leastPosition < h) (hhigh : h < greatestPosition) (m : Move) :
    m.apply h = m.destination h := by
  rw [apply_eq]
  cases m <;> simp only [destination] <;> omega

end Move

/-! ### One tape -/

namespace Track

variable {t u : Track} {low high : Int}

/-- A track, as what is read from its tape. -/
def ideal (t : Track) : IdealTrack := ⟨t.tape.read, t.head⟩

/-- The stored cells and the head lie between `low`, which is included, and `high`. -/
structure Fits (low high : Int) (t : Track) : Prop where
  within : t.tape.Within low high
  low_le : low ≤ t.head
  lt_high : t.head < high

theorem exists_apply (h : t.Fits low high) (hlow : leastPosition < low)
    (hhigh : high ≤ greatestPosition) (hcap : high - low ≤ Tape.capacity) (s : Symbol) (m : Move) :
    ∃ u, t.apply s m = .ok u ∧ u.ideal = t.ideal.apply s m ∧ u.tape.Within low high := by
  obtain ⟨tape, ht⟩ := Tape.exists_write s h.within h.low_le h.lt_high hcap
  refine ⟨⟨tape, m.apply t.head⟩, by rw [apply, ht]; rfl, ?_, ?_⟩
  -- Within the interval a head never comes to an end of the range of positions.
  · have hmove : m.apply t.head = m.destination t.head :=
      Move.apply_of_clear (hlow.trans_le h.low_le) (h.lt_high.trans_le hhigh) m
    rw [ideal, Tape.read_write ht, hmove]
    rfl
  · exact (Tape.written_of_write ht).within h.within h.low_le h.lt_high

theorem exists_write_of_apply {s : Symbol} {m : Move} (h : t.apply s m = .ok u) :
    ∃ tape, t.tape.write t.head s = .ok tape ∧ u = ⟨tape, m.apply t.head⟩ := by
  obtain ⟨tape, hw, rfl⟩ := map_eq_ok_iff.1 h
  exact ⟨tape, hw, rfl⟩

/-- What is seen of a track after a step follows from what was seen of it before. -/
theorem ideal_eq_of_apply {t' u' : Track} {s : Symbol} {m : Move} (ht : t.ideal = t'.ideal)
    (h : t.apply s m = .ok u) (h' : t'.apply s m = .ok u') : u.ideal = u'.ideal := by
  obtain ⟨tape, hw, rfl⟩ := exists_write_of_apply h
  obtain ⟨tape', hw', rfl⟩ := exists_write_of_apply h'
  obtain ⟨hread, hhead⟩ := IdealTrack.mk.inj ht
  rw [ideal, ideal, Tape.read_write hw, Tape.read_write hw', hread, hhead]

/-- What can be applied to all tracks can be applied to each of them. -/
theorem applyAll_cons_eq_ok {ts us : List Track} {ss : Word} {ms : List Move} :
    applyAll (t :: ts) ss ms = .ok us ↔ ∃ s ss' m ms' u us', ss = s :: ss' ∧ ms = m :: ms' ∧
      us = u :: us' ∧ t.apply s m = .ok u ∧ applyAll ts ss' ms' = .ok us' := by
  constructor
  · intro h
    cases ss with
    | nil => cases h
    | cons s ss =>
        cases ms with
        | nil => cases h
        | cons m ms =>
            rw [applyAll] at h
            obtain ⟨u, hu, h⟩ := bind_eq_ok_iff.1 h
            obtain ⟨us', hus, h⟩ := bind_eq_ok_iff.1 h
            cases h
            exact ⟨s, ss, m, ms, u, us', rfl, rfl, rfl, hu, hus⟩
  · rintro ⟨s, ss', m, ms', u, us', rfl, rfl, rfl, hu, hus⟩
    rw [applyAll, hu, hus]
    rfl

theorem blank_applyAll {ts us : List Track} {ss : Word} {ms : List Move}
    (h : applyAll ts ss ms = .ok us) : us.map (·.tape.blank) = ts.map (·.tape.blank) := by
  induction ts generalizing ss ms us with
  | nil => cases h; rfl
  | cons t ts ih =>
      obtain ⟨s, ss', m, ms', u, us', rfl, rfl, rfl, hu, hus⟩ := applyAll_cons_eq_ok.mp h
      obtain ⟨tape, hw, rfl⟩ := exists_write_of_apply hu
      rw [List.map_cons, List.map_cons, ih hus, Tape.blank_write hw]

theorem length_applyAll {ts us : List Track} {ss : Word} {ms : List Move}
    (h : applyAll ts ss ms = .ok us) : us.length = ts.length := by
  have hlen := congrArg List.length (blank_applyAll h)
  rwa [List.length_map, List.length_map] at hlen

/-- Each track comes from the one, the symbol and the move at its place. -/
theorem getElem?_applyAll {ts us : List Track} {ss : Word} {ms : List Move} {i : Nat}
    (h : applyAll ts ss ms = .ok us) : us[i]? = some u ↔
      ∃ t s m, ts[i]? = some t ∧ ss[i]? = some s ∧ ms[i]? = some m ∧ t.apply s m = .ok u := by
  induction ts generalizing ss ms us i with
  | nil =>
      cases h
      simp
  | cons t ts ih =>
      obtain ⟨s, ss', m, ms', u₁, us', rfl, rfl, rfl, hu, hus⟩ := applyAll_cons_eq_ok.mp h
      cases i with
      | zero => simp [hu]
      | succ i =>
          simp only [List.getElem?_cons_succ]
          exact ih hus

theorem ideal_eq_of_applyAll {ts ts' us us' : List Track} {ss : Word} {ms : List Move}
    (ht : ts.map ideal = ts'.map ideal) (h : applyAll ts ss ms = .ok us)
    (h' : applyAll ts' ss ms = .ok us') : us.map ideal = us'.map ideal := by
  induction ts generalizing ts' ss ms us us' with
  | nil =>
      obtain rfl : ts' = [] := List.map_eq_nil_iff.1 ht.symm
      cases h
      cases h'
      rfl
  | cons t ts ih =>
      obtain ⟨t', ts', rfl, htt, hts⟩ := List.map_eq_cons_iff.1 ht.symm
      obtain ⟨s, ss, m, ms, u, us, rfl, rfl, rfl, hu, hus⟩ := applyAll_cons_eq_ok.1 h
      obtain ⟨s', ss', m', ms', u', us', hss, hms, rfl, hu', hus'⟩ := applyAll_cons_eq_ok.1 h'
      cases hss
      cases hms
      rw [List.map_cons, List.map_cons, ideal_eq_of_apply htt.symm hu hu', ih hts.symm hus hus']

/-- Rules that have a symbol and a move for each track can be applied to all of them. -/
theorem exists_applyAll {ts : List Track} {ss : Word} {ms : List Move}
    (h : ∀ t ∈ ts, t.Fits low high) (hlow : leastPosition < low) (hhigh : high ≤ greatestPosition)
    (hcap : high - low ≤ Tape.capacity) (hs : ss.length = ts.length) (hm : ms.length = ts.length) :
    ∃ us, applyAll ts ss ms = .ok us ∧
      us.map ideal = List.zipWith3 IdealTrack.apply (ts.map ideal) ss ms ∧
      us.length = ts.length ∧ ∀ u ∈ us, u.tape.Within low high := by
  induction ts generalizing ss ms with
  | nil => exact ⟨[], rfl, rfl, rfl, nofun⟩
  | cons t ts ih =>
      obtain ⟨s, ss, rfl⟩ := List.exists_cons_of_length_eq_add_one hs
      obtain ⟨m, ms, rfl⟩ := List.exists_cons_of_length_eq_add_one hm
      rw [List.forall_mem_cons] at h
      obtain ⟨u, hu, hui, huw⟩ := exists_apply h.1 hlow hhigh hcap s m
      obtain ⟨us, hus, husi, husl, husw⟩ :=
        ih h.2 (Nat.succ_injective hs) (Nat.succ_injective hm)
      refine ⟨u :: us, by rw [applyAll, hu, hus]; rfl, ?_, ?_, List.forall_mem_cons.mpr ⟨huw, husw⟩⟩
      · rw [List.map_cons, List.map_cons, List.zipWith3, hui, husi]
      · rw [List.length_cons, List.length_cons, husl]

end Track

/-! ### All tapes -/

namespace Configuration

variable {c d : Configuration} {low high : Int} {b : Symbol}

/-- A configuration, as what is read from its tapes. -/
def ideal (c : Configuration) : IdealConfiguration := ⟨c.state, c.tracks.map Track.ideal⟩

theorem state_ideal (c : Configuration) : c.ideal.state = c.state := rfl

theorem symbols_ideal (c : Configuration) : c.ideal.symbols = c.symbols := by
  rw [ideal, IdealConfiguration.symbols, List.map_map]
  rfl

theorem heads_ideal (c : Configuration) : c.ideal.heads = c.heads := by
  rw [ideal, IdealConfiguration.heads, List.map_map]
  rfl

theorem tapes_ideal (c : Configuration) : c.ideal.tapes = c.tapes.map Tape.read := by
  rw [ideal, IdealConfiguration.tapes, List.map_map, tapes, List.map_map]
  rfl

theorem ideal_initial (p : Program) : (initial p).ideal = p.idealStart := by
  rw [ideal, initial, Program.idealStart, List.map_zipWith]
  congr 2
  funext content head
  rw [Track.ideal, IdealTrack.ofWord]
  congr 1
  funext q
  rw [Tape.read, Tape.ofWord, sub_zero]

theorem exists_apply {r : Rule} (h : ∀ t ∈ c.tracks, t.Fits low high) (hlow : leastPosition < low)
    (hhigh : high ≤ greatestPosition) (hcap : high - low ≤ Tape.capacity)
    (hr : r.HasArity c.tracks.length) :
    ∃ d, c.apply r = .ok d ∧ d.ideal = c.ideal.apply r ∧ d.tracks.length = c.tracks.length ∧
      ∀ t ∈ d.tracks, t.tape.Within low high := by
  obtain ⟨us, hus, hi, hl, hw⟩ := Track.exists_applyAll h hlow hhigh hcap hr.2.1 hr.2.2
  refine ⟨⟨r.next, us⟩, by rw [apply, hus]; rfl, ?_, hl, hw⟩
  rw [ideal, hi]
  rfl

theorem exists_tracks_of_apply {r : Rule} (h : c.apply r = .ok d) :
    ∃ us, Track.applyAll c.tracks r.write r.moves = .ok us ∧ d = ⟨r.next, us⟩ := by
  obtain ⟨us, hus, rfl⟩ := map_eq_ok_iff.1 h
  exact ⟨us, hus, rfl⟩

theorem length_tracks_apply {r : Rule} (h : c.apply r = .ok d) :
    d.tracks.length = c.tracks.length := by
  obtain ⟨us, hus, rfl⟩ := exists_tracks_of_apply h
  exact Track.length_applyAll hus

/-- What is seen after a step follows from what was seen before. -/
theorem ideal_eq_of_apply {c' d' : Configuration} {r : Rule} (h : c.ideal = d.ideal)
    (hc : c.apply r = .ok c') (hd : d.apply r = .ok d') : c'.ideal = d'.ideal := by
  obtain ⟨us, hus, rfl⟩ := exists_tracks_of_apply hc
  obtain ⟨us', hus', rfl⟩ := exists_tracks_of_apply hd
  exact congrArg (IdealConfiguration.mk r.next)
    (Track.ideal_eq_of_applyAll (congrArg IdealConfiguration.tracks h) hus hus')

/-! ### Fingerprints -/

/-- All tapes of a configuration have the same blank. -/
def HasBlank (b : Symbol) (c : Configuration) : Prop := ∀ t ∈ c.tracks, t.tape.blank = b

theorem HasBlank.apply {r : Rule} (hc : c.HasBlank b) (h : c.apply r = .ok d) : d.HasBlank b := by
  obtain ⟨us, hus, rfl⟩ := exists_tracks_of_apply h
  intro u hu
  have hmem : u.tape.blank ∈ us.map (·.tape.blank) :=
    List.mem_map_of_mem (f := fun u : Track => u.tape.blank) hu
  rw [Track.blank_applyAll hus] at hmem
  obtain ⟨t, ht, htu⟩ := List.mem_map.mp hmem
  exact htu.symm.trans (hc t ht)

/-- A fingerprint tells two configurations apart exactly if they are read differently. -/
theorem fingerprint_eq_iff (hc : c.HasBlank b) (hd : d.HasBlank b) :
    c.fingerprint = d.fingerprint ↔ c.ideal = d.ideal := by
  obtain ⟨s, ts⟩ := c
  obtain ⟨s', us⟩ := d
  have htracks : ts.map (·.head) = us.map (·.head) ∧
      ts.map (·.tape.window) = us.map (·.tape.window) ↔
        ts.map Track.ideal = us.map Track.ideal := by
    induction ts generalizing us with
    | nil => cases us <;> simp
    | cons t ts ih =>
        cases us with
        | nil => simp
        | cons u us =>
            simp only [HasBlank, List.forall_mem_cons] at hc hd
            simp only [List.map_cons, List.cons.injEq, Track.ideal, IdealTrack.mk.injEq,
              Tape.window_eq_window_iff (hc.1.trans hd.1.symm)]
            rw [← ih hc.2 us hd.2]
            tauto
  simp only [fingerprint, heads, windows, ideal, Fingerprint.mk.injEq, IdealConfiguration.mk.injEq,
    htracks]

end Configuration

end TapeMachine
