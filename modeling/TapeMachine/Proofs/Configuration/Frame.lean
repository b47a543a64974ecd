import TapeMachine.Proofs.Configuration

/-!
# Configuration — Frame

What a rule does to a configuration, and what it leaves alone (`Configuration.Effect`).  On each
tape the cell under the head holds the symbol of the rule, and no other cell is changed; each head
moves, and stops at the ends of the range of positions.

A rule can be applied exactly if it has a symbol and a move for each tape, and the tapes have room
for the symbols (`Track.exists_applyAll_iff`).  What else it has does not matter: neither its state
and the symbols it reads, nor what it writes and moves beyond the last tape
(`Configuration.apply_eq_of_take`).  The main statement is `Configuration.apply_framed`.
-/

namespace TapeMachine

/-! ### Tracks -/

namespace Track

variable {t : Track} {ts us : List Track} {s : Symbol} {m : Move} {ss : Word} {ms : List Move}
  {i : Nat}

theorem exists_apply_iff : (∃ u, t.apply s m = .ok u) ↔ t.tape.HasRoom t.head s := by
  rw [← Tape.exists_write_iff]
  constructor
  · rintro ⟨u, hu⟩
    obtain ⟨tape, hw, -⟩ := exists_write_of_apply hu
    exact ⟨tape, hw⟩
  · rintro ⟨tape, hw⟩
    exact ⟨_, map_eq_ok_iff.2 ⟨tape, hw, rfl⟩⟩

/-- **When a rule can be applied**: there are symbols and moves for all tracks, and room for the
symbols on their tapes. -/
theorem exists_applyAll_iff : (∃ us, applyAll ts ss ms = .ok us) ↔
    ts.length ≤ ss.length ∧ ts.length ≤ ms.length ∧
      ∀ (i : Nat) (t : Track) (s : Symbol), ts[i]? = some t → ss[i]? = some s →
        t.tape.HasRoom t.head s := by
  induction ts generalizing ss ms with
  | nil => exact iff_of_true ⟨[], rfl⟩ ⟨Nat.zero_le _, Nat.zero_le _, nofun⟩
  | cons t ts ih =>
      constructor
      · rintro ⟨us, h⟩
        obtain ⟨s, ss, m, ms, u, us, rfl, rfl, rfl, hu, hus⟩ := applyAll_cons_eq_ok.1 h
        obtain ⟨hs, hm, hroom⟩ := ih.1 ⟨us, hus⟩
        refine ⟨Nat.succ_le_succ hs, Nat.succ_le_succ hm, fun i t' s' ht' hs' => ?_⟩
        cases i with
        | zero =>
            cases ht'
            cases hs'
            exact exists_apply_iff.1 ⟨u, hu⟩
        | succ i => exact hroom i t' s' ht' hs'
      · rintro ⟨hs, hm, hroom⟩
        obtain ⟨s, ss, rfl⟩ := List.exists_cons_of_length_pos (Nat.zero_lt_of_lt hs)
        obtain ⟨m, ms, rfl⟩ := List.exists_cons_of_length_pos (Nat.zero_lt_of_lt hm)
        obtain ⟨u, hu⟩ : ∃ u, t.apply s m = .ok u := exists_apply_iff.2 (hroom 0 t s rfl rfl)
        obtain ⟨us, hus⟩ := ih.2 ⟨Nat.le_of_succ_le_succ hs, Nat.le_of_succ_le_succ hm,
          fun i => hroom (i + 1)⟩
        exact ⟨u :: us, applyAll_cons_eq_ok.2 ⟨s, ss, m, ms, u, us, rfl, rfl, rfl, hu, hus⟩⟩

/-- Symbols and moves beyond the last track are not looked at. -/
theorem applyAll_take (ts : List Track) (ss : Word) (ms : List Move) :
    applyAll ts (ss.take ts.length) (ms.take ts.length) = applyAll ts ss ms := by
  induction ts generalizing ss ms with
  | nil => rfl
  | cons t ts ih =>
      cases ss with
      | nil => rfl
      | cons s ss =>
          cases ms with
          | nil => rfl
          | cons m ms =>
              rw [List.length_cons, List.take_succ_cons, List.take_succ_cons, applyAll, applyAll,
                ih]

/-- Each track there was has come to one. -/
theorem exists_of_applyAll (h : applyAll ts ss ms = .ok us) (ht : ts[i]? = some t) :
    ∃ s m u, ss[i]? = some s ∧ ms[i]? = some m ∧ us[i]? = some u ∧ t.apply s m = .ok u := by
  have hi : i < us.length := by
    rw [length_applyAll h]
    exact (List.getElem?_eq_some_iff.1 ht).1
  have hu := List.getElem?_eq_getElem hi
  obtain ⟨t', s, m, ht', hs, hm, happly⟩ := (getElem?_applyAll h).1 hu
  obtain rfl : t = t' := Option.some.inj (ht.symm.trans ht')
  exact ⟨s, m, us[i], hs, hm, hu, happly⟩

end Track

/-! ### Configurations -/

namespace Configuration

variable {c d : Configuration} {r r' : Rule} {state : State} {tapes : List Tape} {heads : List Int}
  {t : Tape} {h : Int} {i : Nat}

/-- A configuration has the state, the tapes and the heads that it was made with. -/
theorem parts_of_ofParts (hc : ofParts state tapes heads = .ok c) :
    c.state = state ∧ c.tapes = tapes ∧ c.heads = heads := by
  rw [ofParts] at hc
  split at hc
  · next hlen =>
      cases hc
      refine ⟨rfl, ?_, ?_⟩
      · rw [Configuration.tapes, List.map_zipWith]
        exact (List.map_uncurry_zip_eq_zipWith ..).symm.trans (List.map_fst_zip hlen.le)
      · rw [Configuration.heads, List.map_zipWith]
        exact (List.map_uncurry_zip_eq_zipWith ..).symm.trans (List.map_snd_zip hlen.ge)
  · cases hc

theorem exists_tape_of_head (hh : c.heads[i]? = some h) :
    ∃ t, c.tapes[i]? = some t ∧ c.tracks[i]? = some ⟨t, h⟩ := by
  rw [Configuration.heads, List.getElem?_map, Option.map_eq_some_iff] at hh
  obtain ⟨track, htrack, rfl⟩ := hh
  refine ⟨track.tape, ?_, htrack⟩
  rw [Configuration.tapes, List.getElem?_map, htrack]
  rfl

/-- What a rule makes of a configuration.  Each tape is read with the symbol of the rule where its
head was, and as before at every other position; each head has gone as far as its move takes it and
the range of positions goes; and the state is the next one. -/
structure Effect (r : Rule) (c d : Configuration) : Prop where
  state_eq : d.state = r.next
  tapes_length : d.tapes.length = c.tapes.length
  heads_length : d.heads.length = c.heads.length
  tape : ∀ (i : Nat) (t : Tape) (h : Int) (s : Symbol), c.tapes[i]? = some t →
    c.heads[i]? = some h → r.write[i]? = some s → ∃ t', d.tapes[i]? = some t' ∧
      t'.read h = s ∧ (∀ q, q ≠ h → t'.read q = t.read q) ∧ t'.blank = t.blank
  head : ∀ (i : Nat) (h : Int) (m : Move), c.heads[i]? = some h → r.moves[i]? = some m →
    d.heads[i]? = some (max (-2 ^ 63) (min (2 ^ 63 - 1) (m.destination h)))

theorem effect_of_apply (hd : c.apply r = .ok d) : Effect r c d := by
  obtain ⟨us, hus, rfl⟩ := exists_tracks_of_apply hd
  have hlen := Track.length_applyAll hus
  refine ⟨rfl, ?_, ?_, fun i t h s ht hh hs => ?_, fun i h m hh hm => ?_⟩
  · simpa only [Configuration.tapes, List.length_map] using hlen
  · simpa only [Configuration.heads, List.length_map] using hlen
  · obtain ⟨t', ht', htrack⟩ := exists_tape_of_head hh
    obtain rfl : t = t' := Option.some.inj (ht.symm.trans ht')
    obtain ⟨s', m, u, hs', -, hu, happly⟩ := Track.exists_of_applyAll hus htrack
    obtain rfl : s = s' := Option.some.inj (hs.symm.trans hs')
    obtain ⟨tape, hw, rfl⟩ := Track.exists_write_of_apply happly
    refine ⟨tape, ?_, ?_, fun q hq => ?_, Tape.blank_write hw⟩
    · rw [Configuration.tapes, List.getElem?_map, hu]
      rfl
    · rw [Tape.read_write hw, Function.update_self]
    · rw [Tape.read_write hw, Function.update_of_ne hq]
  · obtain ⟨t, -, htrack⟩ := exists_tape_of_head hh
    obtain ⟨s, m', u, -, hm', hu, happly⟩ := Track.exists_of_applyAll hus htrack
    obtain rfl : m = m' := Option.some.inj (hm.symm.trans hm')
    obtain ⟨tape, -, rfl⟩ := Track.exists_write_of_apply happly
    rw [Configuration.heads, List.getElem?_map, hu, Option.map_some, Move.apply_eq]
    rfl

/-- Rules with the same next state, and the same symbols and moves for the tapes, do the same. -/
theorem apply_eq_of_take (hnext : r'.next = r.next)
    (hwrite : r'.write.take c.tracks.length = r.write.take c.tracks.length)
    (hmoves : r'.moves.take c.tracks.length = r.moves.take c.tracks.length) :
    c.apply r' = c.apply r := by
  rw [apply, apply, ← Track.applyAll_take, hwrite, hmoves, Track.applyAll_take, hnext]

/-- A rule that cannot be applied breaks down. -/
theorem exists_error_of_not_exists_ok (h : ¬ ∃ d, c.apply r = .ok d) :
    ∃ b, c.apply r = .error b := by
  cases hc : c.apply r with
  | error b => exact ⟨b, rfl⟩
  | ok d => exact absurd ⟨d, hc⟩ h

/-- There is room on tapes for the symbols of a word, for each of them under the head of its
tape. -/
def HasRoom (tapes : List Tape) (heads : List Int) (w : Word) : Prop :=
  ∀ (i : Nat) (t : Tape) (h : Int) (s : Symbol), tapes[i]? = some t → heads[i]? = some h →
    w[i]? = some s → t.HasRoom h s

theorem exists_apply_iff : (∃ d, c.apply r = .ok d) ↔
    c.tapes.length ≤ r.write.length ∧ c.tapes.length ≤ r.moves.length ∧
      HasRoom c.tapes c.heads r.write := by
  have htracks : c.tapes.length = c.tracks.length := List.length_map _
  have hroom : HasRoom c.tapes c.heads r.write ↔ ∀ (i : Nat) (t : Track) (s : Symbol),
      c.tracks[i]? = some t → r.write[i]? = some s → t.tape.HasRoom t.head s := by
    constructor
    · intro h i t s ht hs
      refine h i t.tape t.head s ?_ ?_ hs
      · rw [Configuration.tapes, List.getElem?_map, ht]
        rfl
      · rw [Configuration.heads, List.getElem?_map, ht]
        rfl
    · intro hr i t h s ht hh hs
      obtain ⟨t', ht', htrack⟩ := exists_tape_of_head hh
      obtain rfl : t = t' := Option.some.inj (ht.symm.trans ht')
      exact hr i _ s htrack hs
  rw [htracks, hroom, ← Track.exists_applyAll_iff]
  constructor
  · rintro ⟨d, hd⟩
    obtain ⟨us, hus, -⟩ := exists_tracks_of_apply hd
    exact ⟨us, hus⟩
  · rintro ⟨us, hus⟩
    exact ⟨_, map_eq_ok_iff.2 ⟨us, hus, rfl⟩⟩

/-- **A rule changes what it says and nothing else.**  Of a configuration of any tapes with a head
for each, a rule that has a symbol and a move for each tape, with room for the symbols, makes one
that differs from it only in the cells under the heads, the positions of the heads and the state.
A rule that has too few symbols or moves, or no room for a symbol, breaks down.  Rules that differ
only in the state and the symbols they are for, or beyond the last tape, do the same. -/
theorem apply_framed {state : State} {tapes : List Tape} {heads : List Int} {c : Configuration}
    (hc : ofParts state tapes heads = .ok c) (r : Rule) :
    (c.state = state ∧ c.tapes = tapes ∧ c.heads = heads) ∧
    (tapes.length ≤ r.write.length → tapes.length ≤ r.moves.length →
      HasRoom tapes heads r.write → ∃ d, c.apply r = .ok d ∧ Effect r c d) ∧
    (r.write.length < tapes.length ∨ r.moves.length < tapes.length ∨
      ¬ HasRoom tapes heads r.write → ∃ b, c.apply r = .error b) ∧
    ∀ r' : Rule, r'.next = r.next →
      r'.write.take tapes.length = r.write.take tapes.length →
      r'.moves.take tapes.length = r.moves.take tapes.length → c.apply r' = c.apply r := by
  obtain ⟨rfl, rfl, rfl⟩ := parts_of_ofParts hc
  have htracks : c.tapes.length = c.tracks.length := List.length_map _
  refine ⟨⟨rfl, rfl, rfl⟩, fun hw hm hroom => ?_, fun hshort => ?_, fun r' hnext hw hm => ?_⟩
  · obtain ⟨d, hd⟩ := exists_apply_iff.2 ⟨hw, hm, hroom⟩
    exact ⟨d, hd, effect_of_apply hd⟩
  · refine exists_error_of_not_exists_ok fun hok => ?_
    obtain ⟨hw, hm, hroom⟩ := exists_apply_iff.1 hok
    rcases hshort with hw' | hm' | hroom'
    · exact absurd hw (not_le.2 hw')
    · exact absurd hm (not_le.2 hm')
    · exact hroom' hroom
  · rw [htracks] at hw hm
    exact apply_eq_of_take hnext hw hm

/-- A rule for another state, that reads nothing and writes more than there are tapes. -/
def overlong : Rule := ⟨"elsewhere", [], ['x', 'b', 'c', 'z'], [.right, .left, .right], "r"⟩

/-- Three tapes, the first of which stores nothing. -/
def shelves : List Tape := [.ofWord [] '_', .ofWord ['a'] '.', .ofWord ['a', 'b'] '.']

/-- One head is at the greatest position and stays there, the two others move. -/
theorem apply_framed_overlong : ∃ c d,
    ofParts "q" shelves [greatestPosition, 0, 1] = .ok c ∧
    HasRoom shelves [greatestPosition, 0, 1] overlong.write ∧
    c.apply overlong = .ok d ∧ Effect overlong c d ∧ d.state = "r" ∧
    d.heads[0]? = some 9223372036854775807 ∧ d.heads[1]? = some (-1) ∧ d.heads[2]? = some 2 ∧
    (∃ t, d.tapes[2]? = some t ∧ t.read 0 = 'a' ∧ t.read 1 = 'c') ∧
    (∃ b, c.apply { overlong with moves := [.right, .left] } = .error b) ∧
    c.apply { overlong with state := "q", write := ['x', 'b', 'c'] } = c.apply overlong := by
  have hroom : HasRoom shelves [greatestPosition, 0, 1] overlong.write := by
    intro i t h s ht hh hs
    match i with
    | 0 =>
        cases ht
        cases hh
        refine .inr (.inr fun q hq => ?_)
        simp only [Tape.Covers, Tape.ofWord, List.length_nil] at hq
        omega
    | 1 | 2 =>
        cases ht
        cases hh
        exact .inl (by decide)
    | i + 3 => cases ht
  have hc : ofParts "q" shelves [greatestPosition, 0, 1] = .ok ⟨"q",
      [⟨.ofWord [] '_', greatestPosition⟩, ⟨.ofWord ['a'] '.', 0⟩,
        ⟨.ofWord ['a', 'b'] '.', 1⟩]⟩ := rfl
  obtain ⟨-, hok, -, htake⟩ := apply_framed hc overlong
  obtain ⟨d, hd, heffect⟩ := hok (by decide) (by decide) hroom
  obtain ⟨-, -, hshort, -⟩ := apply_framed hc { overlong with moves := [.right, .left] }
  obtain ⟨t, ht, hread, hothers, -⟩ := heffect.tape 2 _ 1 'c' rfl rfl rfl
  exact ⟨_, d, hc, hroom, hd, heffect, heffect.state_eq, heffect.head 0 _ .right rfl rfl,
    heffect.head 1 _ .left rfl rfl, heffect.head 2 _ .right rfl rfl,
    ⟨t, ht, hothers 0 (by decide), hread⟩, hshort (.inr (.inl (by decide))), htake _ rfl rfl rfl⟩

end Configuration

end TapeMachine
