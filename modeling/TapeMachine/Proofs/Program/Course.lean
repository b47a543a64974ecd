import TapeMachine.Proofs.Configuration
import TapeMachine.Proofs.Program.WellFormed

/-!
# Program — Course

The configurations that a program goes through, one step after the other, whatever would stop a run
of it: `Program.after p n` is the one after `n` steps, if a rule matches in all those before it.

As long as the heads of the ideal machine stay in an interval with room for the tapes, no rule
breaks a tape (`Program.neverBreaks`) and the course is that of the ideal machine
(`Program.ideal_after`).  Within `2 ^ 40` steps from tapes shorter than `2 ^ 40` symbols that is so
for every program without defects (`Program.confined_of_modest`).
-/

namespace TapeMachine.Program

variable {p : Program} {c d : Configuration} {r : Rule} {low high : Int} {k n : Nat}

/-- The rule that comes first for what a configuration shows. -/
def ruleAt (p : Program) (c : Configuration) : Option Rule := p.firstRule c.state c.symbols

/-- The configuration after one more step, if a rule matches and can be applied. -/
def next? (p : Program) (c : Configuration) : Option Configuration :=
  (p.ruleAt c).bind fun r => (c.apply r).toOption

/-- The configuration after so many steps, if there are that many. -/
def after (p : Program) : Nat → Option Configuration
  | 0 => some (.initial p)
  | n + 1 => (p.after n).bind p.next?

/-- Whatever rule comes up within so many steps can be applied. -/
def NeverBreaks (p : Program) (n : Nat) : Prop :=
  ∀ k < n, ∀ c r, p.after k = some c → p.ruleAt c = some r → ∃ d, c.apply r = .ok d

/-! ### One step -/

theorem next?_eq_some : p.next? c = some d ↔ ∃ r, p.ruleAt c = some r ∧ c.apply r = .ok d := by
  rw [next?, Option.bind_eq_some_iff]
  refine exists_congr fun r => and_congr_right fun _ => ?_
  cases c.apply r <;> simp [Except.toOption]

theorem after_succ_eq_some :
    p.after (n + 1) = some d ↔
      ∃ c r, p.after n = some c ∧ p.ruleAt c = some r ∧ c.apply r = .ok d := by
  rw [after, Option.bind_eq_some_iff]
  simp only [next?_eq_some, exists_and_left]

/-- There is a configuration after every smaller number of steps. -/
theorem exists_after (h : p.after n = some d) (hk : k ≤ n) : ∃ c, p.after k = some c := by
  induction n generalizing d with
  | zero =>
      obtain rfl : k = 0 := by omega
      exact ⟨d, h⟩
  | succ n ih =>
      obtain ⟨c, r, hc, -, -⟩ := after_succ_eq_some.mp h
      rcases Nat.lt_or_ge k (n + 1) with hlt | hge
      · exact ih hc (by omega)
      · obtain rfl : k = n + 1 := by omega
        exact ⟨d, h⟩

theorem ruleAt_ideal (p : Program) (c : Configuration) :
    p.ruleAt c = p.firstRule c.ideal.state c.ideal.symbols := by
  rw [ruleAt, Configuration.symbols_ideal, Configuration.state_ideal]

theorem mem_of_ruleAt (h : p.ruleAt c = some r) : r ∈ p.rules := List.mem_of_find?_eq_some h

/-- At the start each tape holds one of the contents from position 0 onwards. -/
theorem exists_of_mem_initial {t : Track} (ht : t ∈ (Configuration.initial p).tracks) :
    ∃ w ∈ p.tapes, ∃ h, t = ⟨.ofWord w p.blank, h⟩ := by
  obtain ⟨i, hi⟩ := List.mem_iff_getElem?.mp ht
  obtain ⟨w, h, hw, -, rfl⟩ := List.getElem?_zipWith_eq_some.mp hi
  exact ⟨w, List.mem_of_getElem? hw, h, rfl⟩

theorem WellFormed.length_tracks_initial (hp : p.WellFormed) :
    (Configuration.initial p).tracks.length = p.tapeCount := by
  rw [Configuration.initial, List.length_zipWith, hp.tapes_length, hp.heads_length, min_self]

/-- The tapes of a program keep its blank. -/
theorem hasBlank_after (h : p.after n = some c) : c.HasBlank p.blank := by
  induction n generalizing c with
  | zero =>
      cases h
      intro t ht
      obtain ⟨w, -, i, rfl⟩ := exists_of_mem_initial ht
      rfl
  | succ n ih =>
      obtain ⟨d, r, hd, -, happly⟩ := after_succ_eq_some.mp h
      exact (ih hd).apply happly

/-! ### An interval with room for the tapes -/

/-- An interval, clear of the ends of the range of positions, that holds what is on the tapes at the
start, and whose cells a tape can store. -/
structure Room (p : Program) (low high : Int) : Prop where
  low_nonpos : low ≤ 0
  length_le : ∀ w ∈ p.tapes, (w.length : Int) ≤ high
  lt_low : leastPosition < low
  high_le : high ≤ greatestPosition
  fits : high - low ≤ Tape.capacity

/-- There is a track for each tape of the program, and its cells lie in an interval. -/
structure Housed (p : Program) (low high : Int) (c : Configuration) : Prop where
  length_eq : c.tracks.length = p.tapeCount
  within : ∀ t ∈ c.tracks, t.tape.Within low high

theorem housed_initial (hp : p.WellFormed) (hr : p.Room low high) :
    p.Housed low high (.initial p) := by
  refine ⟨hp.length_tracks_initial, fun t ht => ?_⟩
  obtain ⟨w, hw, h, rfl⟩ := exists_of_mem_initial ht
  exact Tape.within_ofWord hr.low_nonpos (hr.length_le w hw)

/-- **One step.**  Where the heads are in the interval, the rule that matches can be applied, does
what the ideal machine does, and leaves the cells in the interval. -/
theorem Housed.exists_apply (h : p.Housed low high c) (hp : p.WellFormed) (hr : p.Room low high)
    (hh : c.ideal.HeadsWithin low high) (hrule : p.ruleAt c = some r) :
    ∃ d, c.apply r = .ok d ∧ d.ideal = c.ideal.apply r ∧ p.Housed low high d := by
  have harity : r.HasArity c.tracks.length := h.length_eq ▸ hp.hasArity r (mem_of_ruleAt hrule)
  have hfits : ∀ t ∈ c.tracks, t.Fits low high := fun t ht =>
    ⟨h.within t ht, (hh t.ideal (List.mem_map_of_mem ht)).1,
      (hh t.ideal (List.mem_map_of_mem ht)).2⟩
  obtain ⟨d, hd, hi, hl, hw⟩ :=
    Configuration.exists_apply hfits hr.lt_low hr.high_le hr.fits harity
  exact ⟨d, hd, hi, hl.trans h.length_eq, hw⟩

/-! ### The whole course -/

/-- In the configurations of the ideal machine before so many steps the heads are in an interval. -/
def Confined (p : Program) (low high : Int) (n : Nat) : Prop :=
  ∀ k < n, ∀ c, p.idealAfter k = some c → c.HeadsWithin low high

theorem Confined.mono (h : p.Confined low high n) (hk : k ≤ n) : p.Confined low high k :=
  fun j hj => h j (by omega)

/-- The course of a program is that of the ideal machine, and its tapes stay in the interval, as
long as the heads do. -/
theorem course (hp : p.WellFormed) (hr : p.Room low high) (hc : p.Confined low high n) :
    (p.after n).map Configuration.ideal = p.idealAfter n ∧
      ∀ c, p.after n = some c → p.Housed low high c := by
  -- Both at once: a rule is applied as by the ideal machine because its tapes are in the interval.
  induction n with
  | zero =>
      refine ⟨congrArg some (Configuration.ideal_initial p), fun c hc => ?_⟩
      cases hc
      exact housed_initial hp hr
  | succ n ih =>
      obtain ⟨hideal, hhoused⟩ := ih (hc.mono (by omega))
      cases hn : p.after n with
      | none =>
          rw [hn] at hideal
          simp only [after, idealAfter, hn, ← hideal]
          exact ⟨rfl, nofun⟩
      | some c =>
          have hci : p.idealAfter n = some c.ideal := by rw [← hideal, hn]; rfl
          simp only [after, idealAfter, hn, hci, Option.bind_some, idealNext?, next?,
            ← ruleAt_ideal]
          cases hrule : p.ruleAt c with
          | none => exact ⟨rfl, nofun⟩
          | some r =>
              obtain ⟨d, hd, hdi, hdh⟩ :=
                (hhoused c hn).exists_apply hp hr (hc n (by omega) _ hci) hrule
              simp only [Option.bind_some, hd, Except.toOption, Option.map_some, hdi, true_and]
              rintro _ ⟨⟩
              exact hdh

theorem ideal_after (hp : p.WellFormed) (hr : p.Room low high) (hc : p.Confined low high n) :
    (p.after n).map Configuration.ideal = p.idealAfter n := (course hp hr hc).1

theorem housed_after (hp : p.WellFormed) (hr : p.Room low high) (hc : p.Confined low high n)
    (h : p.after n = some c) : p.Housed low high c := (course hp hr hc).2 c h

theorem neverBreaks (hp : p.WellFormed) (hr : p.Room low high) (hc : p.Confined low high n) :
    p.NeverBreaks n := by
  intro k hk c r hck hrule
  have hconf := hc.mono (Nat.le_of_lt hk)
  have hci : p.idealAfter k = some c.ideal := by rw [← ideal_after hp hr hconf, hck]; rfl
  obtain ⟨d, hd, -, -⟩ := (housed_after hp hr hconf hck).exists_apply hp hr (hc k hk _ hci) hrule
  exact ⟨d, hd⟩

/-! ### Modest programs -/

/-- A program that asks for at most `2 ^ 40` steps, and starts with fewer than `2 ^ 40` symbols on
each tape. -/
structure Modest (p : Program) : Prop where
  maxSteps_le : p.maxSteps ≤ 1099511627776
  length_lt : ∀ w ∈ p.tapes, w.length < 1099511627776

/-- How far a modest program gets from position 0, in either direction: less than `2 ^ 42`. -/
def modestReach : Int := 4398046511104

theorem room_of_modest (hm : p.Modest) : p.Room (-modestReach) modestReach where
  low_nonpos := by decide
  length_le w hw := by
    have := hm.length_lt w hw
    simp only [modestReach]
    omega
  lt_low := by decide
  high_le := by decide
  fits := by decide

theorem head_idealAfter_of_modest (hp : p.WellFormed) (hm : p.Modest) (hn : n ≤ 1099511627776)
    {a : IdealConfiguration} (ha : p.idealAfter n = some a) :
    a.HeadsWithin (-modestReach) modestReach := by
  have hstart : p.idealStart.HeadsWithin (-10000) 1099511637777 := by
    intro t ht
    obtain ⟨i, hi⟩ := List.mem_iff_getElem?.mp ht
    obtain ⟨w, h, hw, hh, rfl⟩ := List.getElem?_zipWith_eq_some.mp hi
    have hmem : (w, h) ∈ p.tapes.zip p.heads :=
      List.mem_iff_getElem?.mpr ⟨i, List.getElem?_zip_eq_some.mpr ⟨hw, hh⟩⟩
    have hrange := hp.headInRange _ hmem
    have hlen := hm.length_lt w (List.mem_of_getElem? hw)
    simp only [HeadInRange, maxHeadOffset] at hrange
    simp only [IdealTrack.ofWord]
    omega
  intro t ht
  have := head_idealAfter hstart ha t ht
  simp only [modestReach]
  omega

theorem confined_of_modest (hp : p.WellFormed) (hm : p.Modest) (hn : n ≤ 1099511627776) :
    p.Confined (-modestReach) modestReach n :=
  fun _ hk _ ha => head_idealAfter_of_modest hp hm (by omega) ha

theorem neverBreaks_of_modest (hp : p.WellFormed) (hm : p.Modest) (hn : n ≤ 1099511627776) :
    p.NeverBreaks n :=
  neverBreaks hp (room_of_modest hm) (confined_of_modest hp hm hn)

end TapeMachine.Program
