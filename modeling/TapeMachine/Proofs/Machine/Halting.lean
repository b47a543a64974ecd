import TapeMachine.Proofs.Machine.Refinement

/-!
# Machine — Halting

Where and why a run stops.  A run makes the first number of steps after which there is a reason to
stop, and stops for the first reason in the order of `Program.HaltsFor`
(`Machine.run_stops_at_least`).

A loop that is detected is one: since a configuration that looks like an earlier one is the same
ideal configuration, the ideal machine goes around in circles from there
(`Program.exists_idealAfter_eq`) and a run that does not look for loops uses up every budget
(`Machine.run_of_loop`).
-/

namespace TapeMachine

namespace Machine

variable {p : Program} {m m' : Machine} {reason : HaltReason} {n : Nat}

theorem execute_of_run (h : m.run = .ok (m', reason)) :
    m.execute = .ok ⟨reason, m'.configuration, m'.steps, m'.trace⟩ := by
  rw [execute, h]
  rfl

theorem exists_run_of_execute {e : Execution} (h : m.execute = .ok e) :
    ∃ m', m.run = .ok (m', e.halt) ∧ m'.steps = e.totalSteps := by
  obtain ⟨x, hr, rfl⟩ := map_eq_ok_iff.1 h
  exact ⟨x.1, hr, rfl⟩

/-- A program without defects has a machine, and its run stops where there first is a reason to. -/
theorem exists_stopped (hwf : p.WellFormed) (hb : p.NeverBreaks p.maxSteps) :
    ∃ m₀ m N reason, ofProgram p = .ok m₀ ∧ m₀.run = .ok (m, reason) ∧ m.Stopped p N reason := by
  obtain ⟨m₀, hm₀, hlive⟩ := exists_ofProgram hwf
  obtain ⟨m, N, reason, hrun, hs⟩ := hlive.exists_run hb
  exact ⟨m₀, m, N, reason, hm₀, hrun, hs⟩

/-- Where the run of a machine stops, and why, computed from the course of its program. -/
theorem exists_run_of_isLeast {m₀ : Machine} {c : Configuration} (hm₀ : ofProgram p = .ok m₀)
    (hwf : p.WellFormed) (hb : p.NeverBreaks p.maxSteps) (hn : IsLeast {k | p.StopsAt k} n)
    (hc : p.after n = some c) (hreason : p.reasonAt n c = reason) :
    ∃ m, m₀.run = .ok (m, reason) ∧ m.Stopped p n reason ∧ m.configuration = c := by
  obtain ⟨m, N, reason', hrun, hs⟩ := (live_of_ofProgram hwf hm₀).exists_run hb
  obtain rfl : N = n := hs.isLeast.unique hn
  obtain rfl : m.configuration = c := Option.some.inj (hs.after_eq.symm.trans hc)
  obtain rfl : reason' = reason := hs.haltsFor.eq_reasonAt.trans hreason
  exact ⟨m, hrun, hs, rfl⟩

theorem exists_run_carry {m₀ : Machine} (hm₀ : ofProgram carry = .ok m₀) :
    ∃ m, m₀.run = .ok (m, .accepted) ∧ m.Stopped carry 3 .accepted ∧ m.configuration = carried :=
  exists_run_of_isLeast hm₀ carry_wellFormed carry_neverBreaks isLeast_stopsAt_carry after_carry
    (by decide +kernel)

/-- What the trace of `carry` tells. -/
def carryEntries : List TraceEntry := [
  { number := 0, state := "go", contents := [['a', 'a', 'b'], []], origins := [0, 0],
    heads := [0, -2], symbols := ['a', '_'], action := "write [_, a], move [R, L], goto go" },
  { number := 1, state := "go", contents := [['a', 'b'], ['a']], origins := [1, -2],
    heads := [1, -3], symbols := ['a', '_'], action := "write [_, a], move [R, L], goto go" },
  { number := 2, state := "go", contents := [['b'], ['a', 'a']], origins := [2, -3],
    heads := [2, -4], symbols := ['b', '_'], action := "write [b, _], move [N, N], goto done" }]

theorem entries_carry : carry.entries 3 = carryEntries := by decide +kernel

theorem execute_carry {m₀ : Machine} (hm₀ : ofProgram carry = .ok m₀) :
    m₀.execute = .ok ⟨.accepted, carried, 3, carryEntries.toArray⟩ := by
  obtain ⟨m, hrun, hs, hend⟩ := exists_run_carry hm₀
  have htrace : m.trace = carryEntries.toArray := by
    rw [← entries_carry, ← hs.trace_eq]
  rw [execute_of_run hrun, hend, hs.steps_eq, htrace]

/-- A run that can make all steps of its budget, without a repeat, is stopped by the budget, also
where there is no rule to go on with. -/
theorem Stopped.eq_stepLimit {c : Configuration} (h : m.Stopped p n reason)
    (hc : p.after p.maxSteps = some c) (hr : ∀ k ≤ p.maxSteps, ¬ p.RepeatsAt k) :
    reason = .stepLimit := by
  have hle : n ≤ p.maxSteps := h.isLeast.2 ⟨c, hc, .inr (.inl rfl)⟩
  refine h.haltsFor.limit (hr n hle) ?_
  obtain ⟨d, hd, hrepeat | hlimit | hnone⟩ := h.stopsAt
  · exact absurd hrepeat (hr n hle)
  · exact hlimit
  · by_contra hne
    obtain ⟨x, hx⟩ := Program.exists_after (k := n + 1) hc (by omega)
    obtain ⟨d', r, hd', hrule, -⟩ := Program.after_succ_eq_some.mp hx
    obtain rfl : d = d' := Option.some.inj (hd ▸ hd')
    rw [hrule] at hnone
    cases hnone

/-- **Where a run stops, and why.**  A run of a program without defects makes the least number `N`
of steps after which there is a reason to stop, comes to the configuration that the course of the
program has there, and stops for the reason that comes first.  A budget of as many steps as can be
made, without a repeat, is the reason itself. -/
theorem run_stops_at_least (p : Program) (hp : p.check = .ok ()) (hm : p.Modest) :
    ∃ m₀ m N reason, ofProgram p = .ok m₀ ∧ m₀.run = .ok (m, reason) ∧
      m₀.execute = .ok ⟨reason, m.configuration, N, m.trace⟩ ∧ m.steps = N ∧
      IsLeast {n | p.StopsAt n} N ∧ p.after N = some m.configuration ∧
      p.HaltsFor N m.configuration reason ∧
      ∀ c, p.after p.maxSteps = some c → (∀ k ≤ p.maxSteps, ¬ p.RepeatsAt k) →
        reason = .stepLimit := by
  have hwf := Program.check_eq_ok_iff.mp hp
  obtain ⟨m₀, m, N, reason, hm₀, hrun, hs⟩ :=
    exists_stopped hwf (Program.neverBreaks_of_modest hwf hm hm.maxSteps_le)
  refine ⟨m₀, m, N, reason, hm₀, hrun, ?_, hs.steps_eq, hs.isLeast, hs.after_eq, hs.haltsFor,
    fun c hc hr => hs.eq_stepLimit hc hr⟩
  rw [execute_of_run hrun, hs.steps_eq]

/-- With ten steps to make, `carry` accepts after three.  With three steps to make it is stopped by
its budget, though there is no rule to go on with. -/
theorem run_stops_at_least_carry : carry.check = .ok () ∧ carry.Modest ∧
    (∃ m₀ m, ofProgram carry = .ok m₀ ∧ m₀.run = .ok (m, .accepted) ∧ m.steps = 3 ∧
      m.configuration = carried ∧ m₀.execute = .ok ⟨.accepted, carried, 3, m.trace⟩) ∧
    ∃ m₀ trace, ofProgram { carry with maxSteps := 3 } = .ok m₀ ∧
      m₀.execute = .ok ⟨.stepLimit, carried, 3, trace⟩ := by
  obtain ⟨m₀, m, N, reason, hm₀, hrun, he, hsteps, hN, hc, hreason, -⟩ :=
    run_stops_at_least carry rfl carry_modest
  obtain rfl : N = 3 := hN.unique isLeast_stopsAt_carry
  have hend : m.configuration = carried := Option.some.inj (hc.symm.trans after_carry)
  rw [hend] at he hreason
  obtain rfl : reason = .accepted := hreason.eq_reasonAt.trans (by decide +kernel)
  refine ⟨rfl, carry_modest, ⟨m₀, m, hm₀, hrun, hsteps, hend, he⟩, ?_⟩
  obtain ⟨m₀, m, N, reason, hm₀, -, he, -, hN, hc, -, hlimit⟩ :=
    run_stops_at_least { carry with maxSteps := 3 } rfl ⟨by decide, by decide⟩
  obtain rfl : N = 3 := hN.unique (Program.isLeast_stopsAt_iff.2 (by decide +kernel))
  have hafter : { carry with maxSteps := 3 }.after 3 = some carried := by decide +kernel
  obtain rfl : reason = .stepLimit := hlimit carried hafter (by decide +kernel)
  have hend : m.configuration = carried := Option.some.inj (hc.symm.trans hafter)
  rw [hend] at he
  exact ⟨m₀, m.trace, hm₀, he⟩

end Machine

/-! ### Loops -/

namespace Program

variable {p : Program} {a : IdealConfiguration} {i j k n : Nat}

/-- A program with another budget, and with or without a look for loops. -/
def withControls (p : Program) (maxSteps : Nat) (detectLoops : Bool) : Program :=
  { p with maxSteps, detectLoops }

theorem WellFormed.withControls (hp : p.WellFormed) {maxSteps : Nat} (h : 0 < maxSteps)
    (detectLoops : Bool) : (p.withControls maxSteps detectLoops).WellFormed :=
  { hp with maxSteps_pos := h }

/-- Neither the budget nor the look for loops changes the course of the ideal machine. -/
theorem idealAfter_withControls (p : Program) (maxSteps : Nat) (detectLoops : Bool) (n : Nat) :
    (p.withControls maxSteps detectLoops).idealAfter n = p.idealAfter n := by
  induction n with
  | zero => rfl
  | succ n ih =>
      rw [idealAfter, idealAfter, ih]
      rfl

theorem Confined.withControls {low high : Int} (h : p.Confined low high n) (maxSteps : Nat)
    (detectLoops : Bool) : (p.withControls maxSteps detectLoops).Confined low high n := by
  intro k hk a ha
  rw [idealAfter_withControls] at ha
  exact h k hk a ha

/-- An ideal machine that has come to a configuration twice comes only to the configurations that it
came to before the second time. -/
theorem exists_idealAfter_eq (hk : p.idealAfter k = some a) (hn : p.idealAfter n = some a)
    (hkn : k < n) (j : Nat) : ∃ i < n, p.idealAfter j = p.idealAfter i := by
  induction j with
  | zero => exact ⟨0, by omega, rfl⟩
  | succ j ih =>
      obtain ⟨i, hi, hji⟩ := ih
      have hnext : p.idealAfter (j + 1) = p.idealAfter (i + 1) := by
        rw [idealAfter, idealAfter, hji]
      rcases Nat.lt_or_ge (i + 1) n with hlt | hge
      · exact ⟨i + 1, hlt, hnext⟩
      · obtain rfl : n = i + 1 := by omega
        exact ⟨k, hkn, hnext.trans (hn.trans hk.symm)⟩

/-- The heads of an ideal machine that goes around in circles never leave where they have been. -/
theorem confined_of_circle (hp : p.WellFormed) (hm : p.Modest) (hn : n ≤ p.maxSteps)
    (hcircle : ∀ j, ∃ i < n, p.idealAfter j = p.idealAfter i) (j : Nat) :
    p.Confined (-modestReach) modestReach j := by
  intro j' _ a ha
  obtain ⟨i, hi, hji⟩ := hcircle j'
  have hmax := hm.maxSteps_le
  exact head_idealAfter_of_modest hp hm (by omega) (hji ▸ ha)

end Program

namespace Machine

variable {p : Program} {m m' : Machine} {reason : HaltReason} {n : Nat}

/-- A run that stops because of a loop has come to a configuration twice. -/
theorem Stopped.repeatsAt (h : m.Stopped p n .loopDetected) : p.RepeatsAt n := by
  by_contra hr
  by_cases hn : n = p.maxSteps
  · cases h.haltsFor.limit hr hn
  · have := h.haltsFor.verdict hr hn
    split at this <;> cases this

/-- A run that does not look for loops, of a program that always finds a rule, uses up its
budget. -/
theorem Stopped.eq_maxSteps (h : m.Stopped p n reason) (hl : p.detectLoops = false)
    (hnext : ∃ d, p.after (n + 1) = some d) : n = p.maxSteps ∧ reason = .stepLimit := by
  have hr : ¬ p.RepeatsAt n := fun hr => by
    have := hr.1
    rw [hl] at this
    cases this
  obtain ⟨d, hd⟩ := hnext
  obtain ⟨c, r, hc, hrule, -⟩ := Program.after_succ_eq_some.mp hd
  obtain ⟨c', hc', hrepeat | hlimit | hnone⟩ := h.stopsAt
  · exact absurd hrepeat hr
  · exact ⟨hlimit, h.haltsFor.limit hr hlimit⟩
  · obtain rfl : c = c' := Option.some.inj (hc ▸ hc')
    rw [hrule] at hnone
    cases hnone

/-- **A loop that is detected never ends.**  If a run stops because of a loop, then a run of the
same program that does not look for loops is stopped by its budget, whatever the budget is, and not
before it has used it up. -/
theorem run_of_loop (p : Program) (hp : p.check = .ok ()) (hm : p.Modest) {m₀ : Machine}
    {e : Execution} (hm₀ : ofProgram p = .ok m₀) (he : m₀.execute = .ok e)
    (hloop : e.halt = .loopDetected) (M : Nat) (hM : 1 ≤ M) :
    ∃ m₁ e₁, ofProgram (p.withControls M false) = .ok m₁ ∧ m₁.execute = .ok e₁ ∧
      e₁.halt = .stepLimit ∧ e₁.totalSteps = M := by
  have hwf := Program.check_eq_ok_iff.mp hp
  have hroom := Program.room_of_modest hm
  have hconf := Program.confined_of_modest hwf hm hm.maxSteps_le
  obtain ⟨m, N, reason, hrun, hs⟩ :=
    (live_of_ofProgram hwf hm₀).exists_run (Program.neverBreaks hwf hroom hconf)
  obtain ⟨m', hrun', -⟩ := exists_run_of_execute he
  rw [hrun, hloop] at hrun'
  cases hrun'
  -- The two configurations that look alike are one ideal configuration.
  obtain ⟨-, k, c, d, -, hkN, hc, hd, hcd⟩ := hs.repeatsAt
  have hN : N ≤ p.maxSteps := hs.steps_eq ▸ hs.steps_le
  have hideal {i : Nat} {x : Configuration} (hi : i ≤ N) (hx : p.after i = some x) :
      p.idealAfter i = some x.ideal := by
    rw [← Program.ideal_after hwf hroom (hconf.mono (hi.trans hN)), hx]
    rfl
  have hci := hideal hkN.le hc
  rw [Configuration.looksLike_iff.mp hcd] at hci
  have hcircle := Program.exists_idealAfter_eq hci (hideal le_rfl hd) hkN
  -- The course of the program with other controls is that of the same ideal machine.
  let q := p.withControls M false
  have hwf' : q.WellFormed := hwf.withControls hM false
  have hroom' : q.Room (-Program.modestReach) Program.modestReach := { hroom with }
  have hconf' (j : Nat) : q.Confined (-Program.modestReach) Program.modestReach j :=
    (Program.confined_of_circle hwf hm hN hcircle j).withControls M false
  have hafter (j : Nat) : ∃ x, q.after j = some x := by
    obtain ⟨i, hi, hji⟩ := hcircle j
    obtain ⟨x, hx⟩ := Program.exists_after hd hi.le
    have hmap := Program.ideal_after hwf' hroom' (hconf' j)
    rw [Program.idealAfter_withControls, hji, hideal hi.le hx, Option.map_eq_some_iff] at hmap
    obtain ⟨y, hy, -⟩ := hmap
    exact ⟨y, hy⟩
  obtain ⟨m₁, m₂, N₁, reason₁, hm₁, hrun₁, hs₁⟩ :=
    exists_stopped hwf' (Program.neverBreaks hwf' hroom' (hconf' _))
  obtain ⟨hN₁, hreason⟩ := hs₁.eq_maxSteps rfl (hafter _)
  exact ⟨m₁, _, hm₁, execute_of_run hrun₁, hreason, hs₁.steps_eq.trans hN₁⟩

/-- Writes a symbol and erases it, over and over.  After three steps it is where it was after
one. -/
def blink : Program where
  name := "blink"
  initial := "off"
  finals := .ofList ["done"]
  blank := '_'
  tapes := [[]]
  heads := [-3]
  tapeCount := 1
  rules := [⟨"off", ['_'], ['x'], [.stay], "on"⟩, ⟨"on", ['x'], ['_'], [.stay], "off"⟩]
  maxSteps := 10
  detectLoops := true

theorem blink_modest : blink.Modest := ⟨by decide, by decide⟩

theorem blink_wellFormed : blink.WellFormed := Program.check_eq_ok_iff.mp rfl

theorem blink_neverBreaks : blink.NeverBreaks blink.maxSteps :=
  Program.neverBreaks_of_modest blink_wellFormed blink_modest blink_modest.maxSteps_le

/-- The run of `blink` stops because of a loop. -/
theorem exists_run_blink {m₀ : Machine} (hm₀ : ofProgram blink = .ok m₀) :
    ∃ m, m₀.run = .ok (m, .loopDetected) ∧ m.Stopped blink 3 .loopDetected ∧
      m.configuration = ⟨"on", [⟨⟨['x'], -3, '_'⟩, -3⟩]⟩ :=
  exists_run_of_isLeast hm₀ blink_wellFormed blink_neverBreaks
    (Program.isLeast_stopsAt_iff.2 (by decide +kernel)) (by decide +kernel) (by decide +kernel)

theorem run_of_loop_blink : ∃ m₀ e, blink.check = .ok () ∧ blink.Modest ∧
    ofProgram blink = .ok m₀ ∧ m₀.execute = .ok e ∧ e.halt = .loopDetected ∧ e.totalSteps = 3 ∧
    1 ≤ 1000 ∧ ∃ m₁ e₁, ofProgram (blink.withControls 1000 false) = .ok m₁ ∧
      m₁.execute = .ok e₁ ∧ e₁.halt = .stepLimit ∧ e₁.totalSteps = 1000 := by
  obtain ⟨m₀, hm₀, -⟩ := exists_ofProgram blink_wellFormed
  obtain ⟨m, hrun, hs, -⟩ := exists_run_blink hm₀
  have he := execute_of_run hrun
  exact ⟨m₀, _, rfl, blink_modest, hm₀, he, rfl, hs.steps_eq, by decide,
    run_of_loop blink rfl blink_modest hm₀ he rfl 1000 (by decide)⟩

end Machine

end TapeMachine
