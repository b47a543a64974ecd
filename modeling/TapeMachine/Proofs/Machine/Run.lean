import TapeMachine.Machine
import TapeMachine.Proofs.Program.Course
import TapeMachine.Proofs.RuleTable

/-!
# Machine — Runs

Where a run stops, told by the course of the program alone, and that a machine stops there.

A machine is *along* a course (`Machine.Along`) when it has made so many steps of it: its
configuration is the one of the course, its detector has seen those from the first step on, and its
trace has an entry for each step.  A *live* machine (`Machine.Live`) has not stopped, and had no
reason to.  One step of a live machine leaves it live, one step further, or stops it for a reason
(`Machine.Live.step`); so a run stops at the first step at which there is one
(`Machine.Live.exists_run`).
-/

namespace TapeMachine

/-! ### Where a run stops -/

/-- Two configurations are in the same state, with the same heads, and the same symbol is at each
position of each tape. -/
structure Configuration.LooksLike (c d : Configuration) : Prop where
  state_eq : c.state = d.state
  heads_eq : c.heads = d.heads
  read_eq : c.tapes.map Tape.read = d.tapes.map Tape.read

theorem Configuration.looksLike_iff {c d : Configuration} : c.LooksLike d ↔ c.ideal = d.ideal := by
  constructor
  · rintro ⟨hs, hh, hr⟩
    have hi (e : Configuration) :
        e.ideal = ⟨e.state, List.zipWith IdealTrack.mk (e.tapes.map Tape.read) e.heads⟩ := by
      rw [ideal, tapes, heads, List.map_map, List.zipWith_map, List.zipWith_self]
      rfl
    rw [hi c, hi d, hs, hh, hr]
  · intro h
    exact ⟨congrArg IdealConfiguration.state h,
      by rw [← heads_ideal, ← heads_ideal, h], by rw [← tapes_ideal, ← tapes_ideal, h]⟩

namespace Program

variable {p : Program} {c d : Configuration} {n : Nat}

/-- The entry of the trace for the step after so many. -/
def entryAt (p : Program) (n : Nat) : Option TraceEntry :=
  (p.after n).bind fun c => (p.ruleAt c).map (.capture n c)

/-- The entries of the trace after so many steps. -/
def entries (p : Program) : Nat → List TraceEntry
  | 0 => []
  | n + 1 => p.entries n ++ (p.entryAt n).toList

/-- Loops are looked for, and the configuration after so many steps looks like one that an earlier
step came to. -/
def RepeatsAt (p : Program) (n : Nat) : Prop :=
  p.detectLoops = true ∧ ∃ m c d, 1 ≤ m ∧ m < n ∧ p.after m = some c ∧ p.after n = some d ∧
    c.LooksLike d

/-- There is a reason to stop after so many steps: a configuration comes up again, the budget is
used up, or no rule matches. -/
def StopsAt (p : Program) (n : Nat) : Prop :=
  ∃ c, p.after n = some c ∧ (p.RepeatsAt n ∨ n = p.maxSteps ∨ p.ruleAt c = none)

/-- The reason for which a run stops after so many steps, in this configuration.  A loop comes
before the budget, and the budget before the verdict. -/
structure HaltsFor (p : Program) (n : Nat) (c : Configuration) (reason : HaltReason) : Prop where
  loop : p.RepeatsAt n → reason = .loopDetected
  limit : ¬ p.RepeatsAt n → n = p.maxSteps → reason = .stepLimit
  verdict : ¬ p.RepeatsAt n → n ≠ p.maxSteps →
    reason = if c.state ∈ p.finals then .accepted else .rejected

theorem not_repeatsAt_of_le_one (h : n ≤ 1) : ¬ p.RepeatsAt n := by
  rintro ⟨-, m, c, d, h₁, h₂, -⟩
  omega

/-- A repeat shows in the fingerprints. -/
theorem repeatsAt_iff (hd : p.after n = some d) : p.RepeatsAt n ↔
    p.detectLoops = true ∧ ∃ m c, 1 ≤ m ∧ m < n ∧ p.after m = some c ∧
      c.fingerprint = d.fingerprint := by
  refine and_congr_right fun _ => exists_congr fun m => exists_congr fun c => ?_
  constructor
  · rintro ⟨d', h₁, h₂, hc, hd', hcd⟩
    obtain rfl : d' = d := Option.some.inj (hd' ▸ hd)
    exact ⟨h₁, h₂, hc, (Configuration.fingerprint_eq_iff (hasBlank_after hc)
      (hasBlank_after hd)).mpr (Configuration.looksLike_iff.mp hcd)⟩
  · rintro ⟨h₁, h₂, hc, hcd⟩
    exact ⟨d, h₁, h₂, hc, hd, Configuration.looksLike_iff.mpr
      ((Configuration.fingerprint_eq_iff (hasBlank_after hc) (hasBlank_after hd)).mp hcd)⟩

/-! ### Where a run stops, computed -/

instance (p : Program) (n : Nat) : Decidable (p.RepeatsAt n) :=
  decidable_of_iff (p.detectLoops = true ∧ ∃ d ∈ p.after n, ∃ m < n, 1 ≤ m ∧ ∃ c ∈ p.after m,
    c.fingerprint = d.fingerprint) <| by
  constructor
  · rintro ⟨hl, d, hd, m, hm, h₁, c, hc, hcd⟩
    exact (repeatsAt_iff hd).2 ⟨hl, m, c, h₁, hm, hc, hcd⟩
  · rintro ⟨hl, m, c, d, h₁, hm, hc, hd, hcd⟩
    obtain ⟨-, m, c, h₁, hm, hc, hcd⟩ := (repeatsAt_iff hd).1 ⟨hl, m, c, d, h₁, hm, hc, hd, hcd⟩
    exact ⟨hl, d, hd, m, hm, h₁, c, hc, hcd⟩

instance (p : Program) (n : Nat) : Decidable (p.StopsAt n) :=
  inferInstanceAs (Decidable (∃ c ∈ p.after n, p.RepeatsAt n ∨ n = p.maxSteps ∨ p.ruleAt c = none))

/-- The reason for which a run stops after so many steps, in this configuration. -/
def reasonAt (p : Program) (n : Nat) (c : Configuration) : HaltReason :=
  if p.RepeatsAt n then .loopDetected
  else if n = p.maxSteps then .stepLimit
  else if c.state ∈ p.finals then .accepted else .rejected

theorem isLeast_stopsAt_iff :
    IsLeast {k | p.StopsAt k} n ↔ p.StopsAt n ∧ ∀ k < n, ¬ p.StopsAt k := by
  refine and_congr_right fun _ => forall_congr' fun k => ?_
  rw [← not_lt]
  exact imp_not_comm

theorem HaltsFor.eq_reasonAt {reason : HaltReason} (h : p.HaltsFor n c reason) :
    reason = p.reasonAt n c := by
  rw [reasonAt]
  split
  · next hr => exact h.loop hr
  · next hr =>
      split
      · next hn => exact h.limit hr hn
      · next hn => exact h.verdict hr hn

end Program

namespace Machine

variable {p : Program} {m m' : Machine} {c d : Configuration} {r : Rule} {reason : HaltReason}
  {outcome : Outcome} {n : Nat}

/-! ### Machines along a course -/

/-- The machine has made `n` steps of the course of a program. -/
structure Along (p : Program) (n : Nat) (m : Machine) : Prop where
  program_eq : m.program = p
  lookup_eq : ∀ s w, m.table.lookup s w = p.firstRule s w
  steps_eq : m.steps = n
  after_eq : p.after n = some m.configuration
  contains_iff : ∀ c, m.detector.contains c = true ↔ p.detectLoops = true ∧
    ∃ k d, 1 ≤ k ∧ k ≤ n ∧ p.after k = some d ∧ d.fingerprint = c.fingerprint
  trace_eq : m.trace.toList = p.entries n

/-- The machine has not stopped after `n` steps, and had no reason to. -/
structure Live (p : Program) (n : Nat) (m : Machine) : Prop extends Along p n m where
  halted_eq : m.halted = none
  le_maxSteps : n ≤ p.maxSteps
  not_repeatsAt : ¬ p.RepeatsAt n
  not_stopsAt : ∀ k < n, ¬ p.StopsAt k

/-- The machine has stopped after `n` steps, where it first had a reason to. -/
structure Stopped (p : Program) (n : Nat) (reason : HaltReason) (m : Machine) : Prop
    extends Along p n m where
  halted_eq : m.halted = some reason
  stopsAt : p.StopsAt n
  not_stopsAt : ∀ k < n, ¬ p.StopsAt k
  haltsFor : p.HaltsFor n m.configuration reason

theorem Along.transition_eq (h : m.Along p n) : m.transition = p.ruleAt m.configuration := by
  rw [transition, h.lookup_eq]
  rfl

/-- A machine that finds no rule accepts in a final state and rejects in any other. -/
theorem verdict_eq_ite (m : Machine) : m.verdict =
    if m.configuration.state ∈ m.program.finals then .accepted else .rejected := by
  simp only [verdict, Program.isFinal, decide_eq_true_iff]

/-- A live machine that finds a reason to stop is stopped by it. -/
theorem Live.halt (h : m.Live p n) (hstop : n = p.maxSteps ∨ p.ruleAt m.configuration = none)
    (hlimit : n = p.maxSteps → reason = .stepLimit)
    (hverdict : n ≠ p.maxSteps →
      reason = if m.configuration.state ∈ p.finals then .accepted else .rejected) :
    (m.halt reason).1.Stopped p n reason where
  toAlong := ⟨h.program_eq, h.lookup_eq, h.steps_eq, h.after_eq, h.contains_iff, h.trace_eq⟩
  halted_eq := rfl
  stopsAt := ⟨m.configuration, h.after_eq, .inr hstop⟩
  not_stopsAt := h.not_stopsAt
  haltsFor := ⟨fun hr => absurd hr h.not_repeatsAt, fun _ => hlimit, fun _ => hverdict⟩

/-- What a machine sees when it looks for loops. -/
theorem contains_observe (d : LoopDetector) (c e : Configuration) :
    (d.observe c).2.contains e = true ↔ c.fingerprint = e.fingerprint ∨ d.contains e = true := by
  rw [LoopDetector.observe, LoopDetector.contains, LoopDetector.contains,
    Std.HashSet.contains_insert, Bool.or_eq_true, beq_iff_eq]
  rfl

/-! ### One step -/

/-- The detector sees a repeat when there is one. -/
theorem Along.contains_iff_repeatsAt (h : m.Along p n) (hd : p.after (n + 1) = some d) :
    m.detector.contains d = true ↔ p.RepeatsAt (n + 1) := by
  rw [h.contains_iff, Program.repeatsAt_iff hd]
  simp only [Nat.lt_succ_iff]

/-- The detector, after it has seen the next configuration. -/
theorem Along.contains_observe (h : m.Along p n) (hd : p.after (n + 1) = some d)
    (hl : p.detectLoops = true) (e : Configuration) :
    (m.detector.observe d).2.contains e = true ↔ p.detectLoops = true ∧
      ∃ k d', 1 ≤ k ∧ k ≤ n + 1 ∧ p.after k = some d' ∧ d'.fingerprint = e.fingerprint := by
  rw [Machine.contains_observe, h.contains_iff]
  constructor
  · rintro (hde | ⟨-, k, d', h₁, h₂, hk, hf⟩)
    · exact ⟨hl, n + 1, d, by omega, le_refl _, hd, hde⟩
    · exact ⟨hl, k, d', h₁, by omega, hk, hf⟩
  · rintro ⟨-, k, d', h₁, h₂, hk, hf⟩
    rcases Nat.lt_or_ge n k with hlt | hge
    · obtain rfl : k = n + 1 := by omega
      obtain rfl : d = d' := Option.some.inj (hd ▸ hk)
      exact .inl hf
    · exact .inr ⟨hl, k, d', h₁, hge, hk, hf⟩

/-- A machine along a course is one step further along it when it has applied the rule that
matches. -/
theorem Along.next (h : m.Along p n) (hrule : p.ruleAt m.configuration = some r)
    (hd : m.configuration.apply r = .ok d) {detector : LoopDetector} {halted : Option HaltReason}
    (hdet : ∀ e, detector.contains e = true ↔ p.detectLoops = true ∧
      ∃ k d', 1 ≤ k ∧ k ≤ n + 1 ∧ p.after k = some d' ∧ d'.fingerprint = e.fingerprint) :
    Along p (n + 1)
      { m with configuration := d, detector, halted, steps := m.steps + 1,
               trace := m.trace.push (.capture m.steps m.configuration r) } where
  program_eq := h.program_eq
  lookup_eq := h.lookup_eq
  steps_eq := congrArg (· + 1) h.steps_eq
  after_eq := Program.after_succ_eq_some.mpr ⟨_, r, h.after_eq, hrule, hd⟩
  contains_iff := hdet
  trace_eq := by
    rw [Array.toList_push, h.trace_eq, Program.entries, Program.entryAt, h.after_eq, h.steps_eq,
      Option.bind_some, hrule]
    rfl

/-- A live machine that applies a rule goes on, one step further, unless it has come to a
configuration once more. -/
theorem Live.apply (h : m.Live p n) (hn : n < p.maxSteps)
    (hrule : p.ruleAt m.configuration = some r) (hd : m.configuration.apply r = .ok d) :
    (∃ m', (m.applyRule r).map watch = .ok (m', .continues) ∧ m'.Live p (n + 1)) ∨
    ∃ m', (m.applyRule r).map watch = .ok (m', .halts .loopDetected) ∧
      m'.Stopped p (n + 1) .loopDetected := by
  obtain rfl := h.program_eq
  have hnext : m.program.after (n + 1) = some d :=
    Program.after_succ_eq_some.mpr ⟨_, r, h.after_eq, hrule, hd⟩
  have hstop : ∀ k < n + 1, ¬ m.program.StopsAt k := by
    intro k hk
    rcases Nat.lt_or_ge k n with hlt | hge
    · exact h.not_stopsAt k hlt
    · obtain rfl : k = n := by omega
      rintro ⟨c, hc, hr | hm | hnone⟩
      · exact h.not_repeatsAt hr
      · omega
      · obtain rfl : c = m.configuration := Option.some.inj (hc ▸ h.after_eq)
        rw [hrule] at hnone
        cases hnone
  -- A repeat is looked for after the step, so it comes before the budget and the lack of a rule.
  rw [applyRule, hd]
  simp only [Except.map, watch]
  by_cases hl : m.program.detectLoops = true
  · -- The detector has seen the fingerprint just if the configuration looks like an earlier one.
    have hdet := h.contains_observe hnext hl
    rw [if_pos hl]
    by_cases hr : m.program.RepeatsAt (n + 1)
    · have hseen : (m.detector.observe d).1 = true := (h.contains_iff_repeatsAt hnext).mpr hr
      rw [if_pos hseen]
      exact .inr ⟨_, rfl, h.toAlong.next hrule hd hdet, rfl, ⟨d, hnext, .inl hr⟩, hstop,
        fun _ => rfl, fun hr' => absurd hr hr', fun hr' => absurd hr hr'⟩
    · have hseen : ¬ (m.detector.observe d).1 = true :=
        fun hs => hr ((h.contains_iff_repeatsAt hnext).mp hs)
      rw [if_neg hseen]
      exact .inl ⟨_, rfl, h.toAlong.next hrule hd hdet, h.halted_eq, hn, hr, hstop⟩
  · -- Nothing is observed, and nothing is claimed of the detector.
    rw [if_neg hl]
    have hdet (e : Configuration) : m.detector.contains e = true ↔
        m.program.detectLoops = true ∧ ∃ k d', 1 ≤ k ∧ k ≤ n + 1 ∧ m.program.after k = some d' ∧
          d'.fingerprint = e.fingerprint :=
      (h.contains_iff e).trans ⟨fun hs => absurd hs.1 hl, fun hs => absurd hs.1 hl⟩
    exact .inl ⟨_, rfl, h.toAlong.next hrule hd hdet, h.halted_eq, hn, fun hr => hl hr.1, hstop⟩

/-- **One step of a live machine** leaves it live, one step further, or stops it where there is a
reason to. -/
theorem Live.step (h : m.Live p n) (hb : p.NeverBreaks p.maxSteps) :
    (∃ m', m.step = .ok (m', .continues) ∧ m'.Live p (n + 1)) ∨
    ∃ m' N reason, m.step = .ok (m', .halts reason) ∧ n ≤ N ∧ m'.Stopped p N reason := by
  rw [Machine.step, h.halted_eq, h.program_eq, h.steps_eq, h.transition_eq]
  by_cases hlimit : p.maxSteps ≤ n
  · have hn : n = p.maxSteps := le_antisymm h.le_maxSteps hlimit
    simp only [if_pos hlimit]
    exact .inr ⟨_, n, _, rfl, le_refl n, h.halt (.inl hn) (fun _ => rfl) (fun hne => absurd hn hne)⟩
  · simp only [if_neg hlimit]
    cases hrule : p.ruleAt m.configuration with
    | none =>
        refine .inr ⟨_, n, _, rfl, le_refl n, h.halt (.inr hrule) (fun hn => ?_) fun _ => ?_⟩
        · exact absurd hn.ge hlimit
        · rw [verdict_eq_ite, h.program_eq]
    | some r =>
        obtain ⟨d, hd⟩ := hb n (by omega) _ r h.after_eq hrule
        rcases h.apply (by omega) hrule hd with ⟨m', hm', hlive⟩ | ⟨m', hm', hstopped⟩
        · exact .inl ⟨m', hm', hlive⟩
        · exact .inr ⟨m', n + 1, _, hm', by omega, hstopped⟩

/-- A machine that has stopped is left as it is. -/
theorem Stopped.step (h : m.Stopped p n reason) : m.step = .ok (m, .halts reason) := by
  rw [Machine.step, h.halted_eq]

theorem Live.steps_le (h : m.Live p n) : m.steps ≤ p.maxSteps := h.steps_eq ▸ h.le_maxSteps

/-- A run makes no more steps than its budget. -/
theorem Stopped.steps_le (h : m.Stopped p n reason) : m.steps ≤ p.maxSteps := by
  by_contra hlt
  rw [h.steps_eq] at hlt
  obtain ⟨c, hc⟩ := Program.exists_after (k := p.maxSteps) h.after_eq (by omega)
  exact h.not_stopsAt p.maxSteps (by omega) ⟨c, hc, .inr (.inl rfl)⟩

/-! ### Some steps -/

theorem stepMany_succ (h : m.step = .ok (m', outcome)) (calls : Nat) :
    stepMany (calls + 1) m = if calls = 0 then .ok (m', outcome) else stepMany calls m' := by
  cases calls with
  | zero => exact h
  | succ calls =>
      rw [stepMany, h]
      rfl

theorem Stopped.stepMany (h : m.Stopped p n reason) (calls : Nat) :
    ∃ outcome, Machine.stepMany calls m = .ok (m, outcome) := by
  induction calls with
  | zero => exact ⟨_, rfl⟩
  | succ calls ih =>
      rw [stepMany_succ h.step]
      split
      · exact ⟨_, rfl⟩
      · exact ih

/-- So many calls of `step` leave a live machine live, as many steps further, or stop it. -/
theorem Live.exists_stepMany (h : m.Live p n) (hb : p.NeverBreaks p.maxSteps) (calls : Nat) :
    ∃ m' outcome, Machine.stepMany calls m = .ok (m', outcome) ∧
      (m'.Live p (n + calls) ∨ ∃ N reason, m'.Stopped p N reason) := by
  induction calls generalizing m n with
  | zero => exact ⟨m, _, rfl, .inl h⟩
  | succ calls ih =>
      rcases h.step hb with ⟨m', hm', hlive⟩ | ⟨m', N, reason, hm', -, hstopped⟩
      · rw [stepMany_succ hm']
        split
        · next hz => exact ⟨m', _, rfl, .inl (hz ▸ hlive)⟩
        · rw [Nat.add_comm calls, ← Nat.add_assoc]
          exact ih hlive
      · rw [stepMany_succ hm']
        split
        · exact ⟨m', _, rfl, .inr ⟨N, reason, hstopped⟩⟩
        · obtain ⟨outcome, ho⟩ := hstopped.stepMany calls
          exact ⟨m', outcome, ho, .inr ⟨N, reason, hstopped⟩⟩

theorem Stopped.isLeast (h : m.Stopped p n reason) : IsLeast {k | p.StopsAt k} n :=
  Program.isLeast_stopsAt_iff.2 ⟨h.stopsAt, h.not_stopsAt⟩

/-- A machine that has been called more often than its course has steps has stopped. -/
theorem Live.exists_stepMany_of_lt {N calls : Nat} (h : m.Live p 0) (hb : p.NeverBreaks p.maxSteps)
    (hN : IsLeast {k | p.StopsAt k} N) (hcalls : N < calls) :
    ∃ m' outcome reason, Machine.stepMany calls m = .ok (m', outcome) ∧ m'.Stopped p N reason := by
  obtain ⟨m', outcome, hmany, hl | ⟨n, reason, hs⟩⟩ := h.exists_stepMany hb calls
  · exact absurd hN.1 (hl.not_stopsAt N (by omega))
  · obtain rfl : n = N := hs.isLeast.unique hN
    exact ⟨m', outcome, reason, hmany, hs⟩

/-! ### Whole runs -/

theorem run_of_halts (h : m.step = .ok (m', .halts reason)) : m.run = .ok (m', reason) := by
  rw [run]
  split <;> simp_all

theorem run_of_continues (h : m.step = .ok (m', .continues)) : m.run = m'.run := by
  rw [run]
  split <;> simp_all

/-- **A run of a live machine** stops at the first step where there is a reason to. -/
theorem Live.exists_run (h : m.Live p n) (hb : p.NeverBreaks p.maxSteps) :
    ∃ m' N reason, m.run = .ok (m', reason) ∧ m'.Stopped p N reason := by
  -- The budget that is left goes down with each step after which the run goes on.
  induction hk : p.maxSteps - n generalizing m n with
  | zero =>
      rcases h.step hb with ⟨m', -, hlive⟩ | ⟨m', N, reason, hm', -, hstopped⟩
      · have := hlive.le_maxSteps
        omega
      · exact ⟨m', N, reason, run_of_halts hm', hstopped⟩
  | succ k ih =>
      rcases h.step hb with ⟨m', hm', hlive⟩ | ⟨m', N, reason, hm', -, hstopped⟩
      · rw [run_of_continues hm']
        exact ih hlive (by omega)
      · exact ⟨m', N, reason, run_of_halts hm', hstopped⟩

/-- A machine at the start is live. -/
theorem live_start {table : RuleTable} (h : ∀ s w, table.lookup s w = p.firstRule s w) :
    Live p 0 ⟨p, table, .initial p, .empty, #[], 0, none⟩ := by
  refine ⟨⟨rfl, h, rfl, rfl, fun c => ?_, rfl⟩, rfl, Nat.zero_le _,
    Program.not_repeatsAt_of_le_one (by omega), nofun⟩
  rw [LoopDetector.contains, LoopDetector.empty, Std.HashSet.contains_empty]
  constructor
  · exact nofun
  · rintro ⟨-, k, d, h₁, h₂, -⟩
    omega

/-- A program without defects has a machine, which is live at the start. -/
theorem exists_ofProgram (hp : p.WellFormed) : ∃ m, ofProgram p = .ok m ∧ m.Live p 0 := by
  obtain ⟨table, ht⟩ := RuleTable.exists_ofRules hp.hasArity
  refine ⟨⟨p, table, .initial p, .empty, #[], 0, none⟩, ?_, live_start fun s w => ?_⟩
  · rw [ofProgram, Program.check_eq_ok_iff.mpr hp, ht]
    rfl
  · rw [RuleTable.lookup_ofRules ht, Program.firstRule]
    congr 1
    funext r
    simp only [Rule.key, Prod.mk.injEq]

theorem live_of_ofProgram (hp : p.WellFormed) (h : ofProgram p = .ok m) : m.Live p 0 := by
  obtain ⟨m', hm', hlive⟩ := exists_ofProgram hp
  obtain rfl : m' = m := Except.ok.inj (hm'.symm.trans h)
  exact hlive

end Machine

end TapeMachine
