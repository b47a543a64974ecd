import TapeMachine.Proofs.Machine.Halting

/-!
# Machine — Run controls

The budget of a program and its look for loops say how far a run goes, and nothing else.  The course
of the program is the same under all of them (`Program.after_withControls`), so that of two runs one
goes as far as the other and perhaps further.

A course that comes to an end never comes to a configuration twice
(`Program.not_repeatsAt_of_ruleAt_eq_none`).  So a run of it stops at the end, if the budget goes
beyond it (`Machine.Stopped.eq_end`), and is stopped by the budget otherwise
(`Machine.Stopped.eq_budget`), whether it looks for loops or not.  `Machine.execute_withControls`
compares two runs.
-/

namespace TapeMachine

namespace Program

variable {p : Program} {c : Configuration} {low high : Int} {n N M : Nat} {d : Bool}

theorem after_withControls (p : Program) (M : Nat) (d : Bool) (n : Nat) :
    (p.withControls M d).after n = p.after n := by
  induction n with
  | zero => rfl
  | succ n ih =>
      rw [after, after, ih]
      rfl

theorem entries_withControls (p : Program) (M : Nat) (d : Bool) (n : Nat) :
    (p.withControls M d).entries n = p.entries n := by
  induction n with
  | zero => rfl
  | succ n ih =>
      rw [entries, entries, ih, entryAt, entryAt, after_withControls]
      rfl

theorem Room.withControls (h : p.Room low high) (M : Nat) (d : Bool) :
    (p.withControls M d).Room low high := { h with }

theorem entries_prefix (p : Program) (h : n ≤ N) : p.entries n <+: p.entries N := by
  induction h with
  | refl => exact List.prefix_refl _
  | step _ ih => exact ih.trans (List.prefix_append _ _)

/-! ### Courses that come to an end -/

/-- A rule matches wherever the course goes on. -/
theorem ruleAt_ne_none (hc : p.after n = some c) (hnext : ∃ d, p.after (n + 1) = some d) :
    p.ruleAt c ≠ none := by
  obtain ⟨d, hd⟩ := hnext
  obtain ⟨c', r, hc', hrule, -⟩ := after_succ_eq_some.mp hd
  obtain rfl : c = c' := Option.some.inj (hc ▸ hc')
  rw [hrule]
  exact Option.some_ne_none r

/-- A course that comes to an end does not come to a configuration twice: it would go around in
circles from there. -/
theorem not_repeatsAt_of_ruleAt_eq_none (hp : p.WellFormed) (hr : p.Room low high)
    (hconf : p.Confined low high N) (hc : p.after N = some c) (hnone : p.ruleAt c = none)
    (hn : n ≤ N) : ¬ p.RepeatsAt n := by
  rintro ⟨-, m, a, b, -, hmn, ha, hb, hab⟩
  have hideal {i : Nat} {x : Configuration} (hi : i ≤ N) (hx : p.after i = some x) :
      p.idealAfter i = some x.ideal := by
    rw [← ideal_after hp hr (hconf.mono hi), hx]
    rfl
  have ha' := hideal (by omega) ha
  rw [Configuration.looksLike_iff.mp hab] at ha'
  obtain ⟨i, hi, hend⟩ := exists_idealAfter_eq ha' (hideal hn hb) hmn (N + 1)
  obtain ⟨x, hx⟩ := exists_after hb hi.le
  rw [hideal (by omega) hx, idealAfter, hideal le_rfl hc, Option.bind_some, idealNext?,
    ← ruleAt_ideal, hnone] at hend
  cases hend

/-- Before the end of a course without a repeat, and before the budget, there is no reason to
stop. -/
theorem not_stopsAt_of_lt (hc : p.after N = some c) (hr : ∀ k ≤ N, ¬ p.RepeatsAt k)
    (hN : N ≤ p.maxSteps) (hn : n < N) : ¬ p.StopsAt n := by
  rintro ⟨a, ha, hrepeat | hlimit | hnone⟩
  · exact hr n hn.le hrepeat
  · omega
  · exact ruleAt_ne_none ha (exists_after hc hn) hnone

end Program

namespace Machine

variable {p : Program} {m : Machine} {c : Configuration} {reason : HaltReason} {n N : Nat}

/-- A run whose budget goes beyond the end of the course stops at the end. -/
theorem Stopped.eq_end (h : m.Stopped p n reason) (hc : p.after N = some c)
    (hnone : p.ruleAt c = none) (hr : ∀ k ≤ N, ¬ p.RepeatsAt k) (hN : N < p.maxSteps) :
    n = N ∧ m.configuration = c ∧
      reason = if c.state ∈ p.finals then .accepted else .rejected := by
  have hle : n ≤ N := h.isLeast.2 ⟨c, hc, .inr (.inr hnone)⟩
  have hge : ¬ n < N := fun hlt => Program.not_stopsAt_of_lt hc hr hN.le hlt h.stopsAt
  obtain rfl : n = N := by omega
  obtain rfl : m.configuration = c := Option.some.inj (h.after_eq ▸ hc)
  exact ⟨rfl, rfl, h.haltsFor.verdict (hr n le_rfl) (by omega)⟩

/-- A run whose budget does not go beyond the end of the course uses it up. -/
theorem Stopped.eq_budget (h : m.Stopped p n reason) (hc : p.after N = some c)
    (hr : ∀ k ≤ N, ¬ p.RepeatsAt k) (hN : p.maxSteps ≤ N) :
    n = p.maxSteps ∧ reason = .stepLimit := by
  obtain ⟨a, ha⟩ := Program.exists_after hc hN
  have hr' : ∀ k ≤ p.maxSteps, ¬ p.RepeatsAt k := fun k hk => hr k (hk.trans hN)
  have hle : n ≤ p.maxSteps := h.isLeast.2 ⟨a, ha, .inr (.inl rfl)⟩
  have hge : ¬ n < p.maxSteps := fun hlt =>
    Program.not_stopsAt_of_lt ha hr' le_rfl hlt h.stopsAt
  obtain rfl : n = p.maxSteps := by omega
  exact ⟨rfl, h.haltsFor.limit (hr' _ le_rfl) rfl⟩

/-- A run that accepts or rejects does so where no rule matches, within its budget. -/
theorem Stopped.ruleAt_eq_none (h : m.Stopped p n reason)
    (hreason : reason = .accepted ∨ reason = .rejected) :
    p.ruleAt m.configuration = none ∧ n < p.maxSteps := by
  have hrepeat : ¬ p.RepeatsAt n := fun hr => by
    rcases hreason with rfl | rfl <;> cases h.haltsFor.loop hr
  have hlimit : n ≠ p.maxSteps := fun hn => by
    rcases hreason with rfl | rfl <;> cases h.haltsFor.limit hrepeat hn
  have hle : n ≤ p.maxSteps := h.steps_eq ▸ h.steps_le
  obtain ⟨c, hc, hr | hn | hnone⟩ := h.stopsAt
  · exact absurd hr hrepeat
  · exact absurd hn hlimit
  · obtain rfl : m.configuration = c := Option.some.inj (h.after_eq ▸ hc)
    exact ⟨hnone, by omega⟩

/-! ### Two runs of one program -/

variable {m₁ m₂ : Machine} {r₁ r₂ : HaltReason} {n₁ n₂ M M₁ M₂ : Nat} {d d₁ d₂ : Bool}

theorem exists_execute_withControls (hp : p.WellFormed)
    (hlen : ∀ w ∈ p.tapes, w.length < 1099511627776) (hM : 1 ≤ M) (hM' : M ≤ 1099511627776)
    (d : Bool) : ∃ (m₀ m : Machine) (n : Nat) (reason : HaltReason),
      ofProgram (p.withControls M d) = .ok m₀ ∧
      m₀.execute = .ok ⟨reason, m.configuration, n, m.trace⟩ ∧
      m.Stopped (p.withControls M d) n reason := by
  have hwf := hp.withControls hM d
  have hmodest : (p.withControls M d).Modest := ⟨hM', hlen⟩
  obtain ⟨m₀, m, n, reason, hm₀, hrun, hs⟩ :=
    exists_stopped hwf (Program.neverBreaks_of_modest hwf hmodest hM')
  exact ⟨m₀, m, n, reason, hm₀, by rw [execute_of_run hrun, hs.steps_eq], hs⟩

/-- The run that makes fewer steps has a part of the trace of the other one. -/
theorem Stopped.trace_prefix (h₁ : m₁.Stopped (p.withControls M₁ d₁) n₁ r₁)
    (h₂ : m₂.Stopped (p.withControls M₂ d₂) n₂ r₂) (hle : n₁ ≤ n₂) :
    m₁.trace.toList <+: m₂.trace.toList := by
  rw [h₁.trace_eq, h₂.trace_eq, Program.entries_withControls, Program.entries_withControls]
  exact Program.entries_prefix p hle

/-- A run that accepts or rejects is that of every greater budget, and a budget up to its steps is
used up. -/
theorem Stopped.of_verdict (hp : p.WellFormed)
    (hlen : ∀ w ∈ p.tapes, w.length < 1099511627776) (hM₁ : M₁ ≤ 1099511627776) (hM₂ : 1 ≤ M₂)
    (h₁ : m₁.Stopped (p.withControls M₁ d₁) n₁ r₁) (h₂ : m₂.Stopped (p.withControls M₂ d₂) n₂ r₂)
    (hreason : r₁ = .accepted ∨ r₁ = .rejected) :
    (n₁ < M₂ → n₂ = n₁ ∧ r₂ = r₁ ∧ m₂.configuration = m₁.configuration ∧ m₂.trace = m₁.trace) ∧
      (M₂ ≤ n₁ → n₂ = M₂ ∧ r₂ = .stepLimit) := by
  obtain ⟨hnone, hlt⟩ := h₁.ruleAt_eq_none hreason
  have hwf := hp.withControls hM₂ d₂
  have hroom := Program.room_of_modest (p := p.withControls M₁ d₁) ⟨hM₁, hlen⟩
  have hafter : (p.withControls M₂ d₂).after n₁ = some m₁.configuration := by
    rw [Program.after_withControls, ← Program.after_withControls p M₁ d₁, h₁.after_eq]
  have hconf := Program.confined_of_modest (hp.withControls (Nat.zero_lt_of_lt hlt) d₁) ⟨hM₁, hlen⟩
    (hlt.le.trans hM₁)
  have hrepeat : ∀ k ≤ n₁, ¬ (p.withControls M₂ d₂).RepeatsAt k := fun k hk =>
    Program.not_repeatsAt_of_ruleAt_eq_none hwf (hroom.withControls M₂ d₂)
      (hconf.withControls M₂ d₂) hafter hnone hk
  refine ⟨fun hM => ?_, fun hM => h₂.eq_budget hafter hrepeat hM⟩
  obtain ⟨hn, hc, hr⟩ := h₂.eq_end hafter hnone hrepeat hM
  have hr₁ := h₁.haltsFor.verdict
    (fun hr => by rcases hreason with rfl | rfl <;> cases h₁.haltsFor.loop hr) hlt.ne
  refine ⟨hn, hr.trans hr₁.symm, hc, ?_⟩
  apply Array.toList_inj.mp
  rw [h₁.trace_eq, h₂.trace_eq, hn, Program.entries_withControls, Program.entries_withControls]

/-- A run that looks for loops stops no later than one with the same budget that may not. -/
theorem Stopped.le_of_detectLoops (h₁ : m₁.Stopped (p.withControls M true) n₁ r₁)
    (h₂ : m₂.Stopped (p.withControls M d) n₂ r₂) : n₁ ≤ n₂ := by
  apply h₁.isLeast.2
  obtain ⟨c, hc, ⟨-, k, a, b, h₁, hk, ha, hb, hab⟩ | hlimit | hnone⟩ := h₂.stopsAt
  · rw [Program.after_withControls] at hc ha hb
    refine ⟨c, by rwa [Program.after_withControls], .inl ⟨rfl, k, a, b, h₁, hk, ?_, ?_, hab⟩⟩
    · rwa [Program.after_withControls]
    · rwa [Program.after_withControls]
  · rw [Program.after_withControls] at hc
    exact ⟨c, by rwa [Program.after_withControls], .inr (.inl hlimit)⟩
  · rw [Program.after_withControls] at hc
    exact ⟨c, by rwa [Program.after_withControls], .inr (.inr hnone)⟩

/-- **Run controls never change the computation.**  Of two runs of a program without defects, under
any two budgets and with or without a look for loops, one has a part of the trace of the other.  If
the first one accepts or rejects, the second one is the same run when its budget is greater than the
number of steps, and otherwise uses its budget up.  With the same budget, the look for loops never
makes a run longer. -/
theorem execute_withControls (p : Program) (hp : p.check = .ok ())
    (hlen : ∀ w ∈ p.tapes, w.length < 1099511627776) (M₁ M₂ : Nat) (d₁ d₂ : Bool)
    (hM₁ : 1 ≤ M₁ ∧ M₁ ≤ 1099511627776) (hM₂ : 1 ≤ M₂ ∧ M₂ ≤ 1099511627776) :
    ∃ m₁ e₁ m₂ e₂, ofProgram (p.withControls M₁ d₁) = .ok m₁ ∧ m₁.execute = .ok e₁ ∧
      ofProgram (p.withControls M₂ d₂) = .ok m₂ ∧ m₂.execute = .ok e₂ ∧
      (e₁.trace.toList <+: e₂.trace.toList ∨ e₂.trace.toList <+: e₁.trace.toList) ∧
      (e₁.halt = .accepted ∨ e₁.halt = .rejected →
        (e₁.totalSteps < M₂ → e₂ = e₁) ∧
        (M₂ ≤ e₁.totalSteps → e₂.halt = .stepLimit ∧ e₂.totalSteps = M₂)) ∧
      (M₁ = M₂ → d₁ = true → e₁.totalSteps ≤ e₂.totalSteps) := by
  have hwf := Program.check_eq_ok_iff.mp hp
  obtain ⟨m₁, m₁', n₁, r₁, hm₁, he₁, hs₁⟩ :=
    exists_execute_withControls hwf hlen hM₁.1 hM₁.2 d₁
  obtain ⟨m₂, m₂', n₂, r₂, hm₂, he₂, hs₂⟩ :=
    exists_execute_withControls hwf hlen hM₂.1 hM₂.2 d₂
  refine ⟨m₁, _, m₂, _, hm₁, he₁, hm₂, he₂, ?_, fun hreason => ?_, ?_⟩
  · rcases Nat.le_total n₁ n₂ with hle | hle
    · exact .inl (hs₁.trace_prefix hs₂ hle)
    · exact .inr (hs₂.trace_prefix hs₁ hle)
  · obtain ⟨hwithin, hbeyond⟩ := Stopped.of_verdict hwf hlen hM₁.2 hM₂.1 hs₁ hs₂ hreason
    refine ⟨fun hlt => ?_, fun hle => ?_⟩
    · obtain ⟨rfl, rfl, hc, ht⟩ := hwithin hlt
      rw [hc, ht]
    · obtain ⟨hn, hr⟩ := hbeyond hle
      exact ⟨hr, hn⟩
  · rintro rfl rfl
    exact hs₁.le_of_detectLoops hs₂

/-- A budget of seven steps changes nothing about the three steps of `carry`, and one of three steps
is used up. -/
theorem execute_withControls_carry : carry.check = .ok () ∧
    (∀ w ∈ carry.tapes, w.length < 1099511627776) ∧
    (1 ≤ carry.maxSteps ∧ carry.maxSteps ≤ 1099511627776) ∧ (1 ≤ 7 ∧ 7 ≤ 1099511627776) ∧
    (1 ≤ 3 ∧ 3 ≤ 1099511627776) ∧
    ∃ m₁ e₁ m₂ m₃ e₃, ofProgram carry = .ok m₁ ∧ m₁.execute = .ok e₁ ∧ e₁.halt = .accepted ∧
      e₁.totalSteps = 3 ∧ ofProgram (carry.withControls 7 false) = .ok m₂ ∧ m₂.execute = .ok e₁ ∧
      ofProgram (carry.withControls 3 false) = .ok m₃ ∧ m₃.execute = .ok e₃ ∧
      e₃.halt = .stepLimit ∧ e₃.totalSteps = 3 := by
  have hlen := carry_modest.length_lt
  obtain ⟨m₁, e₁, m₂, e₂, hm₁, he₁, hm₂, he₂, -, h₂, -⟩ :=
    execute_withControls carry rfl hlen 10 7 true false (by decide) (by decide)
  obtain ⟨m₁', e₁', m₃, e₃, hm₁', he₁', hm₃, he₃, -, h₃, -⟩ :=
    execute_withControls carry rfl hlen 10 3 true false (by decide) (by decide)
  obtain rfl := Except.ok.inj ((execute_carry hm₁).symm.trans he₁)
  obtain rfl := Except.ok.inj ((execute_carry hm₁').symm.trans he₁')
  obtain rfl := (h₂ (.inl rfl)).1 (show 3 < 7 by decide)
  obtain ⟨hlimit, hsteps⟩ := (h₃ (.inl rfl)).2 le_rfl
  exact ⟨rfl, hlen, by decide, by decide, by decide, m₁, _, m₂, m₃, e₃, hm₁, he₁, rfl, rfl, hm₂,
    he₂, hm₃, he₃, hlimit, hsteps⟩

end Machine

end TapeMachine
