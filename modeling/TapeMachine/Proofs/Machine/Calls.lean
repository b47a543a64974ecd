import TapeMachine.Proofs.Machine.Run

/-!
# Machine — Calls

What a host does with a machine: it lets it make a step, lets it run, and takes it back to the
start, in any order (`Call`).

* `Machine.stepped_of_step`: one call of `step` does one of six things.
* `Machine.run_induction`, `Machine.calls_induction`: what a step keeps, a run keeps, and what a
  reset keeps as well, all calls keep.
* `Machine.OnCourse.exists_calls`: no call breaks down, and after any calls the machine is along the
  course of its program, either live or stopped.
-/

namespace TapeMachine

/-- What a host can ask of a machine. -/
inductive Call where
  | step
  | run
  | reset
  deriving DecidableEq, Repr

namespace Machine

/-- The machine after a call. -/
def call (m : Machine) : Call → Except Breakdown Machine
  | .step => m.step.map Prod.fst
  | .run => m.run.map Prod.fst
  | .reset => .ok m.reset

/-- The machine after calls, one after the other. -/
def calls (m : Machine) (cs : List Call) : Except Breakdown Machine := cs.foldlM call m

theorem calls_run {m m' : Machine} {reason : HaltReason} (h : m.run = .ok (m', reason)) :
    m.calls [.run] = .ok m' := by
  rw [calls, List.foldlM_cons, call, h]
  rfl

/-! ### The ways of a step -/

/-- The machine with one more step made and recorded, by a rule that came to a configuration. -/
def advance (m : Machine) (r : Rule) (c : Configuration) : Machine :=
  { m with
    configuration := c
    trace := m.trace.push (.capture m.steps m.configuration r)
    steps := m.steps + 1 }

/-- What a call of `step` can do to a machine. -/
inductive Stepped (m : Machine) : Machine → Outcome → Prop where
  | rests {reason} (hh : m.halted = some reason) : Stepped m m (.halts reason)
  | limit (hh : m.halted = none) (hs : m.program.maxSteps ≤ m.steps) :
      Stepped m { m with halted := some .stepLimit } (.halts .stepLimit)
  | verdict (hh : m.halted = none) (hs : m.steps < m.program.maxSteps) (ht : m.transition = none) :
      Stepped m { m with halted := some m.verdict } (.halts m.verdict)
  | unwatched {r c} (hh : m.halted = none) (hs : m.steps < m.program.maxSteps)
      (ht : m.transition = some r) (hc : m.configuration.apply r = .ok c)
      (hl : m.program.detectLoops = false) : Stepped m (m.advance r c) .continues
  | fresh {r c} (hh : m.halted = none) (hs : m.steps < m.program.maxSteps)
      (ht : m.transition = some r) (hc : m.configuration.apply r = .ok c)
      (hl : m.program.detectLoops = true) (hd : m.detector.contains c = false) :
      Stepped m { m.advance r c with detector := (m.detector.observe c).2 } .continues
  | seen {r c} (hh : m.halted = none) (hs : m.steps < m.program.maxSteps)
      (ht : m.transition = some r) (hc : m.configuration.apply r = .ok c)
      (hl : m.program.detectLoops = true) (hd : m.detector.contains c = true) :
      Stepped m
        { m.advance r c with
          detector := (m.detector.observe c).2
          halted := some .loopDetected }
        (.halts .loopDetected)

variable {p : Program} {m m' : Machine} {c : Configuration} {r : Rule} {reason : HaltReason}
  {outcome : Outcome}

theorem Stepped.of_watch (hh : m.halted = none) (hs : m.steps < m.program.maxSteps)
    (ht : m.transition = some r) (hc : m.configuration.apply r = .ok c)
    (h : (m.advance r c).watch = (m', outcome)) : m.Stepped m' outcome := by
  have hprogram : (m.advance r c).program = m.program := rfl
  cases hl : m.program.detectLoops with
  | false =>
      rw [watch, hprogram, hl] at h
      cases h
      exact .unwatched hh hs ht hc hl
  | true =>
      rw [watch, hprogram, hl] at h
      cases hd : m.detector.contains c with
      | false =>
          simp only [LoopDetector.observe, advance, hd] at h
          cases h
          exact .fresh hh hs ht hc hl hd
      | true =>
          simp only [LoopDetector.observe, advance, hd] at h
          cases h
          exact .seen hh hs ht hc hl hd

theorem stepped_of_step (h : m.step = .ok (m', outcome)) : m.Stepped m' outcome := by
  cases hh : m.halted with
  | some reason =>
      simp only [step, hh] at h
      cases h
      exact .rests hh
  | none =>
      simp only [step, hh] at h
      by_cases hs : m.program.maxSteps ≤ m.steps
      · rw [if_pos hs] at h
        cases h
        exact .limit hh hs
      · rw [if_neg hs] at h
        have hs : m.steps < m.program.maxSteps := not_le.mp hs
        cases ht : m.transition with
        | none =>
            rw [ht] at h
            cases h
            exact .verdict hh hs ht
        | some r =>
            rw [ht] at h
            obtain ⟨m₁, hr, hw⟩ := map_eq_ok_iff.1 h
            obtain ⟨c, hc, rfl⟩ := map_eq_ok_iff.1 hr
            exact .of_watch hh hs ht hc hw

/-! ### What calls keep -/

/-- What a step keeps, a run keeps. -/
theorem run_induction {I : Machine → Prop}
    (hstep : ∀ m m' outcome, I m → m.step = .ok (m', outcome) → I m')
    (h : m.run = .ok (m', reason)) (hm : I m) : I m' := by
  fun_induction run m with
  | case1 m e hs => cases h
  | case2 m m₁ reason₁ hs =>
      cases h
      exact hstep m m' _ hm hs
  | case3 m m₁ hs ih => exact ih h (hstep m m₁ _ hm hs)

/-- What a step and a reset keep, a call keeps. -/
theorem call_induction {I : Machine → Prop}
    (hstep : ∀ m m' outcome, I m → m.step = .ok (m', outcome) → I m')
    (hreset : ∀ m, I m → I m.reset) {c : Call} (h : m.call c = .ok m') (hm : I m) : I m' := by
  cases c with
  | step =>
      obtain ⟨⟨m₁, outcome⟩, hs, rfl⟩ := map_eq_ok_iff.1 h
      exact hstep m m₁ outcome hm hs
  | run =>
      obtain ⟨⟨m₁, reason⟩, hr, rfl⟩ := map_eq_ok_iff.1 h
      exact run_induction hstep hr hm
  | reset =>
      cases h
      exact hreset m hm

theorem calls_induction {I : Machine → Prop}
    (hstep : ∀ m m' outcome, I m → m.step = .ok (m', outcome) → I m')
    (hreset : ∀ m, I m → I m.reset) {cs : List Call} (h : m.calls cs = .ok m') (hm : I m) :
    I m' := by
  induction cs generalizing m with
  | nil =>
      cases h
      exact hm
  | cons c cs ih =>
      rw [calls, List.foldlM_cons] at h
      obtain ⟨m₁, hc, h⟩ := bind_eq_ok_iff.1 h
      exact ih h (call_induction hstep hreset hc hm)

/-- The machine is along the course of a program, and is live or has stopped. -/
def OnCourse (p : Program) (m : Machine) : Prop :=
  (∃ n, m.Live p n) ∨ ∃ n reason, m.Stopped p n reason

theorem OnCourse.along (h : m.OnCourse p) : m.Along p m.steps := by
  rcases h with ⟨n, hl⟩ | ⟨n, reason, hs⟩
  · exact hl.steps_eq ▸ hl.toAlong
  · exact hs.steps_eq ▸ hs.toAlong

theorem OnCourse.steps_le (h : m.OnCourse p) : m.steps ≤ p.maxSteps := by
  rcases h with ⟨n, hl⟩ | ⟨n, reason, hs⟩
  · exact hl.steps_le
  · exact hs.steps_le

/-- A machine that has a reason to have halted has stopped for it. -/
theorem OnCourse.stopped (h : m.OnCourse p) (hh : m.halted = some reason) :
    m.Stopped p m.steps reason := by
  rcases h with ⟨n, hl⟩ | ⟨n, reason', hs⟩
  · rw [hl.halted_eq] at hh
    cases hh
  · obtain rfl : reason' = reason := Option.some.inj (hs.halted_eq ▸ hh)
    exact hs.steps_eq ▸ hs

theorem OnCourse.exists_step (h : m.OnCourse p) (hb : p.NeverBreaks p.maxSteps) :
    ∃ m' outcome, m.step = .ok (m', outcome) ∧ m'.OnCourse p := by
  rcases h with ⟨n, hl⟩ | ⟨n, reason, hs⟩
  · rcases hl.step hb with ⟨m', hm', hl'⟩ | ⟨m', N, reason, hm', -, hs'⟩
    · exact ⟨m', _, hm', .inl ⟨_, hl'⟩⟩
    · exact ⟨m', _, hm', .inr ⟨N, reason, hs'⟩⟩
  · exact ⟨m, _, hs.step, .inr ⟨n, reason, hs⟩⟩

theorem OnCourse.of_step (h : m.OnCourse p) (hb : p.NeverBreaks p.maxSteps)
    (hs : m.step = .ok (m', outcome)) : m'.OnCourse p := by
  obtain ⟨m'', outcome', hs', h'⟩ := h.exists_step hb
  rw [hs] at hs'
  cases hs'
  exact h'

theorem OnCourse.exists_run (h : m.OnCourse p) (hb : p.NeverBreaks p.maxSteps) :
    ∃ m' reason, m.run = .ok (m', reason) ∧ m'.OnCourse p := by
  rcases h with ⟨n, hl⟩ | ⟨n, reason, hs⟩
  · obtain ⟨m', N, reason, hm', hs'⟩ := hl.exists_run hb
    exact ⟨m', reason, hm', .inr ⟨N, reason, hs'⟩⟩
  · exact ⟨m, reason, run_of_halts hs.step, .inr ⟨n, reason, hs⟩⟩

theorem OnCourse.reset (h : m.OnCourse p) : m.reset.OnCourse p := by
  obtain rfl := h.along.program_eq
  exact .inl ⟨0, live_start h.along.lookup_eq⟩

theorem OnCourse.exists_call (h : m.OnCourse p) (hb : p.NeverBreaks p.maxSteps) (c : Call) :
    ∃ m', m.call c = .ok m' ∧ m'.OnCourse p := by
  cases c with
  | step =>
      obtain ⟨m', outcome, hs, h'⟩ := h.exists_step hb
      exact ⟨m', by rw [call, hs]; rfl, h'⟩
  | run =>
      obtain ⟨m', reason, hr, h'⟩ := h.exists_run hb
      exact ⟨m', by rw [call, hr]; rfl, h'⟩
  | reset => exact ⟨m.reset, rfl, h.reset⟩

/-- **No call breaks a machine.** -/
theorem OnCourse.exists_calls (h : m.OnCourse p) (hb : p.NeverBreaks p.maxSteps) (cs : List Call) :
    ∃ m', m.calls cs = .ok m' ∧ m'.OnCourse p := by
  induction cs generalizing m with
  | nil => exact ⟨m, rfl, h⟩
  | cons c cs ih =>
      obtain ⟨m₁, hc, h₁⟩ := h.exists_call hb c
      obtain ⟨m', hcs, h'⟩ := ih h₁
      exact ⟨m', by rw [calls, List.foldlM_cons, hc]; exact hcs, h'⟩

end Machine

end TapeMachine
