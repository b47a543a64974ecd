import TapeMachine.CommandLine.Session
import TapeMachine.Proofs.Machine.Halting
import TapeMachine.Proofs.Machine.Stepping

/-!
# Command line — Timed runs

A session that has a timeout makes the steps of a run one by one, and looks at the clock after each
step after which the run goes on.  All that the clock can do to the run is to end it: unless one of
the looks is late (`CommandLine.overdue`), the session comes to the execution that it comes to
without a timeout (`Machine.execute_after_steps`).
-/

namespace TapeMachine

namespace CommandLine

/-- Looks at the clock so many times, once a step, until the time is up; gives the number of steps
made when it is.  `done` steps are made before. -/
def overdue {μ : Type → Type} [Monad μ] (elapsed : μ Nat) (timeout : Nat) (done : Nat) :
    (looks : Nat) → μ (Option Nat)
  | 0 => return none
  | looks + 1 => do
    let time ← elapsed
    if timeout ≤ time then return some (done + 1) else overdue elapsed timeout (done + 1) looks

/-- The end of a run that is timed: that of the run, unless the time is up after some step. -/
def timely (timeout : Nat) (p : Program) {α : Type} (a : α) : Option Nat → Except Trouble α
  | none => .ok a
  | some k => .error (.timedOut timeout k ((p.after k).elim p.initial (·.state)))

end CommandLine

open CommandLine

namespace Machine

variable {p : Program} {m m' : Machine} {reason : HaltReason} {n : Nat}

theorem runTimed_of_halts {μ : Type → Type} [Monad μ] (elapsed : μ Nat) (timeout : Nat)
    (h : m.step = .ok (m', .halts reason)) : runTimed elapsed timeout m = pure (.ok m') := by
  rw [runTimed]
  split <;> simp_all

theorem runTimed_of_continues {μ : Type → Type} [Monad μ] (elapsed : μ Nat) (timeout : Nat)
    (h : m.step = .ok (m', .continues)) :
    runTimed elapsed timeout m = elapsed >>= fun time =>
      if timeout ≤ time then
        pure (.error (.timedOut timeout m'.steps m'.configuration.state))
      else runTimed elapsed timeout m' := by
  rw [runTimed]
  split <;> simp_all

/-- **A timed run** is the run, watched by so many looks at the clock. -/
theorem Live.exists_runTimed (h : m.Live p n) (hb : p.NeverBreaks p.maxSteps) :
    ∃ m' N reason looks, m.run = .ok (m', reason) ∧ m'.Stopped p N reason ∧ n + looks ≤ N ∧
      ∀ {μ : Type → Type} [Monad μ] [LawfulMonad μ] (elapsed : μ Nat) (timeout : Nat),
        runTimed elapsed timeout m = timely timeout p m' <$> overdue elapsed timeout n looks := by
  -- The budget that is left goes down with each step after which the run goes on.
  induction hk : p.maxSteps - n generalizing m n with
  | zero =>
      rcases h.step hb with ⟨m', -, hlive⟩ | ⟨m', N, reason, hm', hN, hs⟩
      · have := hlive.le_maxSteps
        omega
      · refine ⟨m', N, reason, 0, run_of_halts hm', hs, hN, fun elapsed timeout => ?_⟩
        rw [runTimed_of_halts elapsed timeout hm', overdue, map_pure]
        rfl
  | succ k ih =>
      rcases h.step hb with ⟨m₁, hm₁, hlive⟩ | ⟨m', N, reason, hm', hN, hs⟩
      · obtain ⟨m', N, reason, looks, hrun, hs, hN, htimed⟩ := ih hlive (by omega)
        refine ⟨m', N, reason, looks + 1, (run_of_continues hm₁).trans hrun, hs, by omega,
          fun elapsed timeout => ?_⟩
        rw [runTimed_of_continues elapsed timeout hm₁, overdue, map_bind]
        refine bind_congr fun time => ?_
        split
        · rw [map_pure, timely, hlive.steps_eq, hlive.after_eq]
          rfl
        · exact htimed elapsed timeout
      · refine ⟨m', N, reason, 0, run_of_halts hm', hs, hN, fun elapsed timeout => ?_⟩
        rw [runTimed_of_halts elapsed timeout hm', overdue, map_pure]
        rfl

end Machine

namespace CommandLine

variable {p : Program} {m₀ m : Machine} {e : Execution} {o : Options} {timeout looks : Nat}
  {μ : Type → Type} [Monad μ] [LawfulMonad μ]

/-- A clock that stands still is never late. -/
theorem overdue_of_lt {time done : Nat} (h : time < timeout) :
    overdue (pure time : μ Nat) timeout done looks = pure none := by
  induction looks generalizing done with
  | zero => rfl
  | succ looks ih => rw [overdue, pure_bind, if_neg (Nat.not_le.2 h), ih]

theorem timely_bind {α β : Type} {f : α → Except Trouble β} {a : α} {b : β} (h : f a = .ok b)
    (late : Option Nat) : (timely timeout p a late).bind f = timely timeout p b late := by
  cases late with
  | none => exact h
  | some k => rfl

/-- Without a timeout a program is executed. -/
theorem runProgram_of_untimed (host : Host μ) (hm₀ : Machine.ofProgram p = .ok m₀)
    (ho : o.timeout = none) (he : m₀.execute = .ok e) : runProgram host o p = pure (.ok e) := by
  rw [runProgram, hm₀, ho]
  simp only [pure_bind, Except.bind, he, Except.mapError]

/-- With a timeout a program is executed as well, if no look at the clock is late. -/
theorem runProgram_of_timed (host : Host μ) (hm₀ : Machine.ofProgram p = .ok m₀)
    (ho : o.timeout = some timeout)
    (htimed : ∀ elapsed : μ Nat,
      runTimed elapsed timeout m₀ = timely timeout p m <$> overdue elapsed timeout 0 looks)
    (he : m.execute = .ok e) :
    runProgram host o p = host.clock >>= fun start =>
      timely timeout p e <$> overdue ((· - start) <$> host.clock) timeout 0 looks := by
  rw [runProgram, hm₀, ho]
  have hbind (late : Option Nat) : (timely timeout p m late).bind
      (fun m => m.execute.mapError Trouble.breakdown) = timely timeout p e late :=
    timely_bind (by rw [he]; rfl) late
  simp only [htimed, bind_pure_comp, Functor.map_map, hbind]

end CommandLine

namespace Machine

/-- **Stepping and running agree.**  A program without defects has a machine, and an execution.
After any number of calls of `step`, a run or an execution gives what the execution of the new
machine gives.  A session that runs the program comes to this execution, and if it has a timeout,
then unless a look at the clock after one of the steps is late.  After any calls the rule that the
machine finds is the first one of the program that matches, and a machine that has neither halted
nor used up its budget heeds it. -/
theorem execute_after_steps (p : Program) (hp : p.check = .ok ()) (hm : p.Modest) :
    ∃ m₀ e, ofProgram p = .ok m₀ ∧ m₀.execute = .ok e ∧
      (∀ n, ∃ m outcome m', stepMany n m₀ = .ok (m, outcome) ∧ m.execute = .ok e ∧
        m.run = .ok (m', e.halt) ∧ m'.configuration = e.configuration ∧
        m'.steps = e.totalSteps ∧ m'.trace = e.trace) ∧
      (∀ {μ : Type → Type} [Monad μ] [LawfulMonad μ] (host : Host μ) (o : Options),
        o.timeout = none → runProgram host o p = pure (.ok e)) ∧
      (∃ looks ≤ e.totalSteps, ∀ {μ : Type → Type} [Monad μ] [LawfulMonad μ] (host : Host μ)
        (o : Options) (timeout : Nat), o.timeout = some timeout →
          runProgram host o p = host.clock >>= fun start =>
            timely timeout p e <$> overdue ((· - start) <$> host.clock) timeout 0 looks) ∧
      ∀ cs, ∃ m m' outcome, m₀.calls cs = .ok m ∧ m.step = .ok (m', outcome) ∧
        m.transition = p.ruleAt m.configuration ∧
        (m.halted = none → m.steps < p.maxSteps → m.Heeds m' outcome) := by
  have hwf := Program.check_eq_ok_iff.mp hp
  have hb := Program.neverBreaks_of_modest hwf hm hm.maxSteps_le
  obtain ⟨m₀, hm₀, hlive⟩ := exists_ofProgram hwf
  obtain ⟨m', N, reason, looks, hrun, hs, hlooks, htimed⟩ := hlive.exists_runTimed hb
  have he := execute_of_run hrun
  refine ⟨m₀, _, hm₀, he, fun n => ?_, fun host o ho => runProgram_of_untimed host hm₀ ho he,
    ⟨looks, ?_, fun host o timeout ho => ?_⟩, fun cs => ?_⟩
  · obtain ⟨m, outcome, hmany, -⟩ := hlive.exists_stepMany hb n
    have hm := (run_stepMany hmany).trans hrun
    exact ⟨m, outcome, m', hmany, execute_of_run hm, hm, rfl, rfl, rfl⟩
  · change looks ≤ m'.steps
    rw [hs.steps_eq]
    omega
  · have hend : m'.execute = .ok ⟨reason, m'.configuration, m'.steps, m'.trace⟩ :=
      execute_of_run (run_of_halts hs.step)
    exact runProgram_of_timed host hm₀ ho (fun elapsed => htimed elapsed timeout) hend
  · obtain ⟨m, hcalls, h⟩ := OnCourse.exists_calls (.inl ⟨0, hlive⟩) hb cs
    obtain ⟨m₁, outcome, hstep, -⟩ := h.exists_step hb
    refine ⟨m, m₁, outcome, hcalls, hstep, h.along.transition_eq,
      fun hh hlt => heeds_of_step hh ?_ hstep⟩
    rwa [h.along.program_eq]

/-- The run of `blink` stops at a loop after three steps, also after two calls of `step`, and with
a timeout if the clock stands still.  Its first step writes a symbol. -/
theorem execute_after_steps_blink : blink.check = .ok () ∧ blink.Modest ∧
    ∃ m₀ e, ofProgram blink = .ok m₀ ∧ m₀.execute = .ok e ∧ e.halt = .loopDetected ∧
      e.totalSteps = 3 ∧
      (∃ m outcome m', stepMany 2 m₀ = .ok (m, outcome) ∧ m.execute = .ok e ∧
        m.run = .ok (m', .loopDetected) ∧ m'.steps = 3 ∧ m'.trace = e.trace) ∧
      (∀ read, runProgram (μ := Id) ⟨read, 7⟩ {} blink = .ok e ∧
        runProgram (μ := Id) ⟨read, 7⟩ { timeout := some 1 } blink = .ok e) ∧
      ∃ m' outcome, m₀.step = .ok (m', outcome) ∧ m₀.transition = blink.rules[0]? ∧
        m'.configuration = ⟨"on", [⟨⟨['x'], -3, '_'⟩, -3⟩]⟩ ∧ m'.steps = 1 := by
  obtain ⟨m₀, e, hm₀, he, hsteps, huntimed, ⟨looks, -, htimed⟩, hheeds⟩ :=
    execute_after_steps blink rfl blink_modest
  have hlive := live_of_ofProgram blink_wellFormed hm₀
  obtain ⟨m, hrun, hs, -⟩ := exists_run_blink hm₀
  obtain rfl := Except.ok.inj ((execute_of_run hrun).symm.trans he)
  refine ⟨rfl, blink_modest, m₀, _, hm₀, he, rfl, hs.steps_eq, ?_,
    fun read => ⟨huntimed _ _ rfl, ?_⟩, ?_⟩
  · obtain ⟨m', outcome, m'', hmany, he', hrun', -, hsteps', htrace⟩ := hsteps 2
    exact ⟨m', outcome, m'', hmany, he', hrun', hsteps'.trans hs.steps_eq, htrace⟩
  · refine (htimed _ _ 1 rfl).trans ?_
    have hnone : overdue (μ := Id) (pure 0) 1 0 looks = pure none :=
      overdue_of_lt Nat.zero_lt_one
    exact congrArg (timely 1 blink _) hnone
  · obtain ⟨m₁, m', outcome, hm₁, hstep, hrule, hheed⟩ := hheeds []
    cases hm₁
    have hstart := Option.some.inj hlive.after_eq
    rw [← hstart] at hrule
    have hlt : m₀.steps < blink.maxSteps := by
      rw [hlive.steps_eq]
      decide
    obtain ⟨happly, hone, -⟩ := (hheed hlive.halted_eq hlt).applies _ hrule
    rw [← hstart] at happly
    rw [hlive.steps_eq] at hone
    exact ⟨m', outcome, hstep, hrule, (Except.ok.inj happly).symm, hone⟩

end Machine

end TapeMachine
