import TapeMachine.Proofs.Machine.Halting
import TapeMachine.Proofs.Machine.Calls

/-!
# Machine — Reset

A reset is a fresh start (`Machine.reset_restarts`): after any calls it takes a machine back to the
machine of its program, all of it, and not only to the configuration that the program starts with.
So what comes of further calls is what comes of them on a new machine (`Machine.results`).

What a reset goes back to depends on the program and the rule table alone, and no call changes these
(`Machine.reset_of_calls`).
-/

namespace TapeMachine

namespace Machine

/-- What a call comes to: the outcome of a step, the reason for which a run stops, or nothing. -/
def result (m : Machine) : Call → Except Breakdown (Option Outcome)
  | .step => m.step.map fun x => some x.2
  | .run => m.run.map fun x => some (.halts x.2)
  | .reset => .ok none

/-- What calls come to, one after the other, each with the machine that it leaves. -/
def results (m : Machine) : List Call → Except Breakdown (List (Option Outcome × Machine))
  | [] => .ok []
  | c :: cs => do
    let answer ← m.result c
    let next ← m.call c
    let rest ← next.results cs
    return (answer, next) :: rest

variable {p : Program} {m m' : Machine} {outcome : Outcome} {c : Call} {cs ds : List Call}

/-! ### What a reset goes back to -/

/-- A step changes nothing that a reset would not take back. -/
theorem reset_of_step (h : m.step = .ok (m', outcome)) : m'.reset = m.reset := by
  cases stepped_of_step h with
  | rests | limit | verdict | unwatched | fresh | seen => rfl

theorem reset_of_calls (h : m.calls cs = .ok m') : m'.reset = m.reset :=
  calls_induction (I := fun x => x.reset = m.reset)
    (fun _ _ _ hx hs => (reset_of_step hs).trans hx) (fun _ hx => hx) h rfl

/-- A new machine is at the start, and its program is the one it was made of. -/
theorem exists_table_of_ofProgram (h : ofProgram p = .ok m) :
    ∃ table, m = ⟨p, table, .initial p, .empty, #[], 0, none⟩ := by
  obtain ⟨u, -, h⟩ := bind_eq_ok_iff.1 h
  obtain ⟨table, -, h⟩ := bind_eq_ok_iff.1 h
  cases h
  exact ⟨table, rfl⟩

theorem reset_of_ofProgram (h : ofProgram p = .ok m) : m.reset = m := by
  obtain ⟨table, rfl⟩ := exists_table_of_ofProgram h
  rfl

/-! ### What calls come to -/

theorem exists_result (h : m.call c = .ok m') : ∃ answer, m.result c = .ok answer := by
  cases c with
  | step =>
      obtain ⟨x, hx, -⟩ := map_eq_ok_iff.1 h
      exact ⟨some x.2, map_eq_ok_iff.2 ⟨x, hx, rfl⟩⟩
  | run =>
      obtain ⟨x, hx, -⟩ := map_eq_ok_iff.1 h
      exact ⟨some (.halts x.2), map_eq_ok_iff.2 ⟨x, hx, rfl⟩⟩
  | reset => exact ⟨none, rfl⟩

/-- Calls that do not break down come to something. -/
theorem exists_results (h : m.calls cs = .ok m') : ∃ rs, m.results cs = .ok rs := by
  induction cs generalizing m with
  | nil => exact ⟨[], rfl⟩
  | cons c cs ih =>
      rw [calls, List.foldlM_cons] at h
      obtain ⟨m₁, hc, h⟩ := bind_eq_ok_iff.1 h
      obtain ⟨answer, ha⟩ := exists_result hc
      obtain ⟨rs, hrs⟩ := ih h
      exact ⟨(answer, m₁) :: rs, by rw [results, ha, hc]; exact congrArg (Except.map _) hrs⟩

theorem calls_append (h : m.calls cs = .ok m') (ds : List Call) :
    m.calls (cs ++ ds) = m'.calls ds := by
  rw [calls, List.foldlM_append]
  exact congrArg (· >>= fun x => x.calls ds) h

/-- What calls come to does not depend on what is called after them. -/
theorem results_append {rs ss : List (Option Outcome × Machine)} (h : m.calls cs = .ok m')
    (hr : m.results cs = .ok rs) (hs : m'.results ds = .ok ss) :
    m.results (cs ++ ds) = .ok (rs ++ ss) := by
  induction cs generalizing m rs with
  | nil =>
      cases h
      cases hr
      exact hs
  | cons c cs ih =>
      rw [calls, List.foldlM_cons] at h
      obtain ⟨m₁, hc, h⟩ := bind_eq_ok_iff.1 h
      obtain ⟨answer, ha, hr⟩ := bind_eq_ok_iff.1 hr
      obtain ⟨next, hnext, hr⟩ := bind_eq_ok_iff.1 hr
      obtain ⟨rs', hrs, hr⟩ := bind_eq_ok_iff.1 hr
      obtain rfl : m₁ = next := Except.ok.inj (hc ▸ hnext)
      cases hr
      rw [List.cons_append, results, ha, hc]
      exact congrArg (Except.map _) (ih h hrs)

/-! ### A fresh start -/

/-- **A reset is a fresh start.**  A program without defects has a machine, at the start of its
program, which has seen nothing and has not halted.  After any calls a reset takes what has become
of it back to that machine.  Whatever is called after that comes to what it comes to on a new
machine, call by call, and leads to the same execution in the end. -/
theorem reset_restarts (p : Program) (hp : p.check = .ok ()) (hm : p.Modest) :
    ∃ m₀, ofProgram p = .ok m₀ ∧ m₀.program = p ∧ m₀.configuration = .initial p ∧
      m₀.detector.isEmpty = true ∧ m₀.trace = #[] ∧ m₀.steps = 0 ∧ m₀.halted = none ∧
      ∀ before, ∃ m rs, m₀.calls before = .ok m ∧ m₀.results before = .ok rs ∧ m.reset = m₀ ∧
        ∀ after, ∃ m' ss e, m₀.calls after = .ok m' ∧ m₀.results after = .ok ss ∧
          m'.execute = .ok e ∧ m₀.calls (before ++ .reset :: after) = .ok m' ∧
          m₀.results (before ++ .reset :: after) = .ok (rs ++ (none, m₀) :: ss) := by
  have hwf := Program.check_eq_ok_iff.mp hp
  have hb := Program.neverBreaks_of_modest hwf hm hm.maxSteps_le
  obtain ⟨m₀, hm₀, hlive⟩ := exists_ofProgram hwf
  have hstart : m₀.OnCourse p := .inl ⟨0, hlive⟩
  obtain ⟨table, rfl⟩ := exists_table_of_ofProgram hm₀
  refine ⟨_, hm₀, rfl, rfl, Std.HashSet.isEmpty_empty, rfl, rfl, rfl, fun before => ?_⟩
  obtain ⟨m, hbefore, -⟩ := hstart.exists_calls hb before
  obtain ⟨rs, hrs⟩ := exists_results hbefore
  have hreset := (reset_of_calls hbefore).trans (reset_of_ofProgram hm₀)
  refine ⟨m, rs, hbefore, hrs, hreset, fun after => ?_⟩
  obtain ⟨m', hafter, hcourse⟩ := hstart.exists_calls hb after
  obtain ⟨ss, hss⟩ := exists_results hafter
  obtain ⟨m'', reason, hrun, -⟩ := hcourse.exists_run hb
  refine ⟨m', ss, _, hafter, hss, execute_of_run hrun, ?_, results_append hbefore hrs ?_⟩
  · rw [calls_append hbefore, ← hafter, ← hreset]
    rfl
  · change m.reset.results after >>= _ = _
    rw [hreset, hss]
    rfl

/-- A run of `blink`, a reset and a run again: the second run comes to what the first one came
to. -/
theorem reset_restarts_blink : blink.check = .ok () ∧ blink.Modest ∧
    ∃ m₀ m, ofProgram blink = .ok m₀ ∧ m₀.configuration = .initial blink ∧ m₀.steps = 0 ∧
      m₀.calls [.run] = .ok m ∧ m.halted = some .loopDetected ∧ m.steps = 3 ∧ m.reset = m₀ ∧
      m₀.calls [.run, .reset, .run] = .ok m ∧
      m₀.results [.run, .reset, .run] =
        .ok [(some (.halts .loopDetected), m), (none, m₀), (some (.halts .loopDetected), m)] := by
  obtain ⟨m₀, hm₀, -, hstart, -, -, hzero, -, hcalls⟩ := reset_restarts blink rfl blink_modest
  obtain ⟨m, hrun, hs, -⟩ := exists_run_blink hm₀
  have hresults : m₀.results [.run] = .ok [(some (.halts .loopDetected), m)] := by
    rw [results, result, call, hrun]
    rfl
  obtain ⟨m', rs, hm', hrs, hreset, hafter⟩ := hcalls [.run]
  obtain rfl : m = m' := Except.ok.inj ((calls_run hrun).symm.trans hm')
  obtain rfl := Except.ok.inj (hresults.symm.trans hrs)
  obtain ⟨m'', ss, e, hm'', hss, -, hboth, hall⟩ := hafter [.run]
  obtain rfl : m = m'' := Except.ok.inj (hm'.symm.trans hm'')
  obtain rfl := Except.ok.inj (hresults.symm.trans hss)
  exact ⟨rfl, blink_modest, m₀, m, hm₀, hstart, hzero, hm', hs.halted_eq, hs.steps_eq, hreset,
    hboth, hall⟩

end Machine

end TapeMachine
