import TapeMachine.Proofs.Loader
import TapeMachine.Proofs.Machine.Trace
import TapeMachine.Proofs.Request
import TapeMachine.Proofs.Request.Forms

/-!
# Request — Answers

The answer to a request is the run of its program, and nothing can be wrong with it but the request
(`Request.simulate_faithful`).  A request has no answer exactly if it has no program, and for the
same reason: the machine has nothing to say against a program that a request comes to, and the
program is small enough for its run not to break down.

An answer reports a run (`Response.Reports`).  It says several things twice, and its parts agree
(`Response.Agrees`).
-/

namespace TapeMachine

/-- The outcome of a run in words: why it stopped, and the state or the number of steps that this is
about. -/
def HaltReason.summary (reason : HaltReason) (s : State) (steps : Nat) : String :=
  match reason with
  | .accepted => "Accepted in state " ++ s
  | .rejected => "Rejected in state " ++ s
  | .stepLimit => "Stopped after " ++ toString steps ++ " steps (step limit)"
  | .loopDetected =>
    "Infinite loop detected at step " ++ toString steps ++ " (configuration repeated)"

/-- An answer tells what came of a run.  How long the run took is left open. -/
structure Response.Reports (e : Execution) (a : Response) : Prop where
  success_eq : a.success = true
  halted_eq : a.halted = true
  haltReason_eq : a.haltReason = e.halt
  accepted_iff : a.accepted = true ↔ e.halt = .accepted
  loopDetected_iff : a.loopDetected = true ↔ e.halt = .loopDetected
  finalState_eq : a.finalState = e.configuration.state
  finalTapes_eq : a.finalTapes = e.configuration.tapes.map (·.window.content)
  totalSteps_eq : a.totalSteps = e.totalSteps
  tapeCount_eq : a.tapeCount = e.configuration.tapes.length
  steps_eq : a.steps = e.trace.toList
  message_eq : a.message = e.halt.summary e.configuration.state e.totalSteps

theorem Execution.message_eq (e : Execution) :
    e.message = e.halt.summary e.configuration.state e.totalSteps := by
  unfold message HaltReason.summary
  cases e.halt <;> rfl

theorem Response.reports_ofExecution (e : Execution) : (ofExecution e).Reports e where
  success_eq := rfl
  halted_eq := rfl
  haltReason_eq := rfl
  accepted_iff := beq_iff_eq
  loopDetected_iff := beq_iff_eq
  finalState_eq := rfl
  finalTapes_eq := rfl
  totalSteps_eq := rfl
  tapeCount_eq := by
    rw [Configuration.tapes, List.length_map]
    rfl
  steps_eq := rfl
  message_eq := e.message_eq

/-- The parts of an answer agree with each other, and with the program that was run. -/
structure Response.Agrees (p : Program) (a : Response) : Prop where
  totalSteps_eq : a.totalSteps = a.steps.length
  totalSteps_le : a.totalSteps ≤ p.maxSteps
  accepted_iff : a.accepted = true ↔ a.haltReason = .accepted
  loopDetected_iff : a.loopDetected = true ↔ a.haltReason = .loopDetected
  tapeCount_eq : a.tapeCount = p.tapeCount
  finalTapes_length : a.finalTapes.length = p.tapeCount
  hasTapes : ∀ t ∈ a.steps, t.HasTapes p.tapeCount

/-- The answer for a run that has stopped. -/
theorem Machine.Stopped.agrees {p : Program} {m : Machine} {n : Nat} {reason : HaltReason}
    (h : m.Stopped p n reason) (hp : p.WellFormed) (hm : p.Modest) :
    (Response.ofExecution ⟨reason, m.configuration, m.steps, m.trace⟩).Agrees p := by
  have hroom := Program.room_of_modest hm
  have hconf := (Program.confined_of_modest hp hm hm.maxSteps_le).mono (h.steps_eq ▸ h.steps_le)
  have htracks := (Program.housed_after hp hroom hconf h.after_eq).length_eq
  refine ⟨?_, h.steps_le, beq_iff_eq, beq_iff_eq, htracks, ?_, fun t ht => ?_⟩
  · exact h.steps_eq.trans (h.size_trace.symm.trans Array.length_toList.symm)
  · simpa only [Response.ofExecution, Execution.finalTapes, Configuration.tapes, List.length_map]
      using htracks
  · obtain ⟨i, hi⟩ := List.mem_iff_getElem?.1 ht
    obtain ⟨hin, c, r, hc, rfl⟩ := h.exists_capture (Array.getElem?_toList.symm.trans hi)
    exact TraceEntry.hasTapes_capture
      (Program.housed_after hp hroom (hconf.mono hin.le) hc).length_eq i r

namespace Request

variable {r : Request} {p : Program} {l : Limits} {m : Machine} {e : Error}

/-! ### Programs of requests -/

theorem givenTapes_of_draft (h : r.draft = .ok p) : r.givenTapes = some p.tapes := by
  cases hws : r.givenTapes with
  | none =>
      rw [draft_of_not_givenTapes hws] at h
      cases h
  | some ws =>
      rw [draft_of_givenTapes hws] at h
      obtain ⟨rules, -, rfl⟩ := map_eq_ok_iff.1 h
      rfl

/-- The usual limits let nobody ask for many steps. -/
theorem modest_of_admitted (h : p.Admitted {})
    (hshort : ∀ w ∈ p.tapes, w.length < 1099511627776) : p.Modest :=
  ⟨(Limits.check_eq_ok_iff.1 h.within).1.trans (by decide), hshort⟩

/-- A program that is admitted is that of the request for it. -/
theorem program_ofProgram_of_admitted (h : p.Admitted l) : (ofProgram p).program l = .ok p := by
  have hp := Program.check_eq_ok_iff.1 h.sound
  have htold : told p = p := told_eq_self_iff.2 fun hone =>
    ⟨hp.tapes_length.trans hone, hp.heads_length.trans hone⟩
  exact program_eq_ok_iff.2 ⟨(draft_ofProgram p).trans (congrArg _ htold), h⟩

/-! ### Answers -/

theorem simulate_of_program_eq_error (h : r.program {} = .error e) :
    r.simulate = .error (.error e) := by
  rw [simulate, h]
  rfl

theorem simulate_of_program_eq_ok (h : r.program {} = .ok p) (hm : Machine.ofProgram p = .ok m) :
    r.simulate = (m.execute.mapError Failure.breakdown).map Response.ofExecution := by
  rw [simulate, h]
  simp only [Except.mapError, bind, Except.bind, hm]
  cases m.execute <;> rfl

/-- A program that a request comes to is run to its end, and the run is the answer. -/
theorem exists_answer (h : r.program {} = .ok p)
    (hshort : ∀ ws, r.givenTapes = some ws → ∀ w ∈ ws, w.length < 1099511627776) :
    ∃ m e a, Machine.ofProgram p = .ok m ∧ m.execute = .ok e ∧ r.simulate = .ok a ∧
      a.Reports e ∧ a.Agrees p := by
  obtain ⟨hdraft, hadmitted⟩ := program_eq_ok_iff.1 h
  have hwf := Program.check_eq_ok_iff.1 hadmitted.sound
  have hmodest := modest_of_admitted hadmitted (hshort _ (givenTapes_of_draft hdraft))
  obtain ⟨m₀, m, N, reason, hm₀, hrun, hs⟩ :=
    Machine.exists_stopped hwf (Program.neverBreaks_of_modest hwf hmodest hmodest.maxSteps_le)
  have hexecute := Machine.execute_of_run hrun
  refine ⟨m₀, _, _, hm₀, hexecute, ?_, Response.reports_ofExecution _, hs.agrees hwf hmodest⟩
  rw [simulate_of_program_eq_ok h hm₀, hexecute]
  rfl

/-- **The answer to a request is the run of its program.**  A request with tapes of fewer than
`2 ^ 40` symbols has no answer exactly if it has no program, and for the same reason.  Otherwise the
program has a machine, which runs to its end, and the answer reports the run; its parts agree with
each other and with the program.

A program that has no defects and is within the usual limits can be run by way of the request for
it: what comes of that is what comes of running it, and with tapes of that length it is an
answer. -/
theorem simulate_faithful :
    (∀ r : Request, (∀ ws, r.givenTapes = some ws → ∀ w ∈ ws, w.length < 1099511627776) →
      (∀ f, r.simulate = .error f ↔ ∃ e, f = .error e ∧ r.program {} = .error e) ∧
      ∀ p, r.program {} = .ok p → ∃ m e a, Machine.ofProgram p = .ok m ∧ m.execute = .ok e ∧
        r.simulate = .ok a ∧ a.Reports e ∧ a.Agrees p) ∧
    ∀ p : Program, p.check = .ok () → ({} : Limits).check p = .ok () →
      ∃ m, Machine.ofProgram p = .ok m ∧
        (ofProgram p).simulate =
          (m.execute.mapError Failure.breakdown).map Response.ofExecution ∧
        ((∀ w ∈ p.tapes, w.length < 1099511627776) →
          ∃ e a, m.execute = .ok e ∧ (ofProgram p).simulate = .ok a ∧ a.Reports e) := by
  refine ⟨fun r hshort => ⟨fun f => ?_, fun p hp => exists_answer hp hshort⟩,
    fun p hcheck hlimits => ?_⟩
  · constructor
    · intro hf
      cases hr : r.program {} with
      | error e =>
          rw [simulate_of_program_eq_error hr] at hf
          cases hf
          exact ⟨e, rfl, rfl⟩
      | ok p =>
          obtain ⟨m, e, a, -, -, hanswer, -⟩ := exists_answer hr hshort
          rw [hanswer] at hf
          cases hf
    · rintro ⟨e, rfl, he⟩
      exact simulate_of_program_eq_error he
  · have hadmitted := Program.admitted_iff.2 ⟨hlimits, hcheck⟩
    have hprogram := program_ofProgram_of_admitted hadmitted
    obtain ⟨m, hm⟩ := hadmitted.exists_machine
    refine ⟨m, hm, simulate_of_program_eq_ok hprogram hm, fun hshort => ?_⟩
    obtain ⟨m', e, a, hm', he, hanswer, hreports, -⟩ := exists_answer hprogram fun ws hws => by
      obtain rfl : ws = p.tapes :=
        Option.some.inj (hws.symm.trans (givenTapes_of_draft (program_eq_ok_iff.1 hprogram).1))
      exact hshort
    obtain rfl : m = m' := Except.ok.inj (hm.symm.trans hm')
    exact ⟨e, a, he, hanswer, hreports⟩

/-- The program of `terse`. -/
def terseProgram : Program where
  name := "request"
  initial := "q0"
  finals := .ofList ["h"]
  blank := '_'
  tapes := [['1', '0']]
  heads := [1]
  tapeCount := 1
  rules := [⟨"q0", ['0'], ['1'], [.left], "q0"⟩, ⟨"q0", ['1'], ['0'], [.stay], "h"⟩]
  maxSteps := 10
  detectLoops := true

/-- Two steps change both symbols. -/
theorem exists_run_terse {m₀ : Machine} (hm₀ : Machine.ofProgram terseProgram = .ok m₀) :
    ∃ m, m₀.run = .ok (m, .accepted) ∧ m.Stopped terseProgram 2 .accepted ∧
      m.configuration = ⟨"h", [⟨⟨['0', '1'], 0, '_'⟩, 0⟩]⟩ := by
  have hwf : terseProgram.WellFormed := Program.check_eq_ok_iff.1 rfl
  have hmodest : terseProgram.Modest := ⟨by decide, by decide⟩
  exact Machine.exists_run_of_isLeast hm₀ hwf
    (Program.neverBreaks_of_modest hwf hmodest hmodest.maxSteps_le)
    (Program.isLeast_stopsAt_iff.2 (by decide +kernel)) (by decide +kernel) (by decide +kernel)

/-- A request for one tape, and a program for two, whose trace is told in full. -/
theorem simulate_faithful_terse :
    (∀ ws, terse.givenTapes = some ws → ∀ w ∈ ws, w.length < 1099511627776) ∧
    carry.check = .ok () ∧ ({} : Limits).check carry = .ok () ∧
    (∃ p a, terse.program {} = .ok p ∧ terse.simulate = .ok a ∧ a.haltReason = .accepted ∧
      a.accepted = true ∧ a.loopDetected ≠ true ∧ a.finalState = "h" ∧
      a.finalTapes = [['0', '1']] ∧ a.totalSteps = 2 ∧ a.steps.length = 2 ∧ a.tapeCount = 1 ∧
      a.message = "Accepted in state h") ∧
    ∃ a, (ofProgram carry).simulate = .ok a ∧ a.haltReason = .accepted ∧ a.finalState = "done" ∧
      a.finalTapes = [['b'], ['a', 'a']] ∧ a.totalSteps = 3 ∧ a.steps = Machine.carryEntries ∧
      a.tapeCount = 2 ∧ a.message = "Accepted in state done" := by
  have hshort : ∀ ws, terse.givenTapes = some ws → ∀ w ∈ ws, w.length < 1099511627776 := by
    rintro ws ⟨⟩
    decide
  have hlimits : ({} : Limits).check carry = .ok () := by decide
  refine ⟨hshort, rfl, hlimits, ?_, ?_⟩
  · obtain ⟨m, e, a, hm, he, ha, hreports, hagrees⟩ :=
      (simulate_faithful.1 terse hshort).2 terseProgram rfl
    obtain ⟨m', hrun, hs, hend⟩ := exists_run_terse hm
    have he' := Machine.execute_of_run hrun
    rw [hend, hs.steps_eq] at he'
    obtain rfl := Except.ok.inj (he'.symm.trans he)
    have hloop : ¬ HaltReason.accepted = .loopDetected := by decide
    exact ⟨_, a, rfl, ha, hreports.haltReason_eq, hreports.accepted_iff.2 rfl,
      hreports.loopDetected_iff.not.2 hloop, hreports.finalState_eq, hreports.finalTapes_eq,
      hreports.totalSteps_eq, hagrees.totalSteps_eq.symm.trans hreports.totalSteps_eq,
      hreports.tapeCount_eq, hreports.message_eq⟩
  · obtain ⟨m, hm, -, hrun⟩ := simulate_faithful.2 carry rfl hlimits
    obtain ⟨e, a, he, ha, hreports⟩ := hrun (by decide)
    obtain rfl := Except.ok.inj ((Machine.execute_carry hm).symm.trans he)
    exact ⟨a, ha, hreports.haltReason_eq, hreports.finalState_eq, hreports.finalTapes_eq,
      hreports.totalSteps_eq, hreports.steps_eq, hreports.tapeCount_eq, hreports.message_eq⟩

end Request

end TapeMachine
