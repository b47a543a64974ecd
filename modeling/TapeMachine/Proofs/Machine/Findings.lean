import TapeMachine.Proofs.Machine.Invariant
import TapeMachine.Proofs.Machine.Reset
import TapeMachine.Proofs.Program.Findings

/-!
# Machine — Findings

No run does what a finding about its program rules out, whatever is on the tapes at the start, where
the heads are, how many steps are allowed, and whether loops are looked for
(`Machine.findings_sound`).
-/

namespace TapeMachine

/-- A program that starts with other tapes and heads, with another budget, and with or without a
look for loops. -/
def Program.withSetting (p : Program) (tapes : List Word) (heads : List Int) (maxSteps : Nat)
    (detectLoops : Bool) : Program :=
  { p with tapes, heads, maxSteps, detectLoops }

/-- A run comes to a state: one of its steps starts in it, or the run ends in it. -/
def Execution.Visits (e : Execution) (s : State) : Prop :=
  (∃ t ∈ e.trace, t.state = s) ∨ e.finalState = s

namespace Machine

variable {p : Program} {m m₀ : Machine} {reason : HaltReason} {n : Nat} {s : State} {cs : List Call}

/-- A run comes only to states that the course of its program comes to. -/
theorem Stopped.exists_after_of_visits (h : m.Stopped p n reason)
    (hv : Execution.Visits ⟨reason, m.configuration, m.steps, m.trace⟩ s) :
    ∃ k c, p.after k = some c ∧ c.state = s := by
  rcases hv with ⟨t, ht, rfl⟩ | rfl
  · rw [← Array.mem_toList_iff, h.trace_eq] at ht
    obtain ⟨i, hi, rfl⟩ := List.mem_iff_getElem.1 ht
    obtain ⟨c, r, -, hc, -, -, -, hentry⟩ :=
      Program.exists_entry h.after_eq (Program.length_entries h.after_eq ▸ hi)
    obtain ⟨_, heq⟩ := List.getElem?_eq_some_iff.1 hentry
    exact ⟨i, c, hc, by rw [heq]; rfl⟩
  · exact ⟨n, m.configuration, h.after_eq, rfl⟩

/-- No call changes the rule table. -/
theorem table_of_calls (h : m₀.calls cs = .ok m) : m.table = m₀.table := by
  have hreset : m.reset.table = m₀.reset.table := by rw [reset_of_calls h]
  exact hreset

theorem ofRules_of_ofProgram (h : ofProgram p = .ok m) :
    RuleTable.ofRules p.rules p.tapeCount = .ok m.table := by
  obtain ⟨u, -, h⟩ := bind_eq_ok_iff.1 h
  obtain ⟨table, ht, h⟩ := bind_eq_ok_iff.1 h
  cases h
  exact ht

/-- **Findings are sound for every run.**  Take a program with any setting with which it has no
defects.  A state that is found to be unreachable is never entered; a rule that is found to be
shadowed is never found in the table; a final state that is found to be unreachable is never
entered, and if all final states are, no run accepts; and if the initial state is found to have no
rules, no step is made. -/
theorem findings_sound (p : Program) (tapes : List Word) (heads : List Int) (maxSteps : Nat)
    (detectLoops : Bool) (hp : (p.withSetting tapes heads maxSteps detectLoops).check = .ok ())
    (hm : (p.withSetting tapes heads maxSteps detectLoops).Modest) :
    ∃ m₀ e, ofProgram (p.withSetting tapes heads maxSteps detectLoops) = .ok m₀ ∧
      m₀.execute = .ok e ∧
      (∀ ss, .unreachableStates ss ∈ p.findings → ∀ s ∈ ss, ¬ e.Visits s) ∧
      (∀ i state read, .shadowedRule i state read ∈ p.findings → ∀ cs m, m₀.calls cs = .ok m →
        ∀ s w r, m.table.find? s w ≠ some (i, r)) ∧
      (∀ ss, .unreachableFinalStates ss ∈ p.findings → (∀ s ∈ ss, ¬ e.Visits s) ∧
        ((∀ s ∈ p.finals, s ∈ ss) → e.halt ≠ .accepted)) ∧
      (∀ s, .initialStateWithoutRules s ∈ p.findings → e.totalSteps = 0 ∧ e.trace = #[]) := by
  -- The findings are about the rules, the initial state and the final states alone.
  have hfindings : p.findings = (p.withSetting tapes heads maxSteps detectLoops).findings := rfl
  have hfinals : p.finals = (p.withSetting tapes heads maxSteps detectLoops).finals := rfl
  rw [hfindings, hfinals]
  generalize p.withSetting tapes heads maxSteps detectLoops = q at hp hm
  have hwf := Program.check_eq_ok_iff.mp hp
  obtain ⟨m₀, m, N, reason, hm₀, hrun, hs⟩ :=
    exists_stopped hwf (Program.neverBreaks_of_modest hwf hm hm.maxSteps_le)
  refine ⟨m₀, _, hm₀, execute_of_run hrun, fun ss hf s hss hv => ?_,
    fun i state read hf cs m' hcalls s w r hfind => ?_, fun ss hf => ?_, fun s hf => ?_⟩
  · cases Program.holds_of_mem_findings hf with
    | unreachableStates h =>
        obtain ⟨k, c, hc, rfl⟩ := hs.exists_after_of_visits hv
        exact h _ hss (Program.state_mem_reached hc)
  · rw [table_of_calls hcalls] at hfind
    obtain ⟨hr, hfirst⟩ := RuleTable.first_of_find? (ofRules_of_ofProgram hm₀) hfind
    cases Program.holds_of_mem_findings hf with
    | shadowedRule hi hj hlt hkey =>
        obtain rfl := Option.some.inj (hi ▸ hr)
        exact hfirst _ hlt _ hj hkey
  · cases Program.holds_of_mem_findings hf with
    | unreachableFinalStates h =>
        have hnever : ∀ s ∈ ss,
            ¬ Execution.Visits ⟨reason, m.configuration, m.steps, m.trace⟩ s := by
          intro s hss hv
          obtain ⟨k, c, hc, rfl⟩ := hs.exists_after_of_visits hv
          obtain ⟨hne, hnext⟩ := h _ hss
          rcases Program.state_eq_initial_or_next hc with hstart | ⟨r, hr, hstate⟩
          · exact hne hstart
          · exact hnext r hr hstate
        refine ⟨hnever, fun hall haccepted => ?_⟩
        obtain rfl : reason = .accepted := haccepted
        exact hnever _ (hall _ ((hs.mem_finals_iff (.inl rfl)).2 rfl)) (.inr rfl)
  · cases Program.holds_of_mem_findings hf with
    | initialStateWithoutRules h =>
        have hN : N = 0 := by
          cases N with
          | zero => rfl
          | succ N => cases hs.after_eq.symm.trans (Program.after_succ_eq_none h)
        subst hN
        exact ⟨hs.steps_eq, Array.toList_inj.1 hs.trace_eq⟩

/-- A program with a state that is never reached, a shadowed rule and a final state that is never
entered. -/
def thicket : Program where
  name := "thicket"
  initial := "in"
  finals := .ofList ["out", "nowhere"]
  blank := '_'
  tapes := [[]]
  heads := [0]
  tapeCount := 1
  rules := [⟨"in", ['_'], ['x'], [.right], "on"⟩, ⟨"in", ['_'], ['_'], [.stay], "lost"⟩,
    ⟨"on", ['x'], ['x'], [.left], "in"⟩, ⟨"on", ['_'], ['_'], [.stay], "out"⟩,
    ⟨"lost", ['_'], ['_'], [.right], "lost"⟩, ⟨"away", ['_'], ['_'], [.stay], "in"⟩]
  maxSteps := 10
  detectLoops := true

/-- The findings about `thicket`, and what they say of a run on two symbols. -/
theorem findings_sound_thicket :
    thicket.findings = [.unreachableStates ["away"], .shadowedRule 1 "in" ['_'],
      .unreachableFinalStates ["nowhere"]] ∧
    (thicket.withSetting [['x', 'x']] [-1] 100 false).check = .ok () ∧
    (thicket.withSetting [['x', 'x']] [-1] 100 false).Modest ∧
    ∃ m₀ e, ofProgram (thicket.withSetting [['x', 'x']] [-1] 100 false) = .ok m₀ ∧
      m₀.execute = .ok e ∧ ¬ e.Visits "away" ∧ ¬ e.Visits "nowhere" ∧
      ∀ s w r, m₀.table.find? s w ≠ some (1, r) := by
  have hfindings : thicket.findings = [.unreachableStates ["away"], .shadowedRule 1 "in" ['_'],
      .unreachableFinalStates ["nowhere"]] := by decide
  have hm : (thicket.withSetting [['x', 'x']] [-1] 100 false).Modest := ⟨by decide, by decide⟩
  obtain ⟨m₀, e, hm₀, he, hreach, hshadow, hfinal, -⟩ :=
    findings_sound thicket [['x', 'x']] [-1] 100 false rfl hm
  rw [hfindings] at hreach hshadow hfinal
  refine ⟨hfindings, rfl, hm, m₀, e, hm₀, he, ?_, ?_, ?_⟩
  · exact hreach ["away"] (by simp) "away" (by simp)
  · exact (hfinal ["nowhere"] (by simp)).1 "nowhere" (by simp)
  · exact hshadow 1 "in" ['_'] (by simp) [] m₀ rfl

end Machine

end TapeMachine
