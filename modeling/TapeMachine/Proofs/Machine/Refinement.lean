import TapeMachine.Proofs.Machine.Run

/-!
# Machine — Refinement

The machine is an implementation of the ideal one.  What it stores of a tape, what it leaves out,
the index over its rules and the ends of the range of positions are not to be seen: after any number
of calls of `Machine.step` its state, its heads and what is read from its tapes are those of the
ideal machine after as many steps as it has made (`Machine.refines_ideal`).
-/

namespace TapeMachine

/-- Moves the symbols `a` of the first tape to the second, where they stand from position -2
leftwards, and leaves blanks behind.  The second rule is shadowed by the first one. -/
def carry : Program where
  name := "carry"
  initial := "go"
  finals := .ofList ["done"]
  blank := '_'
  tapes := [['a', 'a', 'b'], []]
  heads := [0, -2]
  tapeCount := 2
  rules := [
    ⟨"go", ['a', '_'], ['_', 'a'], [.right, .left], "go"⟩,
    ⟨"go", ['a', '_'], ['a', 'a'], [.stay, .stay], "lost"⟩,
    ⟨"go", ['b', '_'], ['b', '_'], [.stay, .stay], "done"⟩]
  maxSteps := 10
  detectLoops := true

theorem carry_modest : carry.Modest := ⟨by decide, by decide⟩

theorem carry_wellFormed : carry.WellFormed := Program.check_eq_ok_iff.mp rfl

theorem carry_neverBreaks : carry.NeverBreaks carry.maxSteps :=
  Program.neverBreaks_of_modest carry_wellFormed carry_modest carry_modest.maxSteps_le

/-- After three steps no rule matches. -/
theorem isLeast_stopsAt_carry : IsLeast {n | carry.StopsAt n} 3 :=
  Program.isLeast_stopsAt_iff.2 (by decide +kernel)

/-- Where `carry` comes to. -/
def carried : Configuration :=
  ⟨"done", [⟨⟨['_', '_', 'b'], 0, '_'⟩, 2⟩, ⟨⟨['a', 'a'], -3, '_'⟩, -4⟩]⟩

theorem after_carry : carry.after 3 = some carried := by decide +kernel

namespace Machine

/-- **The machine refines the ideal one.**  A program without defects has a machine; after any
number of calls of `step`, if it has made `k` steps, then the ideal machine makes `k` steps too,
and the two are in the same state, with the same heads, and read the same symbol at each position of
each tape.  Each call makes a step as long as the machine has not stopped. -/
theorem refines_ideal (p : Program) (hp : p.check = .ok ()) (hm : p.Modest) :
    ∃ m₀, ofProgram p = .ok m₀ ∧ ∀ calls, ∃ m outcome c,
      stepMany calls m₀ = .ok (m, outcome) ∧ (m.halted = none → m.steps = calls) ∧
      p.idealAfter m.steps = some c ∧ m.configuration.state = c.state ∧
      m.configuration.heads = c.heads ∧ m.configuration.tapes.map Tape.read = c.tapes := by
  have hwf := Program.check_eq_ok_iff.mp hp
  have hroom := Program.room_of_modest hm
  have hconf := Program.confined_of_modest hwf hm hm.maxSteps_le
  obtain ⟨m₀, hm₀, hlive⟩ := exists_ofProgram hwf
  refine ⟨m₀, hm₀, fun calls => ?_⟩
  obtain ⟨m, outcome, hmany, h⟩ :=
    hlive.exists_stepMany (Program.neverBreaks hwf hroom hconf) calls
  have hsteps : m.steps ≤ p.maxSteps ∧ (m.halted = none → m.steps = calls) ∧
      p.after m.steps = some m.configuration := by
    rcases h with hl | ⟨N, reason, hs⟩
    · exact ⟨hl.steps_le, fun _ => hl.steps_eq.trans (Nat.zero_add _), hl.steps_eq ▸ hl.after_eq⟩
    · refine ⟨hs.steps_le, fun hn => ?_, hs.steps_eq ▸ hs.after_eq⟩
      rw [hs.halted_eq] at hn
      cases hn
  obtain ⟨hle, hcalls, hafter⟩ := hsteps
  have hideal := Program.ideal_after hwf hroom (hconf.mono hle)
  rw [hafter] at hideal
  exact ⟨m, outcome, _, hmany, hcalls, hideal.symm, rfl,
    (Configuration.heads_ideal _).symm, (Configuration.tapes_ideal _).symm⟩

/-- Five calls make three steps: two symbols are carried, and the head of the other tape is beyond
them. -/
theorem refines_ideal_carry : carry.check = .ok () ∧ carry.Modest ∧
    ∃ m₀ m outcome c, ofProgram carry = .ok m₀ ∧ stepMany 5 m₀ = .ok (m, outcome) ∧ m.steps = 3 ∧
      carry.idealAfter 3 = some c ∧ c.state = "done" ∧ c.heads = [2, -4] ∧
      c.tapes.map (fun cells => [-3, -2, 0, 2].map cells) =
        [['_', '_', '_', 'b'], ['a', 'a', '_', '_']] ∧
      m.configuration.state = "done" ∧ m.configuration.heads = [2, -4] ∧
      m.configuration.tapes.map Tape.read = c.tapes := by
  obtain ⟨m₀, hm₀, hcalls⟩ := refines_ideal carry rfl carry_modest
  obtain ⟨m, outcome, c, hmany, -, hc, hstate, hheads, htapes⟩ := hcalls 5
  have hsteps : m.steps = 3 := by
    obtain ⟨m', outcome', reason, hmany', hs⟩ :=
      (live_of_ofProgram carry_wellFormed hm₀).exists_stepMany_of_lt carry_neverBreaks
        isLeast_stopsAt_carry (show 3 < 5 by decide)
    cases hmany.symm.trans hmany'
    exact hs.steps_eq
  rw [hsteps] at hc
  cases hc
  exact ⟨rfl, carry_modest, m₀, m, outcome, _, hm₀, hmany, hsteps, rfl, rfl, rfl, by decide, hstate,
    hheads, htapes⟩

end Machine

end TapeMachine
