import TapeMachine.Proofs.Machine.Calls
import TapeMachine.Proofs.Machine.Halting
import TapeMachine.Proofs.Program.Growth

/-!
# Machine — Safety

Whatever a host calls, a machine never comes to one of its bounds (`Machine.calls_safe`).  A program
without defects has its heads near its tapes and as many symbols and moves in each rule as it has
tapes.  Each step takes a head one position further, so that within the budget no head comes to an
end of the range of positions and no tape to its capacity.
-/

namespace TapeMachine.Machine

variable {p : Program} {m : Machine} {r : Rule}

/-- The rule that a machine finds is one of its program. -/
theorem OnCourse.hasArity (h : m.OnCourse p) (hp : p.WellFormed) (hr : m.transition = some r) :
    r.HasArity p.tapeCount :=
  hp.hasArity r (Program.mem_of_ruleAt (h.along.transition_eq ▸ hr))

/-- **No call takes a machine to its bounds.**  A program without defects has a machine.  After any
calls, of which none breaks down, it has a track for each tape.  If it has made `k` steps since it
was at the start, then each head is at most `k` positions from where it started, and each tape
stores nothing but positions between those of its content and those up to `k - 1` from the start of
the head, which are not many.  The rule that the machine finds is the first one of the program that
matches, with a symbol and a move for each track; any symbol can be written under the heads, no move
takes a head to an end of the range of positions, and the steps can still be counted. -/
theorem calls_safe (p : Program) (hp : p.check = .ok ()) (hm : p.Modest) :
    ∃ m₀, ofProgram p = .ok m₀ ∧ ∀ cs, ∃ m, m₀.calls cs = .ok m ∧
      m.configuration.tracks.length = p.tapeCount ∧
      (∀ (i : Nat) (t : Track), m.configuration.tracks[i]? = some t → ∃ w start,
        p.tapes[i]? = some w ∧ p.heads[i]? = some start ∧ t.Grown w start m.steps ∧
        t.tape.cells.length ≤ w.length + maxHeadOffset + 2 * m.steps ∧
        (∀ s, ∃ tape, t.tape.write t.head s = .ok tape) ∧
        ∀ move : Move, leastPosition < move.destination t.head ∧
          move.destination t.head < greatestPosition) ∧
      m.transition = p.ruleAt m.configuration ∧
      (∀ r, m.transition = some r →
        r.write.length = p.tapeCount ∧ r.moves.length = p.tapeCount) ∧
      m.steps < greatestCount ∧ ∃ m' outcome, m.step = .ok (m', outcome) := by
  have hwf := Program.check_eq_ok_iff.mp hp
  have hb := Program.neverBreaks_of_modest hwf hm hm.maxSteps_le
  obtain ⟨m₀, hm₀, hlive⟩ := exists_ofProgram hwf
  refine ⟨m₀, hm₀, fun cs => ?_⟩
  obtain ⟨m, hcalls, h⟩ := OnCourse.exists_calls (.inl ⟨0, hlive⟩) hb cs
  have hsteps : m.steps ≤ 1099511627776 := h.steps_le.trans hm.maxSteps_le
  have hafter := h.along.after_eq
  have hhoused := Program.housed_after hwf (Program.room_of_modest hm)
    (Program.confined_of_modest hwf hm hsteps) hafter
  obtain ⟨m', outcome, hstep, -⟩ := h.exists_step hb
  refine ⟨m, hcalls, hhoused.length_eq, fun i t ht => ?_, h.along.transition_eq,
    fun r hr => (h.hasArity hwf hr).2, ?_, m', outcome, hstep⟩
  · obtain ⟨w, start, hw, hs, hrange, hgrown⟩ := Program.grown_after hwf hm hsteps hafter ht
    have hlen := hm.length_lt w (List.mem_of_getElem? hw)
    exact ⟨w, start, hw, hs, hgrown, hgrown.length_le hrange,
      Program.exists_write_after hwf hm hsteps hafter ht, hgrown.head_clear hrange hlen hsteps⟩
  · simp only [greatestCount]
    omega

/-- At the start `carry` finds its first rule.  Its run leaves the head of the second tape two
positions from where it started, beside the two symbols that have come there. -/
theorem calls_safe_carry : carry.check = .ok () ∧ carry.Modest ∧
    ∃ m₀ m t, ofProgram carry = .ok m₀ ∧
      (∃ r, m₀.transition = some r ∧ carry.rules[0]? = some r ∧ r.write.length = 2 ∧
        r.moves.length = 2) ∧
      m₀.calls [.run] = .ok m ∧ m.steps = 3 ∧ m.configuration.tracks[1]? = some t ∧
      t = ⟨⟨['a', 'a'], -3, '_'⟩, -4⟩ ∧ t.Grown [] (-2) 3 ∧
      (∀ s, ∃ tape, t.tape.write (-4) s = .ok tape) ∧
      (∀ move : Move, leastPosition < move.destination (-4) ∧
        move.destination (-4) < greatestPosition) ∧
      m.transition = none ∧ ∃ m' outcome, m.step = .ok (m', outcome) := by
  obtain ⟨m₀, hm₀, hsafe⟩ := calls_safe carry rfl carry_modest
  obtain ⟨m, hrun, hs, hend⟩ := exists_run_carry hm₀
  obtain ⟨m₁, hm₁, -, -, hrule, harity, -⟩ := hsafe []
  cases hm₁
  rw [← Option.some.inj (live_of_ofProgram carry_wellFormed hm₀).after_eq] at hrule
  obtain ⟨m', hm', -, htracks, hnone, -, -, hstep⟩ := hsafe [.run]
  obtain rfl : m = m' := Except.ok.inj ((calls_run hrun).symm.trans hm')
  have ht : m.configuration.tracks[1]? = some ⟨⟨['a', 'a'], -3, '_'⟩, -4⟩ := by
    rw [hend]
    rfl
  obtain ⟨w, start, hw, hstart, hgrown, -, hwrite, hmove⟩ := htracks 1 _ ht
  cases hw
  cases hstart
  rw [hs.steps_eq] at hgrown
  rw [hend] at hnone
  exact ⟨rfl, carry_modest, m₀, m, _, hm₀, ⟨_, hrule, rfl, harity _ hrule⟩, hm', hs.steps_eq, ht,
    rfl, hgrown, hwrite, hmove, hnone, hstep⟩

end TapeMachine.Machine
