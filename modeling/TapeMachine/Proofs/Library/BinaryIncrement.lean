import TapeMachine.Proofs.Library.Binary
import TapeMachine.Proofs.Library.Programs
import TapeMachine.Proofs.Machine.OneTape
import Mathlib.Data.List.DropRight

/-!
# Library — Binary increment

Binary increment goes over the number to its end (`reachesIn_end`), and from there carries over the
ones back to the lowest zero or to the blank before the number (`exists_reachesIn_carry`).  It makes
one step for each digit, one for each one at the end, and two more where it turns and where it
halts.
-/

namespace TapeMachine.Library.BinaryIncrement

open Binary (bit inc numeral value)
open List (replicate)

/-- What binary increment comes to on a strip in so many steps. -/
abbrev ReachesIn : Nat → Strip → Strip → Prop := Strip.ReachesIn binaryIncrement

variable {p : List Bool} {r : Word} {u : Strip}

/-- The program has halted, with a number behind some blanks. -/
structure Halted (p : List Bool) (r : Word) (u : Strip) : Prop where
  state_eq : u.state = "q_halt"
  right_ne_nil : u.right ≠ []
  cells_eq : ∃ k, u.cells = replicate k '_' ++ numeral p ++ r

theorem does_pass (x : Bool) : binaryIncrement.Does "q0" (bit x) (bit x) .right "q0" := by
  decide +revert

/-- A number is passed to its end. -/
theorem reachesIn_end (p : List Bool) :
    ReachesIn (p.length + 1) ⟨"q0", ['_'], numeral p ++ ['_']⟩
      (.leftward "q1" (p.map bit ++ ['_']) ['_']) := by
  have hpass : ReachesIn p.reverse.length ⟨"q0", ['_'], p.reverse.map bit ++ ['_']⟩
      (.leftward "q0" ('_' :: ((p.reverse.map bit).reverse ++ ['_'])) []) :=
    Strip.reachesIn_sweep_right fun x _ => does_pass x
  have hturn : ReachesIn 1 (.leftward "q0" ('_' :: (p.map bit ++ ['_'])) [])
      (.leftward "q1" (p.map bit ++ ['_']) ['_']) :=
    Strip.reachesIn_left (by decide) (by simp)
  rw [List.length_reverse, List.map_reverse, List.reverse_reverse] at hpass
  exact hpass.trans hturn

/-- **The carry** runs over the ones at the end of the number, and one more step is made. -/
theorem exists_reachesIn_carry (p : List Bool) (r : Word) :
    ∃ u, ReachesIn ((p.takeWhile id).length + 1) (.leftward "q1" (p.map bit ++ ['_']) r) u ∧
      Halted (inc p) r u := by
  induction p using Binary.inc.induct generalizing r with
  | case1 =>
      have hcells : (Strip.mk "q_halt" [] ('1' :: r)).cells = replicate 0 '_' ++ numeral [true] ++ r :=
        rfl
      exact ⟨_, Strip.reachesIn_stay (by decide), rfl, List.cons_ne_nil _ _, 0, hcells⟩
  | case2 p =>
      have hcells : (Strip.mk "q_halt" (p.map bit ++ ['_']) ('1' :: r)).cells =
          replicate 1 '_' ++ numeral (true :: p) ++ r := by
        simp [Strip.cells, numeral, bit]
      exact ⟨_, Strip.reachesIn_stay (by decide), rfl, List.cons_ne_nil _ _, 1, hcells⟩
  | case3 p ih =>
      obtain ⟨u, hu, hstate, hright, k, hcells⟩ := ih ('0' :: r)
      have hcarry : ReachesIn 1 (.leftward "q1" ('1' :: (p.map bit ++ ['_'])) r)
          (.leftward "q1" (p.map bit ++ ['_']) ('0' :: r)) :=
        Strip.reachesIn_left (by decide) (by simp)
      have hnumeral : numeral (false :: inc p) ++ r = numeral (inc p) ++ '0' :: r := by
        rw [Binary.numeral_cons, List.append_assoc]
        rfl
      refine ⟨u, ?_, hstate, hright, k, ?_⟩
      · have hsteps : ((true :: p).takeWhile id).length + 1 = 1 + ((p.takeWhile id).length + 1) := by
          rw [List.takeWhile_cons_of_pos rfl, List.length_cons]
          omega
        rw [hsteps]
        exact hcarry.trans hu
      · rw [inc, List.append_assoc, hnumeral, ← List.append_assoc, hcells]

/-! ### The whole run -/

theorem bit_eq_one : (fun c : Symbol => decide (c = '1')) ∘ bit = id := by
  funext x
  cases x <;> rfl

theorem length_rtakeWhile_numeral (p : List Bool) :
    ((numeral p).rtakeWhile (· = '1')).length = (p.takeWhile id).length := by
  rw [numeral, List.rtakeWhile_reverse, List.length_reverse, List.takeWhile_map, List.length_map,
    bit_eq_one]

theorem all_numeral (p : List Bool) : (numeral p).all (· = '1') = p.all id := by
  rw [numeral, List.all_reverse, List.all_map, bit_eq_one]

/-- **Binary increment adds one.**  On bits it halts after one step for each bit, one for each one
at the end and two more, with any budget beyond these and whether it looks for loops or not; it
accepts, and leaves the number that is greater by one.  This has as many bits, or one more if all
were ones. -/
theorem increments (w : Word) (hw : ∀ c ∈ w, c = '0' ∨ c = '1') (hsize : w.length < 549755813888) :
    ∃ p, named "Binary Increment" = .ok p ∧
      p.HaltsAfter (w.length + (w.rtakeWhile (· = '1')).length + 2) w fun e =>
        e.halt = .accepted ∧ e.finalState = "q_halt" ∧ ∃ v, e.finalTapes = [v] ∧ IsBinary v ∧
          Nat.ofDigitChars 2 v 0 = Nat.ofDigitChars 2 w 0 + 1 ∧
          v.length = if w.all (· = '1') then w.length + 1 else w.length := by
  obtain ⟨p, rfl⟩ := Binary.exists_eq_numeral_of_digits hw
  obtain ⟨u, hcarry, hu⟩ := exists_reachesIn_carry p ['_']
  obtain ⟨k, hcells⟩ := hu.cells_eq
  have hsteps : (numeral p).length + ((numeral p).rtakeWhile (· = '1')).length + 2 =
      p.length + 1 + ((p.takeWhile id).length + 1) := by
    rw [length_rtakeWhile_numeral, Binary.length_numeral]
    omega
  have hroom : 1 + (numeral p).length + 1 < 4398046511104 := by omega
  have hstuck : u.Stuck binaryIncrement := by
    have hidle : ∀ r ∈ binaryIncrement.rules, r.state ≠ "q_halt" := by decide
    rw [← hu.state_eq] at hidle
    exact Strip.stuck_of_idle hidle hu.right_ne_nil
  have hfinal : u.state ∈ binaryIncrement.finals := by
    rw [hu.state_eq]
    decide
  have hbinary := Binary.isBinary_numeral (Binary.inc_ne_nil p)
  have hhalts := Program.accepts_of_reachesIn (j := 1) wellFormed_binaryIncrement rfl rfl hroom
    ((reachesIn_end p).trans hcarry) hstuck hfinal (n := 1) hcells hbinary.trimmed
  refine ⟨binaryIncrement, named_binaryIncrement, ?_⟩
  rw [hsteps]
  refine hhalts.mono fun e ⟨hhalt, hstate, htapes⟩ =>
    ⟨hhalt, hstate.trans hu.state_eq, numeral (inc p), htapes, hbinary, ?_, ?_⟩
  · rw [Binary.ofDigitChars_numeral, Binary.ofDigitChars_numeral, Binary.value_inc]
  · simp only [Binary.length_numeral, Binary.length_inc, all_numeral]

/-- Three is written with ones only, and four takes one bit more. -/
theorem increments_three : (∀ c ∈ ['1', '1'], c = '0' ∨ c = '1') ∧
    ['1', '1'].length < 549755813888 ∧
    ∃ p, named "Binary Increment" = .ok p ∧ p.HaltsAfter 6 ['1', '1'] fun e =>
      e.halt = .accepted ∧ e.finalState = "q_halt" ∧ ∃ v, e.finalTapes = [v] ∧ IsBinary v ∧
        Nat.ofDigitChars 2 v 0 = 4 ∧ v.length = 3 :=
  have hw : ∀ c ∈ ['1', '1'], c = '0' ∨ c = '1' := by simp
  ⟨hw, by decide, increments ['1', '1'] hw (by decide)⟩

end TapeMachine.Library.BinaryIncrement
