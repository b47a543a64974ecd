import TapeMachine.Program.Defect
import Mathlib.Tactic

/-!
# Program — Well-formed programs

The programs without defects, told by what their parts are and not by a search for defects:
`Program.check_eq_ok_iff`.
-/

namespace TapeMachine

namespace Rule

variable {rules : List Rule} {i n : Nat}

/-- A check of rules succeeds if each rule has the arity. -/
theorem checkArities_eq_ok : checkArities n i rules = .ok () ↔ ∀ r ∈ rules, r.HasArity n := by
  induction rules generalizing i with
  | nil => simp [checkArities]
  | cons r rules ih =>
      rw [checkArities, checkArity]
      by_cases hr : r.HasArity n
      · rw [if_pos hr, List.forall_mem_cons]
        exact ih.trans ⟨fun h => ⟨hr, h⟩, fun h => h.2⟩
      · rw [if_neg hr, List.forall_mem_cons]
        exact ⟨nofun, fun h => absurd h.1 hr⟩

end Rule

namespace Program

/-- A head starts at most so far from the content of its tape. -/
def HeadInRange (content : Word) (head : Int) : Prop :=
  -maxHeadOffset ≤ head ∧ head ≤ content.length + maxHeadOffset

/-- The parts of a program fit together. -/
structure WellFormed (p : Program) : Prop where
  tapeCount_pos : 0 < p.tapeCount
  tapes_length : p.tapes.length = p.tapeCount
  heads_length : p.heads.length = p.tapeCount
  headInRange : ∀ x ∈ p.tapes.zip p.heads, HeadInRange x.1 x.2
  hasArity : ∀ r ∈ p.rules, r.HasArity p.tapeCount
  finals_ne_nil : p.finals.toList ≠ []
  maxSteps_pos : 0 < p.maxSteps

theorem checkHeadRange_eq_ok {i : Nat} {ws : List Word} {hs : List Int} :
    checkHeadRange i ws hs = .ok () ↔ ∀ x ∈ ws.zip hs, HeadInRange x.1 x.2 := by
  induction ws generalizing i hs with
  | nil => simp [checkHeadRange]
  | cons w ws ih =>
      cases hs with
      | nil => simp [checkHeadRange]
      | cons h hs =>
          rw [checkHeadRange, List.zip_cons_cons, List.forall_mem_cons, ← ih (i := i + 1)]
          by_cases hr : HeadInRange w h
          · rw [if_neg (by simp only [HeadInRange] at hr; omega)]
            exact ⟨fun hx => ⟨hr, hx⟩, fun hx => hx.2⟩
          · rw [if_pos (by simp only [HeadInRange] at hr; omega)]
            exact ⟨nofun, fun hx => absurd hx.1 hr⟩

theorem checkTapes_eq_ok {p : Program} :
    p.checkTapes = .ok () ↔ 0 < p.tapeCount ∧ p.tapes.length = p.tapeCount := by
  have hnil : p.tapes = [] ↔ p.tapes.length = 0 := List.length_eq_zero_iff.symm
  rw [checkTapes]
  split
  · next h =>
      rw [hnil] at h
      exact ⟨nofun, by omega⟩
  · next h =>
      rw [hnil] at h
      split
      · exact ⟨nofun, by omega⟩
      · exact ⟨by omega, fun _ => rfl⟩

/-- Checks made one after the other succeed if each of them does. -/
theorem andThen_eq_ok {x y : Except Defect Unit} :
    (do x; y) = .ok () ↔ x = .ok () ∧ y = .ok () := by
  cases x with
  | error d => exact ⟨nofun, fun h => nomatch h.1⟩
  | ok u => exact ⟨fun h => ⟨rfl, h⟩, fun h => h.2⟩

/-- The programs without defects are those whose parts fit together. -/
theorem check_eq_ok_iff {p : Program} : p.check = .ok () ↔ p.WellFormed := by
  rw [check, andThen_eq_ok, andThen_eq_ok, andThen_eq_ok, andThen_eq_ok, andThen_eq_ok,
    checkTapes_eq_ok, checkHeadRange_eq_ok, Rule.checkArities_eq_ok, checkHeads, checkFinals,
    checkBudget]
  constructor
  · rintro ⟨⟨hpos, ht⟩, hh, hr, ha, hf, hb⟩
    refine ⟨hpos, ht, ?_, hr, ha, ?_, ?_⟩
    · by_contra h
      rw [if_pos h] at hh
      cases hh
    · intro h
      rw [if_pos h] at hf
      cases hf
    · by_contra h
      rw [if_pos (by omega)] at hb
      cases hb
  · rintro ⟨hpos, ht, hh, hr, ha, hf, hb⟩
    exact ⟨⟨hpos, ht⟩, if_neg (not_not_intro hh), hr, ha, if_neg hf, if_neg (by omega)⟩

end Program

end TapeMachine
