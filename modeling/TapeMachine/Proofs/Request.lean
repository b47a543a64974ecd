import TapeMachine.Request
import TapeMachine.Proofs.StateSet
import Mathlib.Tactic

/-!
# Request — Programs in requests

A request for a program is a request for this program and no other (`Request.program_ofProgram`),
whether the program has defects or not.

Two tests decide how a program is written: a tape and a head stand singly where the program is for
one tape, and the parts of a rule where there is one of each.  Neither looks at the other.  What is
read back does not depend on either test, but for a program for one tape that has not one tape and
one head: of this the first tape and the first head are all that is written
(`Request.draft_ofProgram`).
-/

namespace TapeMachine

/-! ### Rules -/

namespace RequestRule

/-- A rule is read back, singly or not. -/
theorem rule_ofRule (r : Rule) (i : Nat) : (ofRule r).rule i = .ok r := by
  rw [ofRule]
  split
  · next s s' m hread hwrite hmoves =>
      change Except.ok (Rule.mk r.state [s] [s'] [m] r.next) = .ok r
      rw [← hread, ← hwrite, ← hmoves]
  · rfl

theorem rulesFrom_map_ofRule (rs : List Rule) (i : Nat) : rulesFrom i (rs.map ofRule) = .ok rs := by
  induction rs generalizing i with
  | nil => rfl
  | cons r rs ih =>
      rw [List.map_cons, rulesFrom, rule_ofRule, ih]
      rfl

end RequestRule

/-! ### Programs -/

namespace Request

variable {p : Program}

/-- A program as far as the request for it tells. -/
def told (p : Program) : Program :=
  { p with
    tapes := if p.isSingleTape then [p.firstTape] else p.tapes
    heads := if p.isSingleTape then [p.firstHead] else p.heads }

theorem pick_ofProgram (p : Program) :
    pick (ofProgram p).tapes (ofProgram p).tape = some (told p).tapes := by
  rw [ofProgram, told]
  cases p.isSingleTape with
  | true => rfl
  | false => rfl

theorem headsFor_ofProgram (p : Program) :
    (ofProgram p).headsFor (told p).tapes.length = (told p).heads := by
  rw [ofProgram, told]
  cases p.isSingleTape with
  | true => rfl
  | false => rfl

/-- What is read back is what is told, and nothing else of the program is changed. -/
theorem draft_ofProgram (p : Program) : (ofProgram p).draft = .ok (told p) := by
  have hrules : RequestRule.rulesFrom 0 (ofProgram p).rules = .ok p.rules :=
    RequestRule.rulesFrom_map_ofRule p.rules 0
  have hfinals : StateSet.ofList (ofProgram p).finals = p.finals :=
    StateSet.ofList_eq fun _ => Iff.rfl
  calc (ofProgram p).draft
      = .ok { told p with
          finals := .ofList (ofProgram p).finals
          heads := (ofProgram p).headsFor (told p).tapes.length } := by
        rw [draft, pick_ofProgram, hrules]
        rfl
    _ = .ok (told p) := by
        rw [hfinals, headsFor_ofProgram]
        rfl

/-- A request tells all of a program, unless the program is for one tape and has not one tape and
one head. -/
theorem told_eq_self_iff :
    told p = p ↔ (p.tapeCount = 1 → p.tapes.length = 1 ∧ p.heads.length = 1) := by
  have hsingle : p.isSingleTape = true ↔ p.tapeCount = 1 := beq_iff_eq
  by_cases hone : p.tapeCount = 1
  · have htold : told p = { p with tapes := [p.firstTape], heads := [p.firstHead] } := by
      rw [told, hsingle.2 hone]
      rfl
    constructor
    · intro h _
      rw [htold] at h
      rw [← h]
      exact ⟨rfl, rfl⟩
    · intro h
      obtain ⟨w, hw⟩ := List.length_eq_one_iff.1 (h hone).1
      obtain ⟨i, hi⟩ := List.length_eq_one_iff.1 (h hone).2
      rw [htold, Program.firstTape, Program.firstHead, hw, hi]
      change { p with tapes := [w], heads := [i] } = p
      rw [← hw, ← hi]
  · have htold : told p = p := by
      rw [told, Bool.eq_false_iff.2 (mt hsingle.1 hone)]
      rfl
    exact ⟨fun _ h => absurd h hone, fun _ => htold⟩

/-- **A request for a program is a request for this program.**  It is answered by the limits where
the program is beyond them, by the first defect of the program where it has one, and otherwise by
the program itself. -/
theorem program_ofProgram (l : Limits) (p : Program)
    (hp : p.tapeCount ≠ 1 ∨ p.tapeCount = 1 ∧ p.tapes.length = 1 ∧ p.heads.length = 1) :
    (∀ e, l.check p = .error e → (ofProgram p).program l = .error e) ∧
      (∀ d, l.check p = .ok () → p.check = .error d →
        (ofProgram p).program l = .error (.structural d)) ∧
      (l.check p = .ok () → p.check = .ok () → (ofProgram p).program l = .ok p) := by
  have htold : told p = p := told_eq_self_iff.2 fun hone =>
    hp.elim (fun hne => absurd hone hne) And.right
  have hprogram : (ofProgram p).program l =
      (do l.check p; p.check.mapError Error.structural; return p) := by
    rw [program, draft_ofProgram, htold]
    rfl
  rw [hprogram]
  refine ⟨fun e he => ?_, fun d hl hd => ?_, fun hl hd => ?_⟩
  · rw [he]
    rfl
  · rw [hl, hd]
    rfl
  · rw [hl, hd]
    rfl

end Request

/-- A program for two tapes with a rule for one and a rule whose parts have different lengths. -/
def uneven : Program where
  name := "Uneven"
  initial := "q"
  finals := .ofList ["r"]
  blank := '_'
  tapes := [['a'], []]
  heads := [0, -2]
  tapeCount := 2
  rules := [
    ⟨"q", ['a', '_'], ['b', '_'], [.right, .stay], "q"⟩,
    ⟨"q", ['_'], ['a'], [.left], "r"⟩,
    ⟨"r", [], ['b'], [.left, .right, .stay], "q"⟩]
  maxSteps := 10
  detectLoops := false

theorem Request.program_ofProgram_uneven :
    (uneven.tapeCount ≠ 1 ∨
      uneven.tapeCount = 1 ∧ uneven.tapes.length = 1 ∧ uneven.heads.length = 1) ∧
    ({} : Limits).check uneven = .ok () ∧
    uneven.check = .error (.ruleArity 1 "q" 1 1 1 2) ∧
    (ofProgram uneven).program {} = .error (.structural (.ruleArity 1 "q" 1 1 1 2)) := by
  have htwo : uneven.tapeCount ≠ 1 := by decide
  have hlimits : ({} : Limits).check uneven = .ok () := by decide
  have hcheck : uneven.check = .error (.ruleArity 1 "q" 1 1 1 2) := by decide
  exact ⟨.inl htwo, hlimits, hcheck,
    (program_ofProgram {} uneven (.inl htwo)).2.1 _ hlimits hcheck⟩

end TapeMachine
