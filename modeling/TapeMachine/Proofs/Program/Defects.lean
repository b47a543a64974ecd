import TapeMachine.Machine
import TapeMachine.Proofs.Program.WellFormed
import TapeMachine.Proofs.RuleTable.Search
import Mathlib.Data.Prod.Lex

/-!
# Program — Defects

A program may have many defects at once (`Program.HasDefect`).  They are ranked by their kind, and
those of one kind by the number of the head or rule they are about (`Defect.rank`).  The check of a
program looks for one kind after the other, and so it finds the defect of least rank
(`Program.findsFirst_check`).

A machine can be built for the programs without defects and for no others: the rule table, which
checks the rules once more, has nothing left to refuse (`Machine.ofProgram_eq_error_iff`).
-/

namespace TapeMachine

variable {p : Program} {d d' : Defect} {x y : Except Defect Unit} {i j k : Nat}

namespace Defect

/-- The place of the kind of a defect in the order of the kinds. -/
def kind : Defect → Nat
  | .noTapes => 0
  | .tapeCount _ _ => 1
  | .headCount _ _ => 2
  | .headOutOfRange _ _ => 3
  | .ruleArity _ _ _ _ _ _ => 4
  | .noFinalStates => 5
  | .noSteps => 6

/-- The number of the head or rule that a defect is about. -/
def number : Defect → Nat
  | .headOutOfRange tape _ => tape
  | .ruleArity index _ _ _ _ _ => index
  | _ => 0

/-- The rank of a defect among all that a program may have. -/
def rank (d : Defect) : Nat ×ₗ Nat := toLex (d.kind, d.number)

theorem kind_lt (d : Defect) : d.kind < 7 := by cases d <;> simp [kind]

theorem rank_le_of_kind_lt (h : d.kind < d'.kind) : d.rank ≤ d'.rank :=
  Prod.Lex.toLex_le_toLex.mpr (.inl h)

theorem rank_le_of_number_le (h : d.kind = d'.kind) (hn : d.number ≤ d'.number) :
    d.rank ≤ d'.rank :=
  Prod.Lex.toLex_le_toLex.mpr (.inr ⟨h, hn⟩)

end Defect

/-- A check finds the first one of some defects, and succeeds if there are none. -/
structure FindsFirst (S : Defect → Prop) (x : Except Defect Unit) : Prop where
  ok : x = .ok () → ∀ d, ¬ S d
  error : ∀ d, x = .error d → S d ∧ ∀ d', S d' → d.rank ≤ d'.rank

namespace FindsFirst

variable {S T : Defect → Prop} {c : Prop}

theorem ok_of_forall_not (h : ∀ d, ¬ S d) : FindsFirst S (.ok ()) where
  ok _ := h
  error _ := nofun

/-- A test for one defect that comes before those that are looked for after it. -/
theorem ite [Decidable c] (hS : ∀ d', S d' ↔ (c ∧ d' = d) ∨ T d')
    (hle : ∀ d', T d' → d.rank ≤ d'.rank) (hy : FindsFirst T y) :
    FindsFirst S (if c then .error d else y) := by
  by_cases hc : c
  · rw [if_pos hc]
    refine ⟨nofun, ?_⟩
    rintro _ ⟨⟩
    refine ⟨(hS d).mpr (.inl ⟨hc, rfl⟩), fun d' hd' => ?_⟩
    rcases (hS d').mp hd' with ⟨-, rfl⟩ | hT
    · exact le_rfl
    · exact hle d' hT
  · have hST : S = T := by
      funext d'
      rw [hS, eq_iff_iff]
      exact or_iff_right fun h => hc h.1
    rw [if_neg hc, hST]
    exact hy

end FindsFirst

namespace Program

/-- A defect of a program, whatever others it has. -/
inductive HasDefect (p : Program) : Defect → Prop where
  | noTapes (h : p.tapeCount = 0 ∨ p.tapes = []) : p.HasDefect .noTapes
  | tapeCount (h : p.tapes.length ≠ p.tapeCount) :
      p.HasDefect (.tapeCount p.tapeCount p.tapes.length)
  | headCount (h : p.heads.length ≠ p.tapeCount) :
      p.HasDefect (.headCount p.tapeCount p.heads.length)
  | headOutOfRange {i : Nat} {content : Word} {head : Int} (hcontent : p.tapes[i]? = some content)
      (hhead : p.heads[i]? = some head) (h : ¬ HeadInRange content head) :
      p.HasDefect (.headOutOfRange i head)
  | ruleArity {i : Nat} {r : Rule} (hr : p.rules[i]? = some r) (h : ¬ r.HasArity p.tapeCount) :
      p.HasDefect (.ruleArity i r.state r.read.length r.write.length r.moves.length p.tapeCount)
  | noFinalStates (h : p.finals.toList = []) : p.HasDefect .noFinalStates
  | noSteps (h : p.maxSteps = 0) : p.HasDefect .noSteps

/-- No two defects of a program have the same rank. -/
theorem HasDefect.eq_of_rank_eq (h : p.HasDefect d) (h' : p.HasDefect d')
    (hrank : d.rank = d'.rank) : d = d' := by
  have hkind : d.kind = d'.kind := congrArg (fun r => (ofLex r).1) hrank
  have hnumber : d.number = d'.number := congrArg (fun r => (ofLex r).2) hrank
  cases h with
  | headOutOfRange _ hhead _ =>
      cases h' with
      | headOutOfRange _ hhead' _ =>
          obtain rfl : _ = _ := hnumber
          obtain rfl := Option.some.inj (hhead.symm.trans hhead')
          rfl
      | _ => cases hkind
  | ruleArity hr _ =>
      cases h' with
      | ruleArity hr' _ =>
          obtain rfl : _ = _ := hnumber
          obtain rfl := Option.some.inj (hr.symm.trans hr')
          rfl
      | _ => cases hkind
  | _ => cases h' <;> first | rfl | cases hkind

/-- A defect of a program of one of the kinds from `i` on and before `j`. -/
def HasDefectIn (p : Program) (i j : Nat) (d : Defect) : Prop :=
  p.HasDefect d ∧ i ≤ d.kind ∧ d.kind < j

end Program

/-- Checks for kinds that follow each other are made one after the other. -/
theorem FindsFirst.andThen (hx : FindsFirst (p.HasDefectIn i j) x) (hij : i ≤ j) (hjk : j ≤ k)
    (hy : FindsFirst (p.HasDefectIn j k) y) : FindsFirst (p.HasDefectIn i k) (do x; y) := by
  constructor
  · rintro hok d ⟨hd, hi, hk⟩
    obtain ⟨hxok, hyok⟩ := Program.andThen_eq_ok.mp hok
    rcases Nat.lt_or_ge d.kind j with hlt | hge
    · exact hx.ok hxok d ⟨hd, hi, hlt⟩
    · exact hy.ok hyok d ⟨hd, hge, hk⟩
  · intro d herror
    rcases bind_eq_error_iff.mp herror with hxerror | ⟨u, hxok, hyerror⟩
    · obtain ⟨⟨hd, hi, hj⟩, hmin⟩ := hx.error d hxerror
      refine ⟨⟨hd, hi, hj.trans_le hjk⟩, ?_⟩
      rintro d' ⟨hd', hi', hk'⟩
      rcases Nat.lt_or_ge d'.kind j with hlt | hge
      · exact hmin d' ⟨hd', hi', hlt⟩
      · exact Defect.rank_le_of_kind_lt (hj.trans_le hge)
    · obtain ⟨⟨hd, hj, hk⟩, hmin⟩ := hy.error d hyerror
      refine ⟨⟨hd, hij.trans hj, hk⟩, ?_⟩
      rintro d' ⟨hd', hi', hk'⟩
      rcases Nat.lt_or_ge d'.kind j with hlt | hge
      · exact absurd ⟨hd', hi', hlt⟩ (hx.ok hxok d')
      · exact hmin d' ⟨hd', hge, hk'⟩

namespace Program

/-! ### The checks -/

theorem not_headInRange_iff {content : Word} {head : Int} :
    ¬ HeadInRange content head ↔ head < -maxHeadOffset ∨ content.length + maxHeadOffset < head := by
  rw [HeadInRange]
  omega

/-- A test for the one defect of its kind. -/
theorem findsFirst_test {c : Prop} [Decidable c] (hd : c → p.HasDefect d)
    (h : ∀ d', p.HasDefect d' → d'.kind = d.kind → c ∧ d' = d) :
    FindsFirst (p.HasDefectIn d.kind (d.kind + 1)) (if c then .error d else .ok ()) := by
  refine .ite (T := fun _ => False) (fun d' => ?_) nofun (.ok_of_forall_not fun _ => id)
  rw [or_false]
  constructor
  · rintro ⟨hd', hi, hj⟩
    exact h d' hd' (by omega)
  · rintro ⟨hc, rfl⟩
    exact ⟨hd hc, le_rfl, Nat.lt_succ_self _⟩

theorem findsFirst_checkTapes (p : Program) : FindsFirst (p.HasDefectIn 0 2) p.checkTapes := by
  have hnone : FindsFirst (p.HasDefectIn 0 1) _ :=
    findsFirst_test .noTapes fun d hd hk => by
      cases hd with
      | noTapes h => exact ⟨h, rfl⟩
      | _ => cases hk
  have hcount : FindsFirst (p.HasDefectIn 1 2) _ :=
    findsFirst_test .tapeCount fun d hd hk => by
      cases hd with
      | tapeCount h => exact ⟨h, rfl⟩
      | _ => cases hk
  convert hnone.andThen (by decide) (by decide) hcount using 1
  rw [checkTapes]
  split_ifs <;> rfl

theorem findsFirst_checkHeads (p : Program) : FindsFirst (p.HasDefectIn 2 3) p.checkHeads :=
  findsFirst_test .headCount fun d hd hk => by
    cases hd with
    | headCount h => exact ⟨h, rfl⟩
    | _ => cases hk

theorem findsFirst_checkFinals (p : Program) : FindsFirst (p.HasDefectIn 5 6) p.checkFinals :=
  findsFirst_test .noFinalStates fun d hd hk => by
    cases hd with
    | noFinalStates h => exact ⟨h, rfl⟩
    | _ => cases hk

theorem findsFirst_checkBudget (p : Program) : FindsFirst (p.HasDefectIn 6 7) p.checkBudget :=
  findsFirst_test .noSteps fun d hd hk => by
    cases hd with
    | noSteps h => exact ⟨h, rfl⟩
    | _ => cases hk

/-- The heads of some tapes, the first of which has the number `i`, that are out of range. -/
def HeadsOut (i : Nat) (ws : List Word) (hs : List Int) (d : Defect) : Prop :=
  ∃ j w h, ws[j]? = some w ∧ hs[j]? = some h ∧ ¬ HeadInRange w h ∧ d = .headOutOfRange (i + j) h

theorem headsOut_cons_iff {w : Word} {ws : List Word} {h : Int} {hs : List Int} :
    HeadsOut i (w :: ws) (h :: hs) d ↔
      (¬ HeadInRange w h ∧ d = .headOutOfRange i h) ∨ HeadsOut (i + 1) ws hs d := by
  constructor
  · rintro ⟨j, w', h', hw, hh, hout, rfl⟩
    cases j with
    | zero =>
        obtain rfl := Option.some.inj hw
        obtain rfl := Option.some.inj hh
        exact .inl ⟨hout, rfl⟩
    | succ j => exact .inr ⟨j, w', h', hw, hh, hout, by rw [Nat.succ_add_eq_add_succ]⟩
  · rintro (⟨hout, rfl⟩ | ⟨j, w', h', hw, hh, hout, rfl⟩)
    · exact ⟨0, w, h, rfl, rfl, hout, rfl⟩
    · exact ⟨j + 1, w', h', hw, hh, hout, by rw [Nat.succ_add_eq_add_succ]⟩

theorem findsFirst_checkHeadRange (i : Nat) (ws : List Word) (hs : List Int) :
    FindsFirst (HeadsOut i ws hs) (checkHeadRange i ws hs) := by
  induction ws generalizing i hs with
  | nil => exact .ok_of_forall_not fun d ⟨j, w, h, hw, _⟩ => nomatch hw
  | cons w ws ih =>
      cases hs with
      | nil => exact .ok_of_forall_not fun d ⟨j, w, h, _, hh, _⟩ => nomatch hh
      | cons h hs =>
          rw [checkHeadRange]
          refine .ite (fun d => ?_) ?_ (ih (i + 1) hs)
          · rw [headsOut_cons_iff, not_headInRange_iff]
          · rintro d ⟨j, w', h', -, -, -, rfl⟩
            exact Defect.rank_le_of_number_le rfl (Nat.le_add_right_of_le (Nat.le_succ i))

/-- The check of all heads is one for the heads of the program that are out of range. -/
theorem hasDefectIn_heads_iff : p.HasDefectIn 3 4 d ↔ HeadsOut 0 p.tapes p.heads d := by
  constructor
  · rintro ⟨hd, hi, hj⟩
    have hk : d.kind = 3 := by omega
    cases hd with
    | headOutOfRange hw hh hout => exact ⟨_, _, _, hw, hh, hout, by rw [Nat.zero_add]⟩
    | _ => cases hk
  · rintro ⟨j, w, h, hw, hh, hout, rfl⟩
    rw [Nat.zero_add]
    exact ⟨.headOutOfRange hw hh hout, le_rfl, Nat.lt_succ_self _⟩

theorem findsFirst_checkArities (p : Program) :
    FindsFirst (p.HasDefectIn 4 5) (Rule.checkArities p.tapeCount 0 p.rules) := by
  constructor
  · rintro hok d ⟨hd, hi, hj⟩
    have hk : d.kind = 4 := by omega
    cases hd with
    | ruleArity hr h => exact h (Rule.checkArities_eq_ok.mp hok _ (List.mem_of_getElem? hr))
    | _ => cases hk
  · intro d herror
    obtain ⟨j, r, hfirst, rfl⟩ := Rule.checkArities_eq_error_iff.mp herror
    rw [Nat.zero_add]
    refine ⟨⟨.ruleArity hfirst.get_eq hfirst.misfit, le_rfl, Nat.lt_succ_self _⟩, ?_⟩
    rintro d' ⟨hd', hi, hj⟩
    have hk : d'.kind = 4 := by omega
    cases hd' with
    | ruleArity hr h =>
        refine Defect.rank_le_of_number_le rfl (Nat.le_of_not_lt fun hlt => h ?_)
        exact hfirst.before _ hlt _ hr
    | _ => cases hk

/-- **The check of a program** finds the defect of least rank. -/
theorem findsFirst_check (p : Program) : FindsFirst p.HasDefect p.check := by
  have hall : p.HasDefectIn 0 7 = p.HasDefect := by
    funext d
    exact propext (and_iff_left ⟨Nat.zero_le _, d.kind_lt⟩)
  have hrange : FindsFirst (p.HasDefectIn 3 4) (checkHeadRange 0 p.tapes p.heads) := by
    have hheads : p.HasDefectIn 3 4 = HeadsOut 0 p.tapes p.heads := by
      funext d
      exact propext hasDefectIn_heads_iff
    rw [hheads]
    exact findsFirst_checkHeadRange 0 p.tapes p.heads
  have hlast := p.findsFirst_checkFinals.andThen (by decide) (by decide) p.findsFirst_checkBudget
  have hrules := p.findsFirst_checkArities.andThen (by decide) (by decide) hlast
  have hheads := p.findsFirst_checkHeads.andThen (by decide) (by decide)
    (hrange.andThen (by decide) (by decide) hrules)
  rw [← hall]
  exact p.findsFirst_checkTapes.andThen (by decide) (by decide) hheads

theorem check_eq_error_iff :
    p.check = .error d ↔ p.HasDefect d ∧ ∀ d', p.HasDefect d' → d.rank ≤ d'.rank := by
  have hfirst := p.findsFirst_check
  refine ⟨hfirst.error d, fun ⟨hd, hmin⟩ => ?_⟩
  cases hcheck : p.check with
  | ok u => exact absurd hd (hfirst.ok hcheck d)
  | error d' =>
      obtain ⟨hd', hmin'⟩ := hfirst.error d' hcheck
      rw [hd.eq_of_rank_eq hd' (le_antisymm (hmin d' hd') (hmin' d hd))]

end Program

namespace Machine

/-- The check of a program is all that is between a program and its machine. -/
theorem ofProgram_eq_error_iff : ofProgram p = .error d ↔ p.check = .error d := by
  rw [ofProgram, bind_eq_error_iff]
  refine or_iff_left ?_
  rintro ⟨u, hcheck, htable⟩
  obtain ⟨t, ht⟩ := RuleTable.exists_ofRules (Program.check_eq_ok_iff.mp hcheck).hasArity
  rw [ht] at htable
  cases htable

end Machine

/-- **The check of a program is exact, and it is the only gate to a machine.**  It succeeds for the
programs whose parts fit together, and otherwise it gives the defect that comes first among all that
the program has: by kind in the order of `Defect.kind`, and the first head or rule of those that are
wrong.  There is no machine for a program exactly if the check fails, and for the same defect. -/
theorem Program.check_exact (p : Program) :
    (p.check = .ok () ↔ p.WellFormed) ∧
    (∀ d, p.check = .error d ↔ p.HasDefect d ∧ ∀ d', p.HasDefect d' → d.rank ≤ d'.rank) ∧
    ∀ d, Machine.ofProgram p = .error d ↔ p.check = .error d :=
  ⟨check_eq_ok_iff, fun _ => check_eq_error_iff, fun _ => Machine.ofProgram_eq_error_iff⟩

end TapeMachine
