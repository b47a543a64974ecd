import TapeMachine.Proofs.Program.Findings
import TapeMachine.Proofs.RuleTable

/-!
# Rule table — Linear search

The table against the list of rules that it is built from.  What it tells of a state and the symbols
read is what a search through the list tells, and so is which rules are never found
(`RuleTable.ofRules_agrees`).  The latter is told a second time, and in another way, by the findings
about a program (`RuleTable.Building.shadowed_addAll`).

There is no table if a rule is written for another number of tapes, and the first such rule is the
one that is told of (`RuleTable.ofRules_eq_error_iff`).
-/

namespace TapeMachine

/-! ### The first rule of another arity -/

namespace Rule

variable {rules : List Rule} {r r' : Rule} {i n : Nat} {d : Defect}

/-- The rule at place `i` is the first one that is not written for `n` tapes. -/
structure FirstMisfit (n : Nat) (rules : List Rule) (i : Nat) (r : Rule) : Prop where
  get_eq : rules[i]? = some r
  misfit : ¬ r.HasArity n
  before : ∀ j < i, ∀ r', rules[j]? = some r' → r'.HasArity n

/-- The defect of rules for `n` tapes with a rule of another arity at place `i`. -/
def arityDefect (r : Rule) (i n : Nat) : Defect :=
  .ruleArity i r.state r.read.length r.write.length r.moves.length n

theorem firstMisfit_cons : FirstMisfit n (r :: rules) i r' ↔
    (i = 0 ∧ r = r' ∧ ¬ r.HasArity n) ∨
      (r.HasArity n ∧ ∃ j, i = j + 1 ∧ FirstMisfit n rules j r') := by
  constructor
  · rintro ⟨hget, hmisfit, hbefore⟩
    cases i with
    | zero =>
        obtain rfl := Option.some.inj hget
        exact .inl ⟨rfl, rfl, hmisfit⟩
    | succ j =>
        refine .inr ⟨hbefore 0 j.succ_pos r rfl, j, rfl, hget, hmisfit, fun k hk r₁ hr₁ => ?_⟩
        exact hbefore (k + 1) (Nat.succ_lt_succ hk) r₁ hr₁
  · rintro (⟨rfl, rfl, hmisfit⟩ | ⟨hr, j, rfl, hget, hmisfit, hbefore⟩)
    · exact ⟨rfl, hmisfit, nofun⟩
    · refine ⟨hget, hmisfit, fun k hk r₁ hr₁ => ?_⟩
      cases k with
      | zero => exact Option.some.inj hr₁ ▸ hr
      | succ k => exact hbefore k (Nat.lt_of_succ_lt_succ hk) r₁ hr₁

/-- A check of rules fails with the first one of another arity. -/
theorem checkArities_eq_error_iff : checkArities n i rules = .error d ↔
    ∃ j r, FirstMisfit n rules j r ∧ d = r.arityDefect (i + j) n := by
  induction rules generalizing i with
  | nil =>
      refine ⟨nofun, ?_⟩
      rintro ⟨j, r, h, -⟩
      cases h.get_eq
  | cons r rules ih =>
      rw [checkArities, checkArity]
      by_cases hr : r.HasArity n
      · rw [if_pos hr]
        refine Iff.trans ih ⟨?_, ?_⟩
        · rintro ⟨j, r', h, rfl⟩
          exact ⟨j + 1, r', firstMisfit_cons.2 (.inr ⟨hr, j, rfl, h⟩), by rw [Nat.succ_add_eq_add_succ]⟩
        · rintro ⟨j, r', h, rfl⟩
          rcases firstMisfit_cons.1 h with ⟨-, -, hmisfit⟩ | ⟨-, k, rfl, hk⟩
          · exact absurd hr hmisfit
          · exact ⟨k, r', hk, by rw [Nat.succ_add_eq_add_succ]⟩
      · rw [if_neg hr]
        constructor
        · rintro ⟨⟩
          exact ⟨0, r, firstMisfit_cons.2 (.inl ⟨rfl, rfl, hr⟩), rfl⟩
        · rintro ⟨j, r', h, rfl⟩
          rcases firstMisfit_cons.1 h with ⟨rfl, rfl, -⟩ | ⟨hr', -⟩
          · rfl
          · exact absurd hr' hr

end Rule

/-- The place of the rule that a finding calls shadowed. -/
def Finding.shadowedPlace? : Finding → Option Nat
  | .shadowedRule index _ _ => some index
  | _ => none

namespace RuleTable

variable {rules : List Rule} {r : Rule} {s : State} {w : Word} {i n : Nat} {d : Defect}
  {b b' : Building} {t : RuleTable}

/-! ### Building the table -/

theorem Building.addAll_cons_eq_ok : b.addAll n i (r :: rules) = .ok b' ↔
    r.HasArity n ∧ (b.add i r).addAll n (i + 1) rules = .ok b' := by
  rw [addAll, Rule.checkArity]
  by_cases hr : r.HasArity n
  · rw [if_pos hr, and_iff_right hr]
    exact Iff.rfl
  · rw [if_neg hr]
    constructor
    · intro h
      cases h
    · exact fun h => absurd h.1 hr

/-- Rules are refused as by a check of their arities. -/
theorem Building.addAll_eq_error_iff :
    b.addAll n i rules = .error d ↔ Rule.checkArities n i rules = .error d := by
  induction rules generalizing b i with
  | nil => exact ⟨nofun, nofun⟩
  | cons r rules ih =>
      rw [addAll, Rule.checkArities, bind_eq_error_iff, bind_eq_error_iff]
      simp only [ih]

theorem ofRules_eq_error_iff :
    ofRules rules n = .error d ↔ ∃ i r, Rule.FirstMisfit n rules i r ∧ d = r.arityDefect i n := by
  have h : ofRules rules n = .error d ↔ ({} : Building).addAll n 0 rules = .error d := by
    rw [ofRules, bind_eq_error_iff]
    refine or_iff_left ?_
    rintro ⟨b, -, ⟨⟩⟩
  rw [h, Building.addAll_eq_error_iff, Rule.checkArities_eq_error_iff]
  simp only [Nat.zero_add]

/-- The states of all keys of the index are known. -/
def Building.KnowsStates (b : Building) : Prop :=
  ∀ k, b.index.contains k = true → b.states.contains k.1 = true

/-- The state of a rule is known when the rule is added, whether or not it is shadowed. -/
theorem Building.contains_states_add (hb : b.KnowsStates) :
    (b.add i r).states.contains s = true ↔ b.states.contains s = true ∨ r.state = s := by
  rw [add]
  split
  · next hc =>
      refine ⟨.inl, fun h => h.elim id ?_⟩
      rintro rfl
      exact hb r.key hc
  · rw [Std.HashMap.contains_insert, Bool.or_eq_true, beq_iff_eq, or_comm]

theorem Building.KnowsStates.add (hb : b.KnowsStates) : (b.add i r).KnowsStates := by
  intro k hk
  rw [contains_states_add hb]
  rw [Building.add] at hk
  split at hk
  · exact .inl (hb k hk)
  · rw [Std.HashMap.contains_insert, Bool.or_eq_true, beq_iff_eq] at hk
    rcases hk with rfl | hk
    · exact .inr rfl
    · exact .inl (hb k hk)

theorem Building.contains_states_addAll (hb : b.KnowsStates) (h : b.addAll n i rules = .ok b') :
    b'.states.contains s = true ↔ b.states.contains s = true ∨ ∃ r ∈ rules, r.state = s := by
  induction rules generalizing b i with
  | nil =>
      cases h
      simp
  | cons r rules ih =>
      rw [ih hb.add (addAll_cons_eq_ok.1 h).2, contains_states_add hb, or_assoc,
        List.exists_mem_cons_iff]

theorem hasRulesFor_ofRules (h : ofRules rules n = .ok t) (s : State) :
    t.hasRulesFor s = true ↔ ∃ r ∈ rules, r.state = s := by
  obtain ⟨b, hb, h⟩ := bind_eq_ok_iff.1 h
  cases h
  have hnone : ({} : Building).KnowsStates := fun k hk => by simp at hk
  rw [hasRulesFor, Building.contains_states_addAll hnone hb]
  simp

/-! ### Shadowed rules -/

/-- The places that are noted down for shadowed rules are those of the findings. -/
theorem Building.shadowed_addAll {seen : List RuleKey}
    (hseen : ∀ k, b.index.contains k = true ↔ k ∈ seen) (h : b.addAll n i rules = .ok b') :
    b'.shadowed.reverse = b.shadowed.reverse ++
      (Program.shadowFindings seen i rules).filterMap Finding.shadowedPlace? := by
  induction rules generalizing b i seen with
  | nil =>
      cases h
      exact (List.append_nil _).symm
  | cons r rules ih =>
      have h := (addAll_cons_eq_ok.1 h).2
      have hkey : b.index.contains r.key = true ↔ (r.state, r.read) ∈ seen := hseen r.key
      rw [Program.shadowFindings]
      rw [Building.add] at h
      by_cases hc : b.index.contains r.key = true
      · rw [if_pos hc] at h
        rw [if_pos (hkey.1 hc), ih (b := { b with shadowed := i :: b.shadowed }) hseen h,
          List.reverse_cons, List.append_assoc]
        rfl
      · rw [if_neg hc] at h
        rw [if_neg (mt hkey.2 hc)]
        have hmore : ∀ k, (b.index.insert r.key (i, r)).contains k = true ↔
            k ∈ (r.state, r.read) :: seen := by
          intro k
          rw [Std.HashMap.contains_insert, Bool.or_eq_true, beq_iff_eq, hseen, List.mem_cons,
            eq_comm]
          rfl
        exact ih (b := ⟨b.index.insert r.key (i, r), b.states.insert r.state (), b.shadowed⟩)
          hmore h

theorem shadowed_ofRules (h : ofRules rules n = .ok t) :
    t.shadowed = (Program.shadowFindings [] 0 rules).filterMap Finding.shadowedPlace? := by
  obtain ⟨b, hb, h⟩ := bind_eq_ok_iff.1 h
  cases h
  exact Building.shadowed_addAll (fun k => by simp) hb

end RuleTable

namespace Program

variable {p : Program} {rules : List Rule} {seen : List RuleKey} {i : Nat}

/-- Findings of other kinds are not about places. -/
theorem filterMap_findings (p : Program) : p.findings.filterMap Finding.shadowedPlace? =
    (shadowFindings [] 0 p.rules).filterMap Finding.shadowedPlace? := by
  have hinitial : p.initialFinding.filterMap Finding.shadowedPlace? = [] := by
    rw [initialFinding]
    split <;> rfl
  have hreach : p.reachFinding.filterMap Finding.shadowedPlace? = [] := by
    rw [reachFinding]
    split <;> rfl
  have hfinal : p.finalFinding.filterMap Finding.shadowedPlace? = [] := by
    rw [finalFinding]
    split <;> rfl
  rw [findings, List.filterMap_append, List.filterMap_append, List.filterMap_append, hinitial,
    hreach, hfinal, List.nil_append, List.nil_append, List.append_nil]

/-- The places of shadowed rules come in ascending order. -/
theorem pairwise_shadowFindings (seen : List RuleKey) (i : Nat) (rules : List Rule) :
    ((shadowFindings seen i rules).filterMap Finding.shadowedPlace?).Pairwise (· < ·) := by
  induction rules generalizing seen i with
  | nil => exact .nil
  | cons r rules ih =>
      rw [shadowFindings]
      split
      · refine List.pairwise_cons.2 ⟨fun j hj => ?_, ih seen (i + 1)⟩
        obtain ⟨f, hf, hplace⟩ := List.mem_filterMap.1 hj
        obtain ⟨k, r', -, rfl, -⟩ := exists_of_mem_shadowFindings hf
        obtain rfl := Option.some.inj hplace
        omega
      · exact ih _ (i + 1)

/-- The places of shadowed rules are those with the key of an earlier rule. -/
theorem mem_shadowedPlaces {j : Nat} :
    j ∈ (shadowFindings [] 0 rules).filterMap Finding.shadowedPlace? ↔
      ∃ r, rules[j]? = some r ∧ ∃ k < j, ∃ r', rules[k]? = some r' ∧ r'.key = r.key := by
  rw [List.mem_filterMap]
  constructor
  · rintro ⟨f, hf, hplace⟩
    obtain ⟨i, r, hr, rfl, hkey⟩ := exists_of_mem_shadowFindings hf
    obtain rfl := Option.some.inj hplace
    obtain ⟨k, r', hk, hr', hkey⟩ := hkey.resolve_left List.not_mem_nil
    rw [Nat.zero_add]
    exact ⟨r, hr, k, hk, r', hr', hkey⟩
  · rintro ⟨r, hr, k, hk, r', hr', hkey⟩
    refine ⟨_, mem_shadowFindings hr (.inr ⟨k, r', hk, hr', hkey⟩), ?_⟩
    rw [Nat.zero_add]
    rfl

end Program

namespace RuleTable

/-- **The table agrees with a linear search.**  There is none if a rule is not written for so many
tapes, and the first such rule is told of.  Otherwise, for every state and symbols, it finds the
first rule for them, if any; it knows which states have rules; and it lists in ascending order the
places of the rules that come after another one for the same state and symbols.  These are the
places, in order, of the shadowed rules among the findings about any program with these rules. -/
theorem ofRules_agrees (rules : List Rule) (n : Nat) :
    (∀ d, ofRules rules n = .error d ↔
      ∃ i r, Rule.FirstMisfit n rules i r ∧ d = r.arityDefect i n) ∧
    ((∀ r ∈ rules, r.HasArity n) → ∃ t, ofRules rules n = .ok t ∧
      (∀ s w, t.lookup s w = rules.find? fun r => r.state = s ∧ r.read = w) ∧
      (∀ s, t.hasRulesFor s = true ↔ ∃ r ∈ rules, r.state = s) ∧
      t.shadowed.Pairwise (· < ·) ∧
      (∀ i, i ∈ t.shadowed ↔ ∃ r, rules[i]? = some r ∧
        ∃ j < i, ∃ r', rules[j]? = some r' ∧ r'.state = r.state ∧ r'.read = r.read) ∧
      ∀ p : Program, p.rules = rules →
        p.findings.filterMap Finding.shadowedPlace? = t.shadowed) := by
  refine ⟨fun d => ofRules_eq_error_iff, fun h => ?_⟩
  obtain ⟨t, ht⟩ := exists_ofRules h
  refine ⟨t, ht, fun s w => ?_, hasRulesFor_ofRules ht, ?_, fun i => ?_, ?_⟩
  · rw [lookup_ofRules ht]
    congr 1
    funext r
    simp only [Rule.key, Prod.mk.injEq]
  · rw [shadowed_ofRules ht]
    exact Program.pairwise_shadowFindings [] 0 rules
  · rw [shadowed_ofRules ht, Program.mem_shadowedPlaces]
    simp only [Rule.key, Prod.mk.injEq]
  · rintro p rfl
    rw [Program.filterMap_findings, shadowed_ofRules ht]

/-- Rules of which the last one comes after another one with its key. -/
def twins : List Rule := [
  ⟨"q", ['a'], ['b'], [.right], "q"⟩,
  ⟨"q", ['b'], ['b'], [.stay], "r"⟩,
  ⟨"q", ['a'], ['a'], [.left], "r"⟩]

theorem ofRules_agrees_twins : (∀ r ∈ twins, r.HasArity 1) ∧ ∃ t, ofRules twins 1 = .ok t ∧
    t.lookup "q" ['a'] = some ⟨"q", ['a'], ['b'], [.right], "q"⟩ ∧ t.lookup "r" ['a'] = none ∧
    t.hasRulesFor "r" ≠ true ∧ 2 ∈ t.shadowed ∧ 0 ∉ t.shadowed := by
  have harity : ∀ r ∈ twins, r.HasArity 1 := by decide
  obtain ⟨t, ht, hlookup, hstates, -, hshadowed, -⟩ := (ofRules_agrees twins 1).2 harity
  refine ⟨harity, t, ht, (hlookup _ _).trans (by decide), (hlookup _ _).trans (by decide), ?_,
    (hshadowed 2).2 ⟨_, rfl, 0, by decide, _, rfl, rfl, rfl⟩, fun h => ?_⟩
  · rw [Ne, hstates]
    decide
  · obtain ⟨-, -, j, hj, -⟩ := (hshadowed 0).1 h
    exact j.not_lt_zero hj

end RuleTable

end TapeMachine
