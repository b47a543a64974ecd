import TapeMachine.Proofs.Machine.Correspondence
import TapeMachine.Proofs.Program.Findings

/-!
# Machine — The order of rules

Which rule comes first depends on the rules with its key alone, and on their order among each other
(`Program.firstRule_eq_head?`).  A rule that is found to be shadowed never comes first
(`Program.firstRule_rulesWithout`).  So a program without some of its shadowed rules, and with the
others in another order, goes through the same configurations, as long as rules with the same key
keep their order: it has the same execution (`Machine.execute_reordered`).
-/

namespace TapeMachine

/-- A first hit is still the first one when items other than it are left out. -/
theorem find?_filter_of_keeps {α : Type} {keep hit : α → Bool} {as : List α}
    (h : ∀ a, as.find? hit = some a → keep a = true) :
    (as.filter keep).find? hit = as.find? hit := by
  induction as with
  | nil => rfl
  | cons a as ih =>
      by_cases ha : hit a = true
      · have hfirst : (a :: as).find? hit = some a := List.find?_cons_of_pos ha
        rw [hfirst, List.filter_cons_of_pos (h a hfirst), List.find?_cons_of_pos ha]
      · rw [List.find?_cons_of_neg ha] at h ⊢
        by_cases hk : keep a = true
        · rw [List.filter_cons_of_pos hk, List.find?_cons_of_neg ha, ih h]
        · rw [List.filter_cons_of_neg hk, ih h]

/-- The same rules in another order, in which those with the same key follow each other as
before. -/
structure Rule.Reordered (rules rules' : List Rule) : Prop where
  perm : rules'.Perm rules
  filter_key : ∀ k, rules'.filter (·.key = k) = rules.filter (·.key = k)

namespace Program

variable {p : Program} {rules : List Rule} {places : List Nat}

/-- The program with other rules. -/
def withRules (p : Program) (rules : List Rule) : Program := { p with rules }

/-- The rules without those at some places. -/
def rulesWithout (p : Program) (places : List Nat) : List Rule :=
  (p.rules.zipIdx.filter (·.2 ∉ places)).map Prod.fst

/-- The rules at all of these places are found to be shadowed. -/
def Shadowed (p : Program) (places : List Nat) : Prop :=
  ∀ i ∈ places, ∃ s w, .shadowedRule i s w ∈ p.findings

/-! ### Which rule comes first -/

theorem firstRule_eq_find? (p : Program) (s : State) (w : Word) :
    p.firstRule s w = p.rules.find? (·.key = (s, w)) := by
  rw [firstRule]
  congr 1
  funext r
  simp only [Rule.key, Prod.mk.injEq]

/-- The rule that comes first is the first of those with its key. -/
theorem firstRule_eq_head? (p : Program) (s : State) (w : Word) :
    p.firstRule s w = (p.rules.filter (·.key = (s, w))).head? := by
  rw [firstRule_eq_find?, List.head?_filter]

/-- No rule before a place that is not shadowed has the key of the rule there. -/
theorem Shadowed.exists_before (h : p.Shadowed places) {i : Nat} (hi : i ∈ places) {r : Rule}
    (hr : p.rules[i]? = some r) : ∃ j < i, ∃ r', p.rules[j]? = some r' ∧ r'.key = r.key := by
  obtain ⟨s, w, hmem⟩ := h i hi
  cases holds_of_mem_findings hmem with
  | shadowedRule hi' hj hlt hkey =>
      obtain rfl := Option.some.inj (hr ▸ hi')
      exact ⟨_, hlt, _, hj, hkey⟩

/-- A place whose rule is the first one with its key is not shadowed. -/
theorem Shadowed.not_mem_of_find? (h : p.Shadowed places) {k : RuleKey} {x : Rule × Nat}
    (hx : p.rules.zipIdx.find? (·.1.key = k) = some x) : x.2 ∉ places := by
  intro hmem
  obtain ⟨hkey, i, hi, hget, hbefore⟩ := List.find?_eq_some_iff_getElem.1 hx
  rw [List.getElem_zipIdx, Nat.zero_add] at hget
  subst hget
  have hlen : i < p.rules.length := List.length_zipIdx ▸ hi
  obtain ⟨j, hj, r', hr', hsame⟩ := h.exists_before hmem (List.getElem?_eq_getElem hlen)
  obtain ⟨hjlen, rfl⟩ := List.getElem?_eq_some_iff.1 hr'
  have hne := hbefore j hj
  rw [List.getElem_zipIdx, hsame, hkey] at hne
  cases hne

/-- **Shadowed rules never come first.** -/
theorem Shadowed.firstRule_rulesWithout (h : p.Shadowed places) (s : State) (w : Word) :
    (p.withRules (p.rulesWithout places)).firstRule s w = p.firstRule s w := by
  have hfst : p.rules = p.rules.zipIdx.map Prod.fst := (List.zipIdx_map_fst 0 p.rules).symm
  rw [firstRule_eq_find?, firstRule_eq_find?, withRules, rulesWithout, List.find?_map]
  conv_rhs => rw [hfst, List.find?_map]
  exact congrArg (Option.map Prod.fst)
    (find?_filter_of_keeps fun _ hx => decide_eq_true (h.not_mem_of_find? hx))

theorem firstRule_of_reordered (h : Rule.Reordered p.rules rules) (s : State) (w : Word) :
    (p.withRules rules).firstRule s w = p.firstRule s w := by
  rw [firstRule_eq_head?, firstRule_eq_head?, withRules, h.filter_key]

theorem mem_of_mem_rulesWithout {r : Rule} (h : r ∈ p.rulesWithout places) : r ∈ p.rules := by
  obtain ⟨x, hx, rfl⟩ := List.mem_map.1 h
  exact List.fst_mem_of_mem_zipIdx (List.mem_of_mem_filter hx)

/-! ### Programs with the same first rules -/

theorem WellFormed.withRules (hp : p.WellFormed) (h : ∀ r ∈ rules, r ∈ p.rules) :
    (p.withRules rules).WellFormed :=
  { hp with hasArity := fun r hr => hp.hasArity r (h r hr) }

/-- The rules of a program are only ever asked which of them comes first. -/
theorem corresponds_withRules
    (h : ∀ s w, (p.withRules rules).firstRule s w = p.firstRule s w) :
    p.Corresponds (p.withRules rules) Eq id where
  maxSteps_eq := rfl
  detectLoops_eq := rfl
  initial := rfl
  ruleAt_eq := by
    rintro c _ rfl
    rw [Option.map_id, ruleAt, h]
    rfl
  apply := by
    rintro c _ c' d' r rfl - hc' hd'
    exact Except.ok.inj (hc'.symm.trans hd')
  finals_iff := by
    rintro c _ rfl
    exact Iff.rfl
  fingerprint_iff := by
    rintro c _ c' _ rfl rfl
    exact Iff.rfl

end Program

namespace Machine

variable {p : Program} {rules : List Rule}

/-- Programs that differ in rules that never come first have the same execution. -/
theorem execute_withRules (hp : p.WellFormed) (hm : p.Modest) (hmem : ∀ r ∈ rules, r ∈ p.rules)
    (h : ∀ s w, (p.withRules rules).firstRule s w = p.firstRule s w) :
    ∃ m₁ m₂ e, ofProgram p = .ok m₁ ∧ m₁.execute = .ok e ∧
      ofProgram (p.withRules rules) = .ok m₂ ∧ m₂.execute = .ok e := by
  have hq := hp.withRules hmem
  obtain ⟨m₁, e₁, m₂, e₂, hm₁, he₁, hm₂, he₂, hhalt, hsteps, hend, hentries⟩ :=
    execute_of_corresponds
      (.of_modest (Program.corresponds_withRules h) hp hm hq ⟨hm.maxSteps_le, hm.length_lt⟩) hp hq
  have htrace : e₂.trace = e₁.trace := by
    refine Program.trace_eq_of_entriesAlike (fun n r c d hcd => ?_) hentries
    rw [hcd]
  obtain rfl : e₂ = e₁ := by
    cases e₁
    cases e₂
    exact Execution.mk.injEq .. ▸ ⟨hhalt, hend.symm, hsteps, htrace⟩
  exact ⟨m₁, m₂, e₂, hm₁, he₁, hm₂, he₂⟩

/-- **Only the order of rules with the same key matters.**  A program without defects stays one
without any of the rules that are found to be shadowed, and with the others in another order, if
rules for the same state and symbols keep their order; and it has the same execution: it halts for
the same reason, after the same number of steps, with the same trace, in the same configuration. -/
theorem execute_reordered (p : Program) (places : List Nat) (rules : List Rule)
    (hp : p.check = .ok ()) (hm : p.Modest) (hplaces : p.Shadowed places)
    (hrules : Rule.Reordered (p.rulesWithout places) rules) :
    (p.withRules rules).check = .ok () ∧ ∃ m₁ m₂ e, ofProgram p = .ok m₁ ∧ m₁.execute = .ok e ∧
      ofProgram (p.withRules rules) = .ok m₂ ∧ m₂.execute = .ok e := by
  have hwf := Program.check_eq_ok_iff.1 hp
  have hmem : ∀ r ∈ rules, r ∈ p.rules := fun r hr =>
    Program.mem_of_mem_rulesWithout (hrules.perm.mem_iff.1 hr)
  have hfirst (s : State) (w : Word) : (p.withRules rules).firstRule s w = p.firstRule s w :=
    calc (p.withRules rules).firstRule s w
        = (p.withRules (p.rulesWithout places)).firstRule s w :=
          Program.firstRule_of_reordered (p := p.withRules (p.rulesWithout places)) hrules s w
      _ = p.firstRule s w := hplaces.firstRule_rulesWithout s w
  exact ⟨Program.check_eq_ok_iff.2 (hwf.withRules hmem), execute_withRules hwf hm hmem hfirst⟩

/-- `carry` with one more rule that is shadowed. -/
def crowded : Program :=
  carry.withRules (carry.rules ++ [⟨"go", ['a', '_'], ['b', 'b'], [.stay, .stay], "done"⟩])

/-- One of the shadowed rules is left out, and a rule is moved to the front.  The run accepts after
three steps all the same. -/
theorem execute_reordered_crowded :
    crowded.check = .ok () ∧ crowded.Modest ∧ crowded.Shadowed [1] ∧
    Rule.Reordered (crowded.rulesWithout [1]) [⟨"go", ['b', '_'], ['b', '_'], [.stay, .stay], "done"⟩,
      ⟨"go", ['a', '_'], ['_', 'a'], [.right, .left], "go"⟩,
      ⟨"go", ['a', '_'], ['b', 'b'], [.stay, .stay], "done"⟩] ∧
    ∃ m e, ofProgram (crowded.withRules [⟨"go", ['b', '_'], ['b', '_'], [.stay, .stay], "done"⟩,
        ⟨"go", ['a', '_'], ['_', 'a'], [.right, .left], "go"⟩,
        ⟨"go", ['a', '_'], ['b', 'b'], [.stay, .stay], "done"⟩]) = .ok m ∧
      m.execute = .ok e ∧ e.halt = .accepted ∧ e.totalSteps = 3 ∧ e.configuration = carried := by
  have hmodest : crowded.Modest := ⟨by decide, by decide⟩
  have hshadowed : crowded.Shadowed [1] := by
    intro i hi
    obtain rfl := List.mem_singleton.1 hi
    exact ⟨"go", ['a', '_'], by decide⟩
  have hreordered : Rule.Reordered (crowded.rulesWithout [1])
      [⟨"go", ['b', '_'], ['b', '_'], [.stay, .stay], "done"⟩,
        ⟨"go", ['a', '_'], ['_', 'a'], [.right, .left], "go"⟩,
        ⟨"go", ['a', '_'], ['b', 'b'], [.stay, .stay], "done"⟩] := by
    refine ⟨by decide, fun k => ?_⟩
    have hkept : crowded.rulesWithout [1] =
        [⟨"go", ['a', '_'], ['_', 'a'], [.right, .left], "go"⟩,
          ⟨"go", ['b', '_'], ['b', '_'], [.stay, .stay], "done"⟩,
          ⟨"go", ['a', '_'], ['b', 'b'], [.stay, .stay], "done"⟩] := by decide
    rw [hkept]
    by_cases hb : ("go", ['b', '_']) = k
    · subst hb
      decide
    · simp [List.filter_cons, Rule.key, hb]
  obtain ⟨-, m₁, m₂, e, hm₁, he₁, hm₂, he₂⟩ :=
    execute_reordered crowded [1] _ rfl hmodest hshadowed hreordered
  have hwf : crowded.WellFormed := Program.check_eq_ok_iff.1 rfl
  have hleast : IsLeast {n | crowded.StopsAt n} 3 :=
    Program.isLeast_stopsAt_iff.2 (by decide +kernel)
  have hafter : crowded.after 3 = some carried := by decide +kernel
  have hreason : crowded.reasonAt 3 carried = .accepted := by decide +kernel
  obtain ⟨m, hrun, hs, hend⟩ := exists_run_of_isLeast hm₁ hwf
    (Program.neverBreaks_of_modest hwf hmodest hmodest.maxSteps_le) hleast hafter hreason
  obtain rfl := Except.ok.inj ((execute_of_run hrun).symm.trans he₁)
  exact ⟨rfl, hmodest, hshadowed, hreordered, m₂, _, hm₂, he₂, rfl, hs.steps_eq, hend⟩

end Machine

end TapeMachine
