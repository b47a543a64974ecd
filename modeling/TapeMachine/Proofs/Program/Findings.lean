import TapeMachine.Program.Finding
import TapeMachine.Proofs.Program.Course
import TapeMachine.Proofs.Program.Reach
import TapeMachine.RuleTable

/-!
# Program — Findings

A finding says something about the rules of a program (`Finding.Holds`), and of each finding that is
made it is true (`Program.holds_of_mem_findings`).

What it means for a course: a course starts in the initial state, and each of its steps goes from
the state of a rule to the next state of that rule (`Program.state_induction`).  So it comes only to
states that the search comes to, and only to the initial state and to states that some rule goes to.
-/

namespace TapeMachine

/-- What a finding says about a program. -/
inductive Finding.Holds (p : Program) : Finding → Prop where
  /-- No rule is for the initial state. -/
  | initialStateWithoutRules (h : ∀ r ∈ p.rules, r.state ≠ p.initial) :
      Holds p (.initialStateWithoutRules p.initial)
  /-- The search comes to none of the states. -/
  | unreachableStates {ss : List State} (h : ∀ s ∈ ss, s ∉ p.reached) :
      Holds p (.unreachableStates ss)
  /-- A rule before the one at place `i` has the same key. -/
  | shadowedRule {i j : Nat} {r r' : Rule} (hi : p.rules[i]? = some r) (hj : p.rules[j]? = some r')
      (hlt : j < i) (hkey : r'.key = r.key) : Holds p (.shadowedRule i r.state r.read)
  /-- None of the states is the initial one, and no rule goes to any of them. -/
  | unreachableFinalStates {ss : List State}
      (h : ∀ s ∈ ss, s ≠ p.initial ∧ ∀ r ∈ p.rules, r.next ≠ s) :
      Holds p (.unreachableFinalStates ss)

namespace Program

variable {p : Program} {f : Finding} {c : Configuration} {n : Nat}

/-! ### Findings are true -/

theorem holds_of_mem_initialFinding (h : f ∈ p.initialFinding) : f.Holds p := by
  rw [initialFinding] at h
  split at h
  · cases h
  · next hany =>
      obtain rfl := List.mem_singleton.1 h
      refine .initialStateWithoutRules fun r hr hs => hany ?_
      exact List.any_eq_true.2 ⟨r, hr, decide_eq_true hs⟩

theorem holds_of_mem_reachFinding (h : f ∈ p.reachFinding) : f.Holds p := by
  rw [reachFinding] at h
  split at h
  · cases h
  · obtain rfl := List.mem_singleton.1 h
    exact .unreachableStates fun s hs => (mem_unreachableStates.1 hs).2

theorem holds_of_mem_finalFinding (h : f ∈ p.finalFinding) : f.Holds p := by
  rw [finalFinding] at h
  split at h
  · cases h
  · obtain rfl := List.mem_singleton.1 h
    refine .unreachableFinalStates fun s hs => ?_
    obtain ⟨hne, htargets⟩ := of_decide_eq_true (List.mem_filter.1 hs).2
    exact ⟨hne, fun r hr hnext => htargets (List.mem_map.2 ⟨r, hr, hnext⟩)⟩

/-- A rule is shadowed by a rule before it, or by what has been seen before the first rule. -/
theorem exists_of_mem_shadowFindings {seen : List RuleKey} {index : Nat} {rules : List Rule}
    (h : f ∈ shadowFindings seen index rules) :
    ∃ i r, rules[i]? = some r ∧ f = .shadowedRule (index + i) r.state r.read ∧
      (r.key ∈ seen ∨ ∃ j r', j < i ∧ rules[j]? = some r' ∧ r'.key = r.key) := by
  induction rules generalizing seen index with
  | nil => cases h
  | cons r rules ih =>
      -- What is found among the further rules was seen before all rules, at the first, or later.
      have hmore {seen' : List RuleKey} (hseen : ∀ k ∈ seen', k ∈ seen ∨ k = r.key)
          (h : f ∈ shadowFindings seen' (index + 1) rules) :
          ∃ i r₁, (r :: rules)[i]? = some r₁ ∧ f = .shadowedRule (index + i) r₁.state r₁.read ∧
            (r₁.key ∈ seen ∨ ∃ j r', j < i ∧ (r :: rules)[j]? = some r' ∧ r'.key = r₁.key) := by
        obtain ⟨i, r₁, hi, rfl, hkey⟩ := ih h
        refine ⟨i + 1, r₁, hi, by rw [Nat.add_assoc, Nat.add_comm 1], ?_⟩
        rcases hkey with hkey | ⟨j, r', hj, hr', hkey⟩
        · exact (hseen _ hkey).imp id fun hkey => ⟨0, r, Nat.succ_pos i, rfl, hkey.symm⟩
        · exact .inr ⟨j + 1, r', Nat.succ_lt_succ hj, hr', hkey⟩
      rw [shadowFindings] at h
      split at h
      · next hmem =>
          rcases List.mem_cons.1 h with rfl | h
          · exact ⟨0, r, rfl, rfl, .inl hmem⟩
          · exact hmore (fun k hk => .inl hk) h
      · exact hmore (fun k hk => (List.mem_cons.1 hk).symm) h

/-- A rule with a key that has been seen, or that a rule before it has, is found to be shadowed. -/
theorem mem_shadowFindings {seen : List RuleKey} {index i : Nat} {rules : List Rule} {r : Rule}
    (hr : rules[i]? = some r)
    (h : r.key ∈ seen ∨ ∃ j r', j < i ∧ rules[j]? = some r' ∧ r'.key = r.key) :
    .shadowedRule (index + i) r.state r.read ∈ shadowFindings seen index rules := by
  induction rules generalizing seen index i with
  | nil => cases hr
  | cons r₀ rules ih =>
      rw [shadowFindings]
      cases i with
      | zero =>
          obtain rfl := Option.some.inj hr
          have hseen : (r₀.state, r₀.read) ∈ seen :=
            h.resolve_right fun ⟨j, _, hj, _⟩ => absurd hj j.not_lt_zero
          rw [if_pos hseen]
          exact List.mem_cons_self
      | succ i =>
          -- Whatever comes before the rule has been seen when the further rules are looked at.
          have hmore {seen' : List RuleKey} (hsub : ∀ k ∈ seen, k ∈ seen') (hr₀ : r₀.key ∈ seen') :
              .shadowedRule (index + (i + 1)) r.state r.read ∈
                shadowFindings seen' (index + 1) rules := by
            rw [← Nat.add_assoc, Nat.add_right_comm]
            refine ih hr (h.elim (fun hkey => .inl (hsub _ hkey)) ?_)
            rintro ⟨j, r', hj, hr', hkey⟩
            cases j with
            | zero =>
                obtain rfl := Option.some.inj hr'
                exact .inl (hkey ▸ hr₀)
            | succ j => exact .inr ⟨j, r', Nat.lt_of_succ_lt_succ hj, hr', hkey⟩
          split
          · next hmem => exact List.mem_cons_of_mem _ (hmore (fun _ hk => hk) hmem)
          · exact hmore (fun _ hk => List.mem_cons_of_mem _ hk) List.mem_cons_self

/-- **Findings are true.** -/
theorem holds_of_mem_findings (h : f ∈ p.findings) : f.Holds p := by
  rw [findings, List.mem_append, List.mem_append, List.mem_append] at h
  rcases h with ((h | h) | h) | h
  · exact holds_of_mem_initialFinding h
  · exact holds_of_mem_reachFinding h
  · obtain ⟨i, r, hi, rfl, hkey⟩ := exists_of_mem_shadowFindings h
    rcases hkey with hkey | ⟨j, r', hj, hr', hkey⟩
    · cases hkey
    · rw [Nat.zero_add]
      exact .shadowedRule hi hr' hj hkey
  · exact holds_of_mem_finalFinding h

/-! ### The states of a course -/

theorem state_of_ruleAt {r : Rule} (h : p.ruleAt c = some r) : r.state = c.state := by
  rw [ruleAt, firstRule] at h
  have hkey := List.find?_some h
  exact (of_decide_eq_true hkey).1

/-- What is true of the initial state, and goes over from the state of a rule to its next state, is
true of each state that a course comes to. -/
theorem state_induction {I : State → Prop} (hstart : I p.initial)
    (hstep : ∀ r ∈ p.rules, I r.state → I r.next) (h : p.after n = some c) : I c.state := by
  induction n generalizing c with
  | zero =>
      cases h
      exact hstart
  | succ n ih =>
      obtain ⟨d, r, hd, hrule, happly⟩ := after_succ_eq_some.mp h
      obtain ⟨ts, -, rfl⟩ := Configuration.exists_tracks_of_apply happly
      exact hstep r (mem_of_ruleAt hrule) (state_of_ruleAt hrule ▸ ih hd)

theorem state_mem_reached (h : p.after n = some c) : c.state ∈ p.reached :=
  state_induction p.initial_mem_reached (fun _ hr hs => next_mem_reached hr hs) h

theorem state_eq_initial_or_next (h : p.after n = some c) :
    c.state = p.initial ∨ ∃ r ∈ p.rules, r.next = c.state :=
  state_induction (I := fun s => s = p.initial ∨ ∃ r ∈ p.rules, r.next = s) (.inl rfl)
    (fun r hr _ => .inr ⟨r, hr, rfl⟩) h

/-- Without a rule for the initial state there is no step. -/
theorem after_succ_eq_none (h : ∀ r ∈ p.rules, r.state ≠ p.initial) : p.after (n + 1) = none := by
  by_contra hsome
  obtain ⟨c, hc⟩ := Option.ne_none_iff_exists'.1 hsome
  obtain ⟨d, hd⟩ := exists_after (k := 1) hc (by omega)
  obtain ⟨a, r, ha, hrule, -⟩ := after_succ_eq_some.mp hd
  cases ha
  exact h r (mem_of_ruleAt hrule) (state_of_ruleAt hrule)

end Program

end TapeMachine
