import TapeMachine.Program.Finding
import TapeMachine.Proofs.Steps
import Mathlib.Tactic

/-!
# Program — Reach

The search for the states that the rules lead to leaves none out: the initial state is met, and with
a state the next states of its rules (`Program.initial_mem_reached`, `Program.next_mem_reached`).
And it meets no other states, so that the finding about states that are never met is exact
(`Program.reachFinding_exact`).

Two facts make up for the depth-first order.  What a rule of a state that has been met leads to is
met as well or waits on the stack (`Search.Covers`), whatever the order.  And each turn takes up one
state of the stack or the rules of a state that is met for the first time, so that after one turn
more than there are rules nothing waits (`Search.stack_run`).
-/

namespace TapeMachine

namespace Search

variable {rules : List Rule} {x y : Search} {initial s : State}

/-! ### The end of a search -/

/-- The turns that a search may still take: one for each state on the stack, and one for each rule
of a state that has not been met. -/
def left (rules : List Rule) (x : Search) : Nat :=
  x.stack.length + rules.countP (·.state ∉ x.visited)

theorem length_successors (rules : List Rule) (s : State) :
    (successors rules s).length = rules.countP (·.state = s) := by
  rw [successors, List.length_map, List.countP_eq_length_filter]

/-- The rules of a state that has not been met count until it is. -/
theorem countP_not_mem_cons (hs : s ∉ x.visited) :
    rules.countP (·.state ∉ x.visited) =
      rules.countP (·.state = s) + rules.countP (·.state ∉ s :: x.visited) := by
  induction rules with
  | nil => rfl
  | cons r rules ih =>
      simp only [List.countP_cons, ih]
      by_cases hr : r.state = s
      · simp [hr, hs]
        omega
      · simp [hr]
        omega

theorem left_step (h : x.step rules = some y) : y.left rules < x.left rules := by
  obtain ⟨stack, visited⟩ := x
  cases stack with
  | nil => cases h
  | cons s stack =>
      simp only [step] at h
      split at h
      · cases h
        simp only [left, List.length_cons]
        omega
      · next hs =>
          cases h
          have hfresh := List.length_filter_le (· ∉ s :: visited) (successors rules s)
          rw [length_successors] at hfresh
          simp only [left, List.length_append, List.length_reverse, List.length_cons,
            countP_not_mem_cons (x := ⟨s :: stack, visited⟩) hs]
          omega

theorem step_eq_none (h : x.step rules = none) : x.stack = [] := by
  obtain ⟨stack, visited⟩ := x
  cases stack with
  | nil => rfl
  | cons s stack =>
      simp only [step] at h
      split at h <;> cases h

theorem stack_eq_nil_of_left (h : x.left rules = 0) : x.stack = [] := by
  rw [left] at h
  exact List.length_eq_zero_iff.1 (by omega)

/-- After as many turns as it may take, a search has nothing left to look at. -/
theorem stack_run {turns : Nat} (h : x.left rules ≤ turns) : (x.run rules turns).stack = [] := by
  induction turns generalizing x with
  | zero => exact stack_eq_nil_of_left (Nat.le_zero.1 h)
  | succ turns ih =>
      rw [run]
      cases hs : x.step rules with
      | none => exact step_eq_none hs
      | some y => exact ih (Nat.le_of_lt_succ ((left_step hs).trans_le h))

/-- A turn of a search takes one state from the stack. -/
abbrev Turn (rules : List Rule) (x y : Search) : Prop := x.step rules = some y

/-- A search comes turn by turn to where it is taken in a number of turns, or earlier. -/
theorem exists_turns_run (rules : List Rule) (x : Search) (turns : Nat) :
    ∃ n ≤ turns, InSteps (Turn rules) n x (x.run rules turns) := by
  induction turns generalizing x with
  | zero => exact ⟨0, le_rfl, .refl x⟩
  | succ turns ih =>
      rw [run]
      cases hs : x.step rules with
      | none => exact ⟨0, Nat.zero_le _, .refl x⟩
      | some y =>
          obtain ⟨n, hn, hrun⟩ := ih y
          have hfirst : InSteps (Turn rules) 1 x y := .single hs
          exact ⟨1 + n, by omega, hfirst.trans hrun⟩

/-! ### What a search covers -/

/-- The initial state, and what a rule of a state that has been met leads to, is met or waits. -/
structure Covers (initial : State) (rules : List Rule) (x : Search) : Prop where
  initial_mem : initial ∈ x.visited ∨ initial ∈ x.stack
  next_mem : ∀ r ∈ rules, r.state ∈ x.visited → r.next ∈ x.visited ∨ r.next ∈ x.stack

theorem covers_start (initial : State) (rules : List Rule) : (start initial).Covers initial rules :=
  ⟨.inr List.mem_cons_self, fun _ _ h => absurd h List.not_mem_nil⟩

theorem Covers.step (h : x.Covers initial rules) (hs : x.step rules = some y) :
    y.Covers initial rules := by
  obtain ⟨stack, visited⟩ := x
  cases stack with
  | nil => cases hs
  | cons s stack =>
      simp only [Search.step] at hs
      split at hs
      · next hmem =>
          -- A state that is met once more leaves the stack, and stays met.
          cases hs
          have hkeep (t : State) (ht : t ∈ visited ∨ t ∈ s :: stack) : t ∈ visited ∨ t ∈ stack :=
            ht.elim .inl fun ht => (List.mem_cons.1 ht).elim (fun e => .inl (e ▸ hmem)) .inr
          exact ⟨hkeep _ h.initial_mem, fun r hr hv => hkeep _ (h.next_mem r hr hv)⟩
      · cases hs
        have hkeep (t : State) (ht : t ∈ visited ∨ t ∈ s :: stack) : t ∈ s :: visited ∨
            t ∈ ((successors rules s).filter (· ∉ s :: visited)).reverse ++ stack := by
          rcases ht with ht | ht
          · exact .inl (List.mem_cons_of_mem s ht)
          · exact (List.mem_cons.1 ht).elim (fun e => .inl (e ▸ List.mem_cons_self))
              fun ht => .inr (List.mem_append_right _ ht)
        refine ⟨hkeep _ h.initial_mem, fun r hr hv => ?_⟩
        rcases List.mem_cons.1 hv with hrs | hv
        · by_cases hn : r.next ∈ s :: visited
          · exact .inl hn
          · refine .inr (List.mem_append_left _ (List.mem_reverse.2 (List.mem_filter.2 ⟨?_, ?_⟩)))
            · exact List.mem_map.2 ⟨r, List.mem_filter.2 ⟨hr, decide_eq_true hrs⟩, rfl⟩
            · exact decide_eq_true hn
        · exact hkeep _ (h.next_mem r hr hv)

theorem Covers.run (h : x.Covers initial rules) (turns : Nat) :
    (x.run rules turns).Covers initial rules := by
  induction turns generalizing x with
  | zero => exact h
  | succ turns ih =>
      rw [Search.run]
      cases hs : x.step rules with
      | none => exact h
      | some y => exact ih (h.step hs)

/-! ### What a search meets -/

/-- A chain of rules leads from a state to another one, or there is nothing to go. -/
inductive Leads (rules : List Rule) (initial : State) : State → Prop where
  | refl : Leads rules initial initial
  | rule {r : Rule} (h : Leads rules initial r.state) (hr : r ∈ rules) : Leads rules initial r.next

/-- Rules lead to all states that have been met, and to those that wait. -/
structure Sound (initial : State) (rules : List Rule) (x : Search) : Prop where
  visited : ∀ s ∈ x.visited, Leads rules initial s
  stack : ∀ s ∈ x.stack, Leads rules initial s

theorem sound_start (initial : State) (rules : List Rule) : (start initial).Sound initial rules :=
  ⟨nofun, fun _ h => List.mem_singleton.1 h ▸ .refl⟩

/-- Rules lead on to the next states of the rules of a state. -/
theorem Leads.of_mem_successors {t : State} (h : Leads rules initial s)
    (ht : t ∈ successors rules s) : Leads rules initial t := by
  obtain ⟨r, hr, rfl⟩ := List.mem_map.1 ht
  obtain ⟨hr, hstate⟩ := List.mem_filter.1 hr
  rw [← of_decide_eq_true hstate] at h
  exact h.rule hr

theorem Sound.step (h : x.Sound initial rules) (hs : x.step rules = some y) :
    y.Sound initial rules := by
  obtain ⟨stack, visited⟩ := x
  cases stack with
  | nil => cases hs
  | cons s stack =>
      obtain ⟨hvisited, hstack⟩ := h
      obtain ⟨hfirst, hrest⟩ := List.forall_mem_cons.1 hstack
      simp only [Search.step] at hs
      split at hs
      · cases hs
        exact ⟨hvisited, hrest⟩
      · cases hs
        refine ⟨List.forall_mem_cons.2 ⟨hfirst, hvisited⟩, List.forall_mem_append.2 ⟨?_, hrest⟩⟩
        intro t ht
        exact hfirst.of_mem_successors (List.mem_filter.1 (List.mem_reverse.1 ht)).1

theorem Sound.run (h : x.Sound initial rules) (turns : Nat) :
    (x.run rules turns).Sound initial rules := by
  induction turns generalizing x with
  | zero => exact h
  | succ turns ih =>
      rw [Search.run]
      cases hs : x.step rules with
      | none => exact h
      | some y => exact ih (h.step hs)

end Search

namespace Program

variable {p : Program} {r : Rule} {s : State}

/-- When the search ends, nothing waits. -/
theorem stack_reached (p : Program) :
    ((Search.start p.initial).run p.rules (p.rules.length + 1)).stack = [] := by
  refine Search.stack_run ?_
  have := List.countP_le_length (l := p.rules)
    (p := fun r => decide (r.state ∉ (Search.start p.initial).visited))
  simp only [Search.left, Search.start, List.length_singleton] at this ⊢
  omega

/-- **The search leaves no state out.** -/
theorem reached_covers (p : Program) : p.initial ∈ p.reached ∧
    ∀ r ∈ p.rules, r.state ∈ p.reached → r.next ∈ p.reached := by
  have hcovers := (Search.covers_start p.initial p.rules).run (p.rules.length + 1)
  have hstack := p.stack_reached
  have hmet {t : State} : t ∈ p.reached ∨ t ∈ (Search.run _ _ _).stack → t ∈ p.reached :=
    fun ht => ht.elim id fun ht => absurd (hstack ▸ ht) List.not_mem_nil
  exact ⟨hmet hcovers.initial_mem, fun r hr hv => hmet (hcovers.next_mem r hr hv)⟩

theorem initial_mem_reached (p : Program) : p.initial ∈ p.reached := p.reached_covers.1

theorem next_mem_reached (hr : r ∈ p.rules) (h : r.state ∈ p.reached) : r.next ∈ p.reached :=
  p.reached_covers.2 r hr h

/-- The states that are never met are those of rules that the search has not come to. -/
theorem mem_unreachableStates :
    s ∈ p.unreachableStates ↔ (∃ r ∈ p.rules, r.state = s) ∧ s ∉ p.reached := by
  rw [unreachableStates, StateSet.mem_ofList, List.mem_filter, List.mem_map, decide_eq_true_iff]

/-- The search meets the states that a chain of rules leads to. -/
theorem mem_reached_iff : s ∈ p.reached ↔ Search.Leads p.rules p.initial s := by
  constructor
  · exact ((Search.sound_start p.initial p.rules).run _).visited s
  · intro h
    induction h with
    | refl => exact p.initial_mem_reached
    | rule _ hr ih => exact next_mem_reached hr ih

theorem mem_unreachableStates_iff_leads : s ∈ p.unreachableStates.toList ↔
    (∃ r ∈ p.rules, r.state = s) ∧ ¬ Search.Leads p.rules p.initial s := by
  rw [← mem_reached_iff]
  exact mem_unreachableStates

theorem reachFinding_eq (p : Program) : p.reachFinding =
    if p.unreachableStates.toList = [] then []
    else [.unreachableStates p.unreachableStates.toList] := by
  rw [reachFinding]
  split
  · next h => rw [if_pos h]
  · next h => rw [if_neg h]

theorem reachFinding_eq_nil_iff : p.reachFinding = [] ↔ p.unreachableStates.toList = [] := by
  rw [reachFinding_eq]
  split
  · next h => exact iff_of_true rfl h
  · next h => exact iff_of_false (List.cons_ne_nil _ _) h

/-- **The finding about states that are never met is exact.**  The search for what is met takes at
most one state more from its stack than there are rules, and then the stack is empty.  What is found
are the states of rules that no chain of rules leads to from the initial state, each of them once
and in ascending order, and nothing if there are none. -/
theorem reachFinding_exact (p : Program) :
    (∃ n ≤ 1 + p.rules.length, ∃ x, InSteps (Search.Turn p.rules) n (.start p.initial) x ∧
      x.stack = [] ∧ x.visited = p.reached) ∧
    (∃ ss : List State, p.reachFinding = (if ss = [] then [] else [.unreachableStates ss]) ∧
      ss.Pairwise (· < ·) ∧
      ∀ s, s ∈ ss ↔ (∃ r ∈ p.rules, r.state = s) ∧ ¬ Search.Leads p.rules p.initial s) ∧
    (p.reachFinding = [] ↔ ∀ r ∈ p.rules, Search.Leads p.rules p.initial r.state) := by
  refine ⟨?_, ⟨_, p.reachFinding_eq, p.unreachableStates.ascending,
    fun s => mem_unreachableStates_iff_leads⟩, ?_⟩
  · obtain ⟨n, hn, hturns⟩ := Search.exists_turns_run p.rules (.start p.initial) (p.rules.length + 1)
    exact ⟨n, by omega, _, hturns, p.stack_reached, rfl⟩
  · rw [reachFinding_eq_nil_iff, List.eq_nil_iff_forall_not_mem]
    simp only [mem_unreachableStates_iff_leads]
    constructor
    · intro h r hr
      by_contra hleads
      exact h r.state ⟨⟨r, hr, rfl⟩, hleads⟩
    · rintro h s ⟨⟨r, hr, rfl⟩, hleads⟩
      exact hleads (h r hr)

end Program

end TapeMachine
