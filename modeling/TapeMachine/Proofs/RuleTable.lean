import TapeMachine.RuleTable
import TapeMachine.Proofs.Results
import Mathlib.Tactic

/-!
# Rule table

The table finds what a search through the rules in their order finds, with its place
(`RuleTable.find?_ofRules`, `RuleTable.lookup_ofRules`), and there is a table for rules that are all
written for the same number of tapes (`RuleTable.exists_ofRules`).
-/

namespace TapeMachine

namespace RuleTable

variable {rules : List Rule} {i n : Nat} {b b' : Building} {t : RuleTable}

theorem Building.index_add (b : Building) (i : Nat) (r : Rule) (k : RuleKey) :
    (b.add i r).index[k]? = b.index[k]?.or (if r.key = k then some (i, r) else none) := by
  rw [add]
  split
  · next hc =>
      rw [Std.HashMap.contains_eq_isSome_getElem?] at hc
      obtain ⟨x, hx⟩ := Option.isSome_iff_exists.mp hc
      split
      · next hk => rw [← hk, hx, Option.some_or]
      · rw [Option.or_none]
  · next hc =>
      rw [Std.HashMap.getElem?_insert]
      by_cases hk : r.key = k
      · subst hk
        rw [Std.HashMap.getElem?_eq_none_of_contains_eq_false (by simpa using hc)]
        simp
      · simp [hk]

/-- What is added to a table while it is built is found after what was in it before. -/
theorem Building.index_addAll (h : b.addAll n i rules = .ok b') (k : RuleKey) :
    b'.index[k]? = b.index[k]?.or (((rules.zipIdx i).find? (·.1.key = k)).map Prod.swap) := by
  induction rules generalizing b i with
  | nil =>
      cases h
      exact Option.or_none.symm
  | cons r rules ih =>
      rw [addAll, Rule.checkArity] at h
      split at h
      · rw [ih h, index_add, Option.or_assoc, List.zipIdx_cons]
        by_cases hk : r.key = k <;> simp [hk]
      · cases h

theorem find?_ofRules (h : ofRules rules n = .ok t) (s : State) (w : Word) :
    t.find? s w = ((rules.zipIdx).find? (·.1.key = (s, w))).map Prod.swap := by
  obtain ⟨b, hb, h⟩ := bind_eq_ok_iff.1 h
  cases h
  rw [find?, Building.index_addAll hb, Std.HashMap.getElem?_empty]
  rfl

theorem lookup_ofRules (h : ofRules rules n = .ok t) (s : State) (w : Word) :
    t.lookup s w = rules.find? (·.key = (s, w)) := by
  have hfst : rules = rules.zipIdx.map Prod.fst := (List.zipIdx_map_fst 0 rules).symm
  rw [lookup, find?_ofRules h, Option.map_map, hfst, List.find?_map, ← hfst]
  rfl

/-- The rule that is found stands at the place that is found, and no rule before it has its key. -/
theorem first_of_find? (h : ofRules rules n = .ok t) {s : State} {w : Word} {r : Rule}
    (hf : t.find? s w = some (i, r)) :
    rules[i]? = some r ∧ ∀ j < i, ∀ r', rules[j]? = some r' → r'.key ≠ r.key := by
  rw [find?_ofRules h, Option.map_eq_some_iff] at hf
  obtain ⟨⟨r₁, i₁⟩, hf, heq⟩ := hf
  cases heq
  obtain ⟨hkey, k, hk, hget, hbefore⟩ := List.find?_eq_some_iff_getElem.1 hf
  rw [List.getElem_zipIdx, Prod.mk.injEq, Nat.zero_add] at hget
  obtain ⟨rfl, rfl⟩ := hget
  refine ⟨List.getElem?_eq_getElem _, fun j hj r' hr' hsame => ?_⟩
  obtain ⟨hlen, rfl⟩ := List.getElem?_eq_some_iff.1 hr'
  have hne := hbefore j hj
  rw [List.getElem_zipIdx, hsame, hkey] at hne
  cases hne

theorem Building.exists_addAll (h : ∀ r ∈ rules, r.HasArity n) :
    ∃ b', b.addAll n i rules = .ok b' := by
  induction rules generalizing b i with
  | nil => exact ⟨b, rfl⟩
  | cons r rules ih =>
      rw [addAll, Rule.checkArity, if_pos (h r List.mem_cons_self)]
      exact ih fun r' hr' => h r' (List.mem_cons_of_mem _ hr')

theorem exists_ofRules (h : ∀ r ∈ rules, r.HasArity n) : ∃ t, ofRules rules n = .ok t := by
  obtain ⟨b, hb⟩ := Building.exists_addAll (b := {}) (i := 0) h
  exact ⟨_, by rw [ofRules, hb]; rfl⟩

end RuleTable

end TapeMachine
