import TapeMachine.StateSet
import Mathlib.Data.List.Sort

/-!
# State sets — Extensionality

Two sets with the same members are the same list.
-/

namespace TapeMachine.StateSet

theorem nodup_toList (set : StateSet) : set.toList.Nodup :=
  set.ascending.imp fun hlt e => by
    rw [e] at hlt
    exact String.lt_irrefl _ hlt

@[ext]
theorem ext_mem {set set' : StateSet} (h : ∀ s, s ∈ set ↔ s ∈ set') : set = set' := by
  obtain ⟨ss, hss⟩ := set
  obtain ⟨ss', hss'⟩ := set'
  have hperm : ss.Perm ss' :=
    (List.perm_ext_iff_of_nodup (nodup_toList ⟨ss, hss⟩) (nodup_toList ⟨ss', hss'⟩)).2 h
  have hlist : ss = ss' :=
    hperm.eq_of_pairwise (fun _ _ _ _ hlt hlt' => absurd hlt' (String.lt_asymm hlt)) hss hss'
  subst hlist
  rfl

/-- A list of the members of a set makes that set. -/
theorem ofList_eq {set : StateSet} {states : List State} (h : ∀ s, s ∈ states ↔ s ∈ set) :
    ofList states = set := by
  ext s
  rw [mem_ofList, h]

end TapeMachine.StateSet
