/-!
# State sets

Finite sets of states, as lists in strictly ascending order of code points. Two sets with the same
members are the same list, and what is listed from a set is listed in this order.
-/

namespace TapeMachine

/-- The name of a state. -/
abbrev State := String

/-- A finite set of states. -/
structure StateSet where
  toList : List State
  ascending : toList.Pairwise (· < ·) := by simp
  deriving DecidableEq

namespace StateSet

/-- Puts a state at its place in an ascending list, unless it is there already. -/
def place (s : State) : List State → List State
  | [] => [s]
  | t :: ts => if s < t then s :: t :: ts else if s = t then t :: ts else t :: place s ts

theorem mem_place {s a : State} {ts : List State} : a ∈ place s ts ↔ a = s ∨ a ∈ ts := by
  induction ts with
  | nil => simp [place]
  | cons t ts ih =>
    simp only [place]
    split
    · simp
    · split
      · simp_all
      · simp only [List.mem_cons, ih]
        exact ⟨fun h => h.elim (fun h => .inr (.inl h)) (fun h => h.imp id .inr),
          fun h => h.elim (fun h => .inr (.inl h)) (fun h => h.imp id .inr)⟩

/-- Of two different states one comes first. -/
theorem lt_of_not_lt {s t : State} (h : ¬ s < t) (hne : s ≠ t) : t < s :=
  Decidable.byContradiction fun h' =>
    hne (String.le_antisymm (String.not_lt.1 h') (String.not_lt.1 h))

theorem pairwise_place (s : State) {ts : List State} (h : ts.Pairwise (· < ·)) :
    (place s ts).Pairwise (· < ·) := by
  induction ts with
  | nil => simp [place]
  | cons t ts ih =>
    obtain ⟨ht, hts⟩ := List.pairwise_cons.1 h
    simp only [place]
    split
    · next hlt =>
      exact List.pairwise_cons.2 ⟨fun a ha => (List.mem_cons.1 ha).elim (fun e => e ▸ hlt)
        fun ha => String.lt_trans hlt (ht a ha), h⟩
    · split
      · exact h
      · next hnlt hne =>
        exact List.pairwise_cons.2 ⟨fun a ha => (mem_place.1 ha).elim
          (fun e => e ▸ lt_of_not_lt hnlt hne) (ht a), ih hts⟩

/-- The set without members. -/
def empty : StateSet := ⟨[], .nil⟩

instance : Inhabited StateSet := ⟨empty⟩

/-- Adds a state. -/
def insert (s : State) (set : StateSet) : StateSet :=
  ⟨place s set.toList, pairwise_place s set.ascending⟩

/-- The set of the states of a list. -/
def ofList (states : List State) : StateSet := states.foldr insert empty

instance : Membership State StateSet := ⟨fun set s => s ∈ set.toList⟩

instance (s : State) (set : StateSet) : Decidable (s ∈ set) :=
  inferInstanceAs (Decidable (s ∈ set.toList))

theorem mem_insert {s a : State} {set : StateSet} : a ∈ set.insert s ↔ a = s ∨ a ∈ set := mem_place

theorem mem_ofList {a : State} {states : List State} : a ∈ ofList states ↔ a ∈ states := by
  induction states with
  | nil => simp [ofList, empty, Membership.mem]
  | cons s states ih => simp [show ofList (s :: states) = (ofList states).insert s from rfl,
      mem_insert, ih]

end StateSet

end TapeMachine
