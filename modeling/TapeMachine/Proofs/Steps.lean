import Mathlib.Logic.Relation

/-!
# Steps

Where a relation leads in a number of steps.  It leads there in any number of steps if it does so in
some number of them (`reflTransGen_iff_inSteps`).
-/

namespace TapeMachine

variable {α : Type} {r q : α → α → Prop} {a b c : α} {m n : Nat}

/-- A relation leads from one thing to another in so many steps. -/
inductive InSteps (r : α → α → Prop) : Nat → α → α → Prop where
  | refl (a : α) : InSteps r 0 a a
  | tail {n : Nat} {a b c : α} (h : InSteps r n a b) (hstep : r b c) : InSteps r (n + 1) a c

theorem InSteps.single (h : r a b) : InSteps r 1 a b := .tail (.refl a) h

theorem InSteps.trans (h : InSteps r m a b) (h' : InSteps r n b c) : InSteps r (m + n) a c := by
  induction h' with
  | refl => exact h
  | tail _ hstep ih => exact (ih h).tail hstep

instance : Trans (InSteps r m) (InSteps r n) (InSteps r (m + n)) := ⟨InSteps.trans⟩

theorem InSteps.mono (h : InSteps r n a b) (hq : ∀ a b, r a b → q a b) : InSteps q n a b := by
  induction h with
  | refl a => exact .refl a
  | tail _ hstep ih => exact ih.tail (hq _ _ hstep)

theorem InSteps.reflTransGen (h : InSteps r n a b) : Relation.ReflTransGen r a b := by
  induction h with
  | refl => exact .refl
  | tail _ hstep ih => exact ih.tail hstep

theorem reflTransGen_iff_inSteps : Relation.ReflTransGen r a b ↔ ∃ n, InSteps r n a b := by
  refine ⟨fun h => ?_, fun ⟨n, h⟩ => h.reflTransGen⟩
  induction h with
  | refl => exact ⟨0, .refl a⟩
  | tail _ hstep ih =>
      obtain ⟨n, hn⟩ := ih
      exact ⟨n + 1, hn.tail hstep⟩

end TapeMachine
