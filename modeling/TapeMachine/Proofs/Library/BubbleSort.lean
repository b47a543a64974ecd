import TapeMachine.Proofs.Library.Programs
import TapeMachine.Proofs.Machine.OneTape
import Mathlib.Data.Char
import Mathlib.Data.List.Sort

/-!
# Library — Bubble sort

Bubble sort goes over the digits from left to right and remembers the one it has just passed.  At
the first digit that is smaller than the one before it, the two change places (`swapFirst`), and it
starts over (`reaches_start`); if there is none, the digits are in order, and it is done
(`reaches_done`).  Each such exchange takes away one inversion, that is one pair of digits in the
wrong order (`inversions_of_swapFirst`), so there is an end to the rounds (`exists_reaches_done`).
-/

namespace TapeMachine.Library.BubbleSort

/-! ### Exchanges -/

section Exchange

variable {α : Type} [LinearOrder α] {v v' : List α}

/-- The first entry that is less than the one before it changes places with that one, if there is
one. -/
def swapFirst : List α → Option (List α)
  | c :: d :: v => if d < c then some (d :: c :: v) else (swapFirst (d :: v)).map (c :: ·)
  | _ => none

/-- The number of pairs of entries in the wrong order. -/
def inversions : List α → Nat
  | [] => 0
  | c :: v => v.countP (· < c) + inversions v

theorem isChain_of_swapFirst (h : swapFirst v = none) : v.IsChain (· ≤ ·) := by
  fun_induction swapFirst v with
  | case1 c d v hlt => cases h
  | case2 c d v hge ih =>
      have hrest := ih (Option.map_eq_none_iff.mp h)
      exact .cons_cons (not_lt.mp hge) hrest
  | case3 v hv =>
      match v with
      | [] => exact .nil
      | [c] => exact .singleton c
      | c :: d :: v => exact absurd rfl (hv c d v)

theorem perm_of_swapFirst (h : swapFirst v = some v') : v'.Perm v := by
  fun_induction swapFirst v generalizing v' with
  | case1 c d v hlt =>
      cases h
      exact .swap c d v
  | case2 c d v hge ih =>
      obtain ⟨u, hu, rfl⟩ := Option.map_eq_some_iff.mp h
      exact (ih hu).cons c
  | case3 v hv => cases h

/-- An exchange takes away one inversion. -/
theorem inversions_of_swapFirst (h : swapFirst v = some v') :
    inversions v = inversions v' + 1 := by
  fun_induction swapFirst v generalizing v' with
  | case1 c d v hlt =>
      cases h
      calc
        inversions (c :: d :: v)
          = v.countP (· < c) + 1 + (v.countP (· < d) + inversions v) := by
              simp [inversions, hlt]
        _ = v.countP (· < d) + (v.countP (· < c) + inversions v) + 1 := by omega
        _ = inversions (d :: c :: v) + 1 := by
              simp [inversions, hlt.asymm]
  | case2 c d v hge ih =>
      obtain ⟨u, hu, rfl⟩ := Option.map_eq_some_iff.mp h
      have hcount : u.countP (· < c) = (d :: v).countP (· < c) := (perm_of_swapFirst hu).countP_eq _
      rw [inversions, ih hu, inversions, hcount, Nat.add_assoc]
  | case3 v hv => cases h

end Exchange

/-! ### Digits -/

/-- What bubble sort comes to on a strip. -/
abbrev Reaches : Strip → Strip → Prop := Strip.Reaches bubbleSort

/-- The symbol of a digit. -/
def digit : Fin 5 → Symbol
  | 0 => '0'
  | 1 => '1'
  | 2 => '2'
  | 3 => '3'
  | 4 => '4'

/-- The state after a digit that is in order. -/
def passed : Fin 5 → State
  | 0 => "s0"
  | 1 => "s1"
  | 2 => "s2"
  | 3 => "s3"
  | 4 => "s4"

/-- The state in which a digit is put in the place of the greater one before it. -/
def putting : Fin 5 → State
  | 0 => "put0"
  | 1 => "put1"
  | 2 => "put2"
  | 3 => "put3"
  | 4 => "put4"

variable {c d : Fin 5} {v v' : List (Fin 5)} {l r : Word}

/-- What bubble sort does by one of its rules. -/
abbrev Does : State → Symbol → Symbol → Move → State → Prop := bubbleSort.Does

theorem does_start (d : Fin 5) : Does "start" (digit d) (digit d) .right (passed d) := by
  decide +revert

theorem does_pass (h : c ≤ d) : Does (passed c) (digit d) (digit d) .right (passed d) := by
  decide +revert

theorem does_take (h : d < c) : Does (passed c) (digit d) (digit c) .left (putting d) := by
  decide +revert

theorem does_put (h : d < c) : Does (putting d) (digit c) (digit d) .left "rewind" := by
  decide +revert

theorem does_rewind (d : Fin 5) : Does "rewind" (digit d) (digit d) .left "rewind" := by
  decide +revert

theorem does_finish (d : Fin 5) : Does (passed d) '_' '_' .stay "done" := by decide +revert

theorem digit_le_digit (h : c ≤ d) : digit c ≤ digit d := by decide +revert

/-- Every word over the digits is one of digits. -/
theorem exists_eq_map_digit {w : Word} (hw : ∀ x ∈ w, x ∈ ['0', '1', '2', '3', '4']) :
    ∃ v : List (Fin 5), w = v.map digit :=
  exists_eq_map_of_mem (List.finRange 5) hw

theorem blank_not_mem_map_digit (v : List (Fin 5)) : '_' ∉ v.map digit := by
  intro h
  obtain ⟨d, -, hd⟩ := List.mem_map.mp h
  revert d
  decide

/-! ### Rounds -/

/-- Digits in order are passed to their end. -/
theorem reaches_finish (h : (c :: v).IsChain (· ≤ ·)) (l r : Word) :
    Reaches ⟨passed c, digit c :: l, v.map digit ++ '_' :: r⟩
      ⟨"done", ((c :: v).map digit).reverse ++ l, '_' :: r⟩ := by
  induction v generalizing c l with
  | nil => exact Strip.reaches_stay (does_finish c)
  | cons d v ih =>
      obtain ⟨hle, hrest⟩ := List.isChain_cons_cons.mp h
      calc
        Reaches ⟨passed c, digit c :: l, digit d :: (v.map digit ++ '_' :: r)⟩
            ⟨passed d, digit d :: digit c :: l, v.map digit ++ '_' :: r⟩ :=
          Strip.reaches_right (does_pass hle)
        Reaches _ ⟨"done", ((d :: v).map digit).reverse ++ digit c :: l, '_' :: r⟩ :=
          ih hrest (digit c :: l)
        _ = ⟨"done", ((c :: d :: v).map digit).reverse ++ l, '_' :: r⟩ := by simp

/-- The first digit out of order and the one before it change places, and the digits before these
are gone back over. -/
theorem reaches_rewind (h : swapFirst (c :: v) = some v') (hl : l ≠ []) (r : Word) :
    Reaches ⟨passed c, digit c :: l, v.map digit ++ r⟩
      (.leftward "rewind" l (v'.map digit ++ r)) := by
  induction v generalizing c v' l with
  | nil => cases h
  | cons d v ih =>
      rw [swapFirst] at h
      split at h
      · next hlt =>
        cases h
        calc
          Reaches (.leftward (passed c) (digit d :: digit c :: l) (v.map digit ++ r))
              (.leftward (putting d) (digit c :: l) (digit c :: (v.map digit ++ r))) :=
            Strip.reaches_left (does_take hlt) (by simp)
          Reaches _ (.leftward "rewind" l (digit d :: digit c :: (v.map digit ++ r))) :=
            Strip.reaches_left (does_put hlt) hl
      · next hge =>
        obtain ⟨u, hu, rfl⟩ := Option.map_eq_some_iff.mp h
        calc
          Reaches ⟨passed c, digit c :: l, digit d :: (v.map digit ++ r)⟩
              ⟨passed d, digit d :: digit c :: l, v.map digit ++ r⟩ :=
            Strip.reaches_right (does_pass (not_lt.mp hge))
          Reaches _ (.leftward "rewind" (digit c :: l) (u.map digit ++ r)) :=
            ih hu (by simp)
          Reaches _ (.leftward "rewind" l (digit c :: (u.map digit ++ r))) :=
            Strip.reaches_left (does_rewind c) hl

/-- **One round** makes the first exchange and starts over. -/
theorem reaches_start (h : swapFirst v = some v') (r : Word) :
    Reaches ⟨"start", ['_'], v.map digit ++ r⟩ ⟨"start", ['_'], v'.map digit ++ r⟩ := by
  cases v with
  | nil => cases h
  | cons c v =>
      calc
        Reaches ⟨"start", ['_'], digit c :: (v.map digit ++ r)⟩
            ⟨passed c, [digit c, '_'], v.map digit ++ r⟩ :=
          Strip.reaches_right (does_start c)
        Reaches _ (.leftward "rewind" ['_'] (v'.map digit ++ r)) :=
          reaches_rewind h (by simp) r
        Reaches _ ⟨"start", ['_'], v'.map digit ++ r⟩ := Strip.reaches_right (by decide)

/-- Without an exchange the last round comes to the end. -/
theorem reaches_done (h : swapFirst v = none) (r : Word) :
    Reaches ⟨"start", ['_'], v.map digit ++ '_' :: r⟩
      ⟨"done", (v.map digit).reverse ++ ['_'], '_' :: r⟩ := by
  cases v with
  | nil => exact Strip.reaches_stay (by decide)
  | cons c v =>
      exact (Strip.reaches_right (does_start c)).trans (reaches_finish (isChain_of_swapFirst h) _ r)

/-! ### The whole run -/

/-- Round by round, bubble sort comes to the digits in order. -/
theorem exists_reaches_done (v : List (Fin 5)) (r : Word) :
    ∃ u : List (Fin 5), u.Perm v ∧ u.Pairwise (· ≤ ·) ∧
      Reaches ⟨"start", ['_'], v.map digit ++ '_' :: r⟩
        ⟨"done", (u.map digit).reverse ++ ['_'], '_' :: r⟩ := by
  -- the inversions that are left bound the rounds to come
  induction hn : inversions v using Nat.strong_induction_on generalizing v with
  | h n ih =>
      cases hv : swapFirst v with
      | none =>
          exact ⟨v, .refl v, List.isChain_iff_pairwise.mp (isChain_of_swapFirst hv),
            reaches_done hv r⟩
      | some v' =>
          have hless : inversions v' < n := by
            have := inversions_of_swapFirst hv
            omega
          obtain ⟨u, hperm, hsorted, hreaches⟩ := ih _ hless v' rfl
          exact ⟨u, hperm.trans (perm_of_swapFirst hv), hsorted,
            (reaches_start hv ('_' :: r)).trans hreaches⟩

/-- **Bubble sort sorts.**  On digits it halts, with any budget beyond the steps to the halt and
whether it looks for loops or not; it accepts, and leaves the same digits in non-decreasing
order. -/
theorem sorts (w : Word) (hw : ∀ x ∈ w, x ∈ ['0', '1', '2', '3', '4'])
    (hsize : w.length < 1099511627776) :
    ∃ p, named "Bubble Sort" = .ok p ∧ p.HaltsOn w fun e =>
      e.halt = .accepted ∧ e.finalState = "done" ∧
      ∃ v : Word, e.finalTapes = [v] ∧ v.Perm w ∧ v.Pairwise (· ≤ ·) := by
  obtain ⟨v, rfl⟩ := exists_eq_map_digit hw
  obtain ⟨u, hperm, hsorted, hreaches⟩ := exists_reaches_done v []
  have hcells : (Strip.mk "done" ((u.map digit).reverse ++ ['_']) ['_']).cells =
      List.replicate 1 '_' ++ u.map digit ++ List.replicate 1 '_' := by
    simp [Strip.cells]
  have hroom : 1 + (v.map digit).length + 1 < 4398046511104 := by omega
  have hfinal : "done" ∈ bubbleSort.finals := by decide
  have hhalts := Program.accepts_of_reaches wellFormed_bubbleSort rfl rfl hroom hreaches
    (Strip.stuck_of_firstRule (by decide)) hfinal hcells
    (trimmed_of_not_mem (blank_not_mem_map_digit u))
  refine ⟨bubbleSort, named_bubbleSort, hhalts.mono ?_⟩
  rintro e ⟨hhalt, hstate, htapes⟩
  exact ⟨hhalt, hstate, u.map digit, htapes, hperm.map digit,
    hsorted.map digit fun _ _ => digit_le_digit⟩

/-- A digit that occurs twice, and one that has to go all the way to the front. -/
theorem sorts_mixed : (∀ x ∈ ['3', '1', '4', '1', '0'], x ∈ ['0', '1', '2', '3', '4']) ∧
    ['3', '1', '4', '1', '0'].length < 1099511627776 ∧
    ∃ p, named "Bubble Sort" = .ok p ∧ p.HaltsOn ['3', '1', '4', '1', '0'] fun e =>
      e.halt = .accepted ∧ e.finalTapes = [['0', '1', '1', '3', '4']] := by
  have hw : ∀ x ∈ ['3', '1', '4', '1', '0'], x ∈ ['0', '1', '2', '3', '4'] := by simp
  have hsorted : ['0', '1', '1', '3', '4'].Pairwise (· ≤ ·) := by decide
  have hperm : List.Perm ['3', '1', '4', '1', '0'] ['0', '1', '1', '3', '4'] := by decide
  obtain ⟨p, hp, hhalts⟩ := sorts ['3', '1', '4', '1', '0'] hw (by decide)
  refine ⟨hw, by decide, p, hp, hhalts.mono ?_⟩
  rintro e ⟨hhalt, -, v, htapes, hv, hle⟩
  obtain rfl : v = ['0', '1', '1', '3', '4'] :=
    (hv.trans hperm).eq_of_pairwise (fun _ _ _ _ => le_antisymm) hle hsorted
  exact ⟨hhalt, htapes⟩

end TapeMachine.Library.BubbleSort
