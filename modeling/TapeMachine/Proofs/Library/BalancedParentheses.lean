import TapeMachine.Proofs.Library.Programs
import TapeMachine.Proofs.Machine.OneTape
import Mathlib.Data.List.Infix

/-!
# Library — Balanced parentheses

The program crosses off pairs of parentheses, each closing one with the nearest open one before it
(`Scanned.exists_reaches_crossed`).  So the part of the word that it has gone over consists of
crosses and of the open parentheses that still wait to be closed, and the word is balanced if what
is to come closes all of these and its own (`Closes`).  A closing parenthesis with no open one
before it is rejected where it is met, and open ones that are left over are rejected at the end
(`exists_decided`).
-/

namespace TapeMachine

/-- A word of parentheses is balanced if no beginning of it closes more than it opens, and the whole
closes as many as it opens. -/
def Balanced (w : Word) : Prop :=
  (∀ v, v <+: w → v.count ')' ≤ v.count '(') ∧ w.count ')' = w.count '('

instance (w : Word) : Decidable (Balanced w) :=
  decidable_of_iff ((∀ v ∈ w.inits, v.count ')' ≤ v.count '(') ∧ w.count ')' = w.count '(')
    (by simp only [List.mem_inits, Balanced])

namespace Library.BalancedParentheses

open List (replicate)

/-- What the program comes to on a strip. -/
abbrev Reaches : Strip → Strip → Prop := Strip.Reaches balancedParentheses

variable {n k : Nat} {w l r : Word}

/-! ### Open parentheses -/

/-- A word closes so many parentheses that are open before it, and its own. -/
def Closes (n : Nat) (w : Word) : Prop :=
  (∀ v, v <+: w → v.count ')' ≤ n + v.count '(') ∧ w.count ')' = n + w.count '('

theorem closes_zero_iff : Closes 0 w ↔ Balanced w := by simp only [Closes, Balanced, Nat.zero_add]

theorem closes_nil_iff : Closes n [] ↔ n = 0 := by simp [Closes, eq_comm]

theorem forall_prefix_cons {P : Word → Prop} {c : Symbol} :
    (∀ v, v <+: c :: w → P v) ↔ P [] ∧ ∀ v, v <+: w → P (c :: v) := by
  simp only [List.prefix_cons_iff, or_imp, forall_and, forall_eq, forall_exists_index, and_imp]
  exact and_congr_right fun _ => ⟨fun h v => h _ v rfl, fun h _ v hv hw => hv ▸ h v hw⟩

theorem closes_open_iff : Closes n ('(' :: w) ↔ Closes (n + 1) w := by
  have hclose (v : Word) : ('(' :: v).count ')' = v.count ')' := List.count_cons_of_ne (by decide)
  have hopen (v : Word) : n + ('(' :: v).count '(' = n + 1 + v.count '(' := by
    rw [List.count_cons_self]
    omega
  simp only [Closes, forall_prefix_cons, hclose, hopen, List.count_nil, Nat.zero_le, true_and]

theorem closes_close_iff : Closes (n + 1) (')' :: w) ↔ Closes n w := by
  have hopen (v : Word) : (')' :: v).count '(' = v.count '(' := List.count_cons_of_ne (by decide)
  simp only [Closes, forall_prefix_cons, hopen, List.count_cons_self, List.count_nil, Nat.zero_le,
    true_and, Nat.add_right_comm n 1, Nat.add_le_add_iff_right, Nat.add_right_cancel_iff]

theorem not_closes_close : ¬ Closes 0 (')' :: w) := by
  intro h
  have hfirst := h.1 [')'] (List.prefix_append [')'] w)
  revert hfirst
  decide

/-! ### Crosses -/

/-- A part of the word that has been gone over: crosses, and open parentheses. -/
def Scanned (l : Word) : Prop := ∀ c ∈ l, c = 'X' ∨ c = '('

theorem Scanned.eq_replicate (hl : Scanned l) (h : '(' ∉ l) : l = replicate l.length 'X' :=
  List.eq_replicate_of_mem fun c hc => (hl c hc).resolve_right fun he => h (he ▸ hc)

/-- The nearest open parenthesis, with crosses alone before it. -/
theorem Scanned.exists_split (hl : Scanned l) (h : '(' ∈ l) :
    ∃ k l', l = replicate k 'X' ++ '(' :: l' ∧ Scanned l' := by
  obtain ⟨v, l', rfl, hv⟩ := List.eq_append_cons_of_mem h
  have hv' : Scanned v := fun c hc => hl c (List.mem_append_left _ hc)
  refine ⟨v.length, l', ?_, fun c hc => hl c (List.mem_append_right _ (List.mem_cons_of_mem _ hc))⟩
  rw [← hv'.eq_replicate hv]

/-- A state that passes over crosses to the left goes over a part without open parentheses to the
blank before the word. -/
theorem Scanned.reaches_edge {s : State} (hs : balancedParentheses.Does s 'X' 'X' .left s)
    (hl : Scanned l) (hopen : '(' ∉ l) (r : Word) :
    Reaches (.leftward s (l ++ ['_']) r) (.leftward s ['_'] (replicate l.length 'X' ++ r)) := by
  conv_lhs => rw [hl.eq_replicate hopen]
  exact Strip.sweep_left_replicate hs l.length (by simp)

/-- A closing parenthesis goes over the crosses before it back to the nearest open one, and both are
crossed off. -/
theorem reaches_crossed (k : Nat) (l r : Word) :
    Reaches ⟨"q0", replicate k 'X' ++ '(' :: l, ')' :: r⟩
      ⟨"q0", replicate (k + 1) 'X' ++ 'X' :: l, r⟩ :=
  calc
    Reaches (.leftward "q0" (')' :: (replicate k 'X' ++ '(' :: l)) r)
        (.leftward "q1" (replicate k 'X' ++ '(' :: l) ('X' :: r)) :=
      Strip.reaches_left (by decide) (by simp)
    Reaches _ (.leftward "q1" ('(' :: l) (replicate k 'X' ++ 'X' :: r)) :=
      Strip.sweep_left_replicate (by decide) k (by simp)
    Reaches _ ⟨"q0", 'X' :: l, replicate k 'X' ++ 'X' :: r⟩ := Strip.reaches_right (by decide)
    _ = ⟨"q0", 'X' :: l, replicate (k + 1) 'X' ++ r⟩ := by rw [Strip.replicate_append_cons]
    Reaches _ ⟨"q0", replicate (k + 1) 'X' ++ 'X' :: l, r⟩ :=
      Strip.sweep_right_replicate (by decide) (k + 1)

/-- **A pair is crossed off**, and one parenthesis less is open. -/
theorem Scanned.exists_reaches_crossed (hl : Scanned l) (hopen : '(' ∈ l) (r : Word) :
    ∃ l', Scanned l' ∧ l'.length = l.length + 1 ∧ l'.count '(' + 1 = l.count '(' ∧
      Reaches ⟨"q0", l ++ ['_'], ')' :: r⟩ ⟨"q0", l' ++ ['_'], r⟩ := by
  obtain ⟨k, v, rfl, hv⟩ := hl.exists_split hopen
  have hcrosses : Scanned (replicate (k + 1) 'X') := fun c hc => .inl (List.eq_of_mem_replicate hc)
  refine ⟨replicate (k + 1) 'X' ++ 'X' :: v,
    List.forall_mem_append.mpr ⟨hcrosses, List.forall_mem_cons.mpr ⟨.inl rfl, hv⟩⟩, ?_, ?_, ?_⟩
  · simp
    omega
  · simp [List.count_replicate]
  · rw [List.append_assoc, List.append_assoc]
    exact reaches_crossed k (v ++ ['_']) r

/-! ### The whole run -/

/-- A strip on which the program has decided about a word, and has crossed off so many parentheses
if it accepts. -/
abbrev Decided (φ : Prop) (n : Nat) (u : Strip) : Prop :=
  u.Decided balancedParentheses φ (replicate n 'X')

/-- At the end of the word no parenthesis may be open. -/
theorem exists_decided_end (hl : Scanned l) :
    ∃ u, Reaches ⟨"q0", l ++ ['_'], ['_']⟩ u ∧ Decided (Closes (l.count '(') []) l.length u := by
  have hend : Reaches (.leftward "q0" ('_' :: (l ++ ['_'])) [])
      (.leftward "q2" (l ++ ['_']) ['_']) := Strip.reaches_left (by decide) (by simp)
  by_cases hopen : '(' ∈ l
  · have hnot : ¬ Closes (l.count '(') [] := by
      rw [closes_nil_iff, List.count_eq_zero]
      exact not_not.mpr hopen
    obtain ⟨k, v, hsplit, -⟩ := hl.exists_split hopen
    have hback : Reaches (.leftward "q2" (l ++ ['_']) ['_'])
        (.leftward "q2" ('(' :: (v ++ ['_'])) (replicate k 'X' ++ ['_'])) := by
      rw [hsplit, List.append_assoc]
      exact Strip.sweep_left_replicate (by decide) k (by simp)
    have hstate : "q2" ∉ balancedParentheses.finals := by decide
    exact ⟨_, hend.trans hback, .of_not hnot (Strip.stuck_of_firstRule (by decide)) hstate⟩
  · have hcloses : Closes (l.count '(') [] := closes_nil_iff.mpr (List.count_eq_zero.mpr hopen)
    have hback : Reaches (.leftward "q2" (l ++ ['_']) ['_'])
        ⟨"q2", [], '_' :: (replicate l.length 'X' ++ ['_'])⟩ :=
      hl.reaches_edge (by decide) hopen ['_']
    have haccept : Reaches ⟨"q2", [], '_' :: (replicate l.length 'X' ++ ['_'])⟩
        ⟨"accept", [], '_' :: (replicate l.length 'X' ++ ['_'])⟩ :=
      Strip.reaches_stay (by decide)
    have hcells : (Strip.mk "accept" [] ('_' :: (replicate l.length 'X' ++ ['_']))).cells =
        replicate 1 '_' ++ replicate l.length 'X' ++ replicate 1 '_' := rfl
    have hfinal : "accept" ∈ balancedParentheses.finals := by decide
    exact ⟨_, (hend.trans hback).trans haccept,
      .of_holds hcloses (Strip.stuck_of_firstRule (by decide)) hfinal hcells⟩

/-- A closing parenthesis with no open one before it is rejected. -/
theorem exists_decided_unopened (hl : Scanned l) (hopen : '(' ∉ l) (n : Nat) (w r : Word) :
    ∃ u, Reaches ⟨"q0", l ++ ['_'], ')' :: r⟩ u ∧ Decided (Closes (l.count '(') (')' :: w)) n u := by
  have hnot : ¬ Closes (l.count '(') (')' :: w) := by
    rw [List.count_eq_zero.mpr hopen]
    exact not_closes_close
  have hback : Reaches (.leftward "q0" (')' :: (l ++ ['_'])) r)
      (.leftward "q1" ['_'] (replicate l.length 'X' ++ 'X' :: r)) :=
    (Strip.reaches_left (by decide) (by simp)).trans (hl.reaches_edge (by decide) hopen ('X' :: r))
  have hstate : "q1" ∉ balancedParentheses.finals := by decide
  exact ⟨_, hback, .of_not hnot (Strip.stuck_of_firstRule (by decide)) hstate⟩

/-- The program comes to its decision about every word. -/
theorem exists_decided (hw : ∀ c ∈ w, c = '(' ∨ c = ')') (hl : Scanned l)
    (hn : l.length + w.length = n) :
    ∃ u, Reaches ⟨"q0", l ++ ['_'], w ++ ['_']⟩ u ∧ Decided (Closes (l.count '(') w) n u := by
  induction w generalizing l with
  | nil =>
      subst hn
      exact exists_decided_end hl
  | cons c w ih =>
      rw [List.length_cons] at hn
      obtain ⟨rfl | rfl, hrest⟩ := List.forall_mem_cons.mp hw
      · have hopened : Scanned ('(' :: l) := List.forall_mem_cons.mpr ⟨.inr rfl, hl⟩
        obtain ⟨u, hu, hdecided⟩ := ih hrest hopened (by rw [List.length_cons]; omega)
        rw [List.count_cons_self, ← closes_open_iff] at hdecided
        exact ⟨u, (Strip.reaches_right (by decide)).trans hu, hdecided⟩
      · by_cases hopen : '(' ∈ l
        · obtain ⟨l', hl', hlength, hcount, hcrossed⟩ := hl.exists_reaches_crossed hopen (w ++ ['_'])
          obtain ⟨u, hu, hdecided⟩ := ih hrest hl' (by omega)
          rw [← closes_close_iff, hcount] at hdecided
          exact ⟨u, hcrossed.trans hu, hdecided⟩
        · exact exists_decided_unopened hl hopen n w (w ++ ['_'])

/-- **The program decides whether parentheses are balanced.**  On a word of parentheses it halts,
with any budget beyond the steps to the halt and whether it looks for loops or not; it accepts a
balanced word, and leaves a cross for each parenthesis, and it rejects any other word. -/
theorem decides_balance (w : Word) (hw : ∀ c ∈ w, c = '(' ∨ c = ')')
    (hsize : w.length < 1099511627776) :
    ∃ p, named "Balanced Parentheses" = .ok p ∧ p.HaltsOn w fun e =>
      (Balanced w → e.halt = .accepted ∧ e.finalTapes = [replicate w.length 'X']) ∧
      (¬ Balanced w → e.halt = .rejected) := by
  obtain ⟨u, hreaches, hdecided⟩ := exists_decided (l := []) hw (List.forall_mem_nil _)
    (Nat.zero_add _)
  rw [List.count_nil, closes_zero_iff] at hdecided
  have hroom : 1 + w.length + 1 < 4398046511104 := by omega
  have htrimmed : '_' ∉ replicate w.length 'X' := fun h =>
    absurd (List.eq_of_mem_replicate h) (by decide)
  exact ⟨balancedParentheses, named_balancedParentheses,
    Program.decides_of_reaches wellFormed_balancedParentheses rfl rfl hroom hreaches hdecided
      (trimmed_of_not_mem htrimmed)⟩

/-- A word that closes more than it opens on the way is rejected, though the numbers are the
same. -/
theorem decides_balance_early : (∀ c ∈ ['(', ')', ')', '('], c = '(' ∨ c = ')') ∧
    ['(', ')', ')', '('].length < 1099511627776 ∧
    ∃ p, named "Balanced Parentheses" = .ok p ∧ p.HaltsOn ['(', ')', ')', '('] fun e =>
      e.halt = .rejected := by
  have hw : ∀ c ∈ ['(', ')', ')', '('], c = '(' ∨ c = ')' := by simp
  have hnot : ¬ Balanced ['(', ')', ')', '('] := by decide
  obtain ⟨p, hp, hhalts⟩ := decides_balance ['(', ')', ')', '('] hw (by decide)
  exact ⟨hw, by decide, p, hp, hhalts.mono fun e he => he.2 hnot⟩

end Library.BalancedParentheses

end TapeMachine
