import TapeMachine.Proofs.Library.Programs
import TapeMachine.Proofs.Machine.OneTape
import Mathlib.Data.Nat.Prime.Basic

/-!
# Library — Prime checker

The prime checker decides by trial division whether a number `n`, written in strokes, is prime.  The
divisor `d` stands to the right of a bar, from 2 on.  A block of `d` strokes is crossed off by a
mark `y` on each stroke of the divisor and a mark `x` on one of the number (`Block.cross_off`);
blocks are crossed off until the number is used up, at the end of a block if `d` divides it, or in
the middle of one otherwise (`reaches_divide`).  In the first case the number is prime if that was
the first block, and is not if it was a later one; in the second case the marks are taken away and
the next divisor is tried.
-/

namespace TapeMachine.Library

open List (replicate)

namespace PrimeChecker

/-- What the prime checker comes to on a strip. -/
abbrev Reaches : Strip → Strip → Prop := Strip.Reaches primeChecker

/-! ### Blocks -/

/-- The states in which a block is crossed off.  Those for the first block differ from those for the
later ones. -/
structure Block where
  cross : State
  toBar : State
  units : State
  back : State
  done : State
  rest : State

/-- The rules that the states for the first block share with those for the later ones. -/
structure Block.Obeyed (b : Block) : Prop where
  cross_mark : primeChecker.Does b.cross 'y' 'y' .right b.cross
  cross_one : primeChecker.Does b.cross '1' 'y' .left b.toBar
  cross_blank : primeChecker.Does b.cross '_' '_' .left b.done
  toBar_mark : primeChecker.Does b.toBar 'y' 'y' .left b.toBar
  toBar_bar : primeChecker.Does b.toBar '|' '|' .left b.units
  units_mark : primeChecker.Does b.units 'x' 'x' .left b.units
  units_one : primeChecker.Does b.units '1' 'x' .right b.back
  units_blank : primeChecker.Does b.units '_' '_' .right "restore_n"
  back_mark : primeChecker.Does b.back 'x' 'x' .right b.back
  back_bar : primeChecker.Does b.back '|' '|' .right b.cross
  done_mark : primeChecker.Does b.done 'y' '1' .left b.done
  done_bar : primeChecker.Does b.done '|' '|' .left b.rest
  rest_mark : primeChecker.Does b.rest 'x' 'x' .left b.rest
  rest_one : primeChecker.Does b.rest '1' '1' .right "to_bar"

def firstBlock : Block :=
  ⟨"first_d", "first_to_bar", "first_n", "first_back", "first_done", "first_rest"⟩

def nextBlock : Block :=
  ⟨"next_d", "next_to_bar", "next_n", "next_back", "next_done", "next_rest"⟩

theorem obeyed_firstBlock : firstBlock.Obeyed := by
  constructor <;> decide

theorem obeyed_nextBlock : nextBlock.Obeyed := by
  constructor <;> decide

namespace Block

variable {b : Block} {l w r t : Word} {d i j k : Nat}

/-- A stroke of the divisor is marked, and the strokes of the number that are left are looked
for. -/
theorem Obeyed.reaches_units (h : b.Obeyed) (hw : w ≠ []) (j k : Nat) (r : Word) :
    Reaches ⟨b.cross, '|' :: (replicate k 'x' ++ w), replicate j 'y' ++ '1' :: r⟩
      (.leftward b.units w (replicate k 'x' ++ '|' :: (replicate (j + 1) 'y' ++ r))) :=
  calc
    Reaches ⟨b.cross, '|' :: (replicate k 'x' ++ w), replicate j 'y' ++ '1' :: r⟩
        (.leftward b.cross ('1' :: (replicate j 'y' ++ '|' :: (replicate k 'x' ++ w))) r) :=
      Strip.sweep_right_replicate h.cross_mark j
    Reaches _ (.leftward b.toBar (replicate j 'y' ++ '|' :: (replicate k 'x' ++ w)) ('y' :: r)) :=
      Strip.reaches_left h.cross_one (by simp)
    Reaches _ (.leftward b.toBar ('|' :: (replicate k 'x' ++ w)) (replicate j 'y' ++ 'y' :: r)) :=
      Strip.sweep_left_replicate h.toBar_mark j (by simp)
    Reaches _ (.leftward b.units (replicate k 'x' ++ w) ('|' :: (replicate j 'y' ++ 'y' :: r))) :=
      Strip.reaches_left h.toBar_bar (by simp [hw])
    Reaches _ (.leftward b.units w (replicate k 'x' ++ '|' :: (replicate j 'y' ++ 'y' :: r))) :=
      Strip.sweep_left_replicate h.units_mark k hw
    _ = .leftward b.units w (replicate k 'x' ++ '|' :: (replicate (j + 1) 'y' ++ r)) := by
      rw [Strip.replicate_append_cons]

/-- A stroke of the divisor is marked, and a stroke of the number. -/
theorem Obeyed.cross_off (h : b.Obeyed) (j k : Nat) (w r : Word) :
    Reaches ⟨b.cross, '|' :: (replicate k 'x' ++ '1' :: w), replicate j 'y' ++ '1' :: r⟩
      ⟨b.cross, '|' :: (replicate (k + 1) 'x' ++ w), replicate (j + 1) 'y' ++ r⟩ :=
  calc
    Reaches _ (.leftward b.units ('1' :: w)
        (replicate k 'x' ++ '|' :: (replicate (j + 1) 'y' ++ r))) :=
      h.reaches_units (by simp) j k r
    Reaches _ ⟨b.back, 'x' :: w, replicate k 'x' ++ '|' :: (replicate (j + 1) 'y' ++ r)⟩ :=
      Strip.reaches_right h.units_one
    Reaches _ ⟨b.back, replicate k 'x' ++ 'x' :: w, '|' :: (replicate (j + 1) 'y' ++ r)⟩ :=
      Strip.sweep_right_replicate h.back_mark k
    Reaches _ ⟨b.cross, '|' :: (replicate k 'x' ++ 'x' :: w), replicate (j + 1) 'y' ++ r⟩ :=
      Strip.reaches_right h.back_bar
    _ = ⟨b.cross, '|' :: (replicate (k + 1) 'x' ++ w), replicate (j + 1) 'y' ++ r⟩ := by
      rw [Strip.replicate_append_cons]

theorem Obeyed.cross_off_many (h : b.Obeyed) (i j k : Nat) (w r : Word) :
    Reaches ⟨b.cross, '|' :: (replicate k 'x' ++ (replicate i '1' ++ w)),
        replicate j 'y' ++ (replicate i '1' ++ r)⟩
      ⟨b.cross, '|' :: (replicate (k + i) 'x' ++ w), replicate (j + i) 'y' ++ r⟩ := by
  induction i generalizing j k with
  | zero => exact .refl
  | succ i ih =>
      have hstep := h.cross_off j k (replicate i '1' ++ w) (replicate i '1' ++ r)
      have hrest := ih (j + 1) (k + 1)
      rw [Nat.add_right_comm _ 1, Nat.add_right_comm _ 1] at hrest
      exact hstep.trans hrest

/-- **A whole block is crossed off**, and the divisor is free of marks again. -/
theorem Obeyed.block (h : b.Obeyed) (d k : Nat) (hw : w ≠ []) (t : Word) :
    Reaches ⟨b.cross, '|' :: (replicate k 'x' ++ (replicate d '1' ++ w)),
        replicate d '1' ++ '_' :: t⟩
      (.leftward b.rest w (replicate (k + d) 'x' ++ '|' :: (replicate d '1' ++ '_' :: t))) :=
  calc
    Reaches _ ⟨b.cross, '|' :: (replicate (k + d) 'x' ++ w), replicate (0 + d) 'y' ++ '_' :: t⟩ :=
      h.cross_off_many d 0 k w ('_' :: t)
    Reaches _ (.leftward b.cross
        ('_' :: (replicate (0 + d) 'y' ++ '|' :: (replicate (k + d) 'x' ++ w))) t) :=
      Strip.sweep_right_replicate h.cross_mark (0 + d)
    Reaches _ (.leftward b.done
        (replicate (0 + d) 'y' ++ '|' :: (replicate (k + d) 'x' ++ w)) ('_' :: t)) :=
      Strip.reaches_left h.cross_blank (by simp)
    Reaches _ (.leftward b.done ('|' :: (replicate (k + d) 'x' ++ w))
        (replicate (0 + d) '1' ++ '_' :: t)) :=
      Strip.sweep_left_replicate h.done_mark (0 + d) (by simp)
    Reaches _ (.leftward b.rest (replicate (k + d) 'x' ++ w)
        ('|' :: (replicate (0 + d) '1' ++ '_' :: t))) :=
      Strip.reaches_left h.done_bar (by simp [hw])
    Reaches _ (.leftward b.rest w
        (replicate (k + d) 'x' ++ '|' :: (replicate (0 + d) '1' ++ '_' :: t))) :=
      Strip.sweep_left_replicate h.rest_mark (k + d) hw
    _ = .leftward b.rest w (replicate (k + d) 'x' ++ '|' :: (replicate d '1' ++ '_' :: t)) := by
      rw [Nat.zero_add]

/-- If strokes of the number are left after a block, the next one is begun. -/
theorem Obeyed.next_block (h : b.Obeyed) (d k : Nat) (w t : Word) :
    Reaches ⟨b.cross, '|' :: (replicate k 'x' ++ (replicate d '1' ++ '1' :: w)),
        replicate d '1' ++ '_' :: t⟩
      ⟨nextBlock.cross, '|' :: (replicate (k + d) 'x' ++ '1' :: w), replicate d '1' ++ '_' :: t⟩ :=
  calc
    Reaches _ (.leftward b.rest ('1' :: w)
        (replicate (k + d) 'x' ++ '|' :: (replicate d '1' ++ '_' :: t))) :=
      h.block d k (by simp) t
    Reaches _ ⟨"to_bar", '1' :: w,
        replicate (k + d) 'x' ++ '|' :: (replicate d '1' ++ '_' :: t)⟩ :=
      Strip.reaches_right h.rest_one
    Reaches _ ⟨"to_bar", replicate (k + d) 'x' ++ '1' :: w,
        '|' :: (replicate d '1' ++ '_' :: t)⟩ :=
      Strip.sweep_right_replicate (by decide) (k + d)
    Reaches _ ⟨nextBlock.cross, '|' :: (replicate (k + d) 'x' ++ '1' :: w),
        replicate d '1' ++ '_' :: t⟩ :=
      Strip.reaches_right (by decide)

/-- If the number is used up in the middle of a block, both numbers are freed of their marks, and
the divisor gets one more stroke. -/
theorem Obeyed.restore (h : b.Obeyed) (a e k : Nat) (t : Word) :
    Reaches ⟨b.cross, '|' :: (replicate k 'x' ++ (replicate a '1' ++ ['_'])),
        replicate (a + (e + 1)) '1' ++ '_' :: t⟩
      ⟨firstBlock.cross, '|' :: (replicate (k + a) '1' ++ ['_']),
        replicate (a + (e + 1) + 1) '1' ++ t⟩ :=
  calc
    Reaches ⟨b.cross, '|' :: (replicate k 'x' ++ (replicate a '1' ++ ['_'])),
          replicate (a + (e + 1)) '1' ++ '_' :: t⟩
        ⟨b.cross, '|' :: (replicate (k + a) 'x' ++ ['_']),
          replicate (0 + a) 'y' ++ '1' :: (replicate e '1' ++ '_' :: t)⟩ := by
      rw [← List.replicate_append_replicate, List.append_assoc]
      exact h.cross_off_many a 0 k ['_'] ('1' :: (replicate e '1' ++ '_' :: t))
    Reaches _ (.leftward b.units ['_']
        (replicate (k + a) 'x' ++ '|' :: (replicate (0 + a + 1) 'y' ++
          (replicate e '1' ++ '_' :: t)))) :=
      h.reaches_units (by simp) (0 + a) (k + a) _
    Reaches _ ⟨"restore_n", ['_'],
        replicate (k + a) 'x' ++ '|' :: (replicate (0 + a + 1) 'y' ++
          (replicate e '1' ++ '_' :: t))⟩ :=
      Strip.reaches_right h.units_blank
    Reaches _ ⟨"restore_n", replicate (k + a) '1' ++ ['_'],
        '|' :: (replicate (0 + a + 1) 'y' ++ (replicate e '1' ++ '_' :: t))⟩ :=
      Strip.sweep_right_replicate (by decide) (k + a)
    Reaches _ ⟨"restore_d", '|' :: (replicate (k + a) '1' ++ ['_']),
        replicate (0 + a + 1) 'y' ++ (replicate e '1' ++ '_' :: t)⟩ :=
      Strip.reaches_right (by decide)
    Reaches _ ⟨"restore_d", replicate (0 + a + 1) '1' ++ '|' :: (replicate (k + a) '1' ++ ['_']),
        replicate e '1' ++ '_' :: t⟩ :=
      Strip.sweep_right_replicate (by decide) (0 + a + 1)
    Reaches _ (.leftward "restore_d" ('_' :: (replicate e '1' ++ (replicate (0 + a + 1) '1' ++
        '|' :: (replicate (k + a) '1' ++ ['_'])))) t) :=
      Strip.sweep_right_replicate (by decide) e
    Reaches _ (.leftward "rewind_d" (replicate e '1' ++ (replicate (0 + a + 1) '1' ++
        '|' :: (replicate (k + a) '1' ++ ['_']))) ('1' :: t)) :=
      Strip.reaches_left (by decide) (by simp)
    Reaches _ (.leftward "rewind_d" ('|' :: (replicate (k + a) '1' ++ ['_']))
        (replicate (e + (0 + a + 1)) '1' ++ '1' :: t)) := by
      rw [← List.append_assoc, List.replicate_append_replicate]
      exact Strip.sweep_left_replicate (by decide) (e + (0 + a + 1)) (by simp)
    Reaches _ ⟨firstBlock.cross, '|' :: (replicate (k + a) '1' ++ ['_']),
        replicate (e + (0 + a + 1)) '1' ++ '1' :: t⟩ :=
      Strip.reaches_right (by decide)
    _ = ⟨firstBlock.cross, '|' :: (replicate (k + a) '1' ++ ['_']),
        replicate (a + (e + 1) + 1) '1' ++ t⟩ := by
      rw [Strip.replicate_append_cons]
      congr 3
      omega

end Block

/-! ### Divisors -/

/-- **Division by the later blocks.**  What is left of the number is used up at the end of a block
if the divisor divides it, and in the middle of one otherwise. -/
theorem reaches_divide {d : Nat} (hd : 0 < d) (a : Nat) (ha : 0 < a) (k : Nat) (t : Word) :
    Reaches ⟨nextBlock.cross, '|' :: (replicate k 'x' ++ (replicate a '1' ++ ['_'])),
        replicate d '1' ++ '_' :: t⟩
      (if d ∣ a then
        .leftward nextBlock.rest ['_']
          (replicate (k + a) 'x' ++ '|' :: (replicate d '1' ++ '_' :: t))
      else ⟨firstBlock.cross, '|' :: (replicate (k + a) '1' ++ ['_']),
        replicate (d + 1) '1' ++ t⟩) := by
  induction a using Nat.strong_induction_on generalizing k with
  | h a ih =>
      rcases Nat.lt_trichotomy a d with hlt | rfl | hgt
      · obtain ⟨e, rfl⟩ := Nat.exists_eq_add_of_lt hlt
        rw [if_neg (Nat.not_dvd_of_pos_of_lt ha hlt)]
        exact obeyed_nextBlock.restore a e k t
      · rw [if_pos (dvd_refl a)]
        exact obeyed_nextBlock.block a k (by simp) t
      · obtain ⟨a, rfl⟩ := Nat.exists_eq_add_of_lt hgt
        have hrest := ih (a + 1) (by omega) (by omega) (k + d)
        have hdvd : d ∣ d + a + 1 ↔ d ∣ a + 1 := by rw [add_assoc, Nat.dvd_add_right (dvd_refl d)]
        rw [Nat.add_assoc k d, ← Nat.add_assoc d a 1] at hrest
        simp only [hdvd]
        refine Relation.ReflTransGen.trans ?_ hrest
        rw [Nat.add_assoc d a 1, ← List.replicate_append_replicate, List.append_assoc]
        exact obeyed_nextBlock.next_block d k (replicate a '1' ++ ['_']) t

/-- A strip on which the prime checker has decided about a number. -/
def Decided (n : Nat) (u : Strip) : Prop := u.Stuck primeChecker ∧ (u.state = "prime" ↔ n.Prime)

/-- **Trial division.**  From a divisor on such that no smaller one divides the number, the prime
checker comes to its decision. -/
theorem exists_decided {n d : Nat} (hd : 2 ≤ d) (hdn : d ≤ n)
    (hmin : ∀ m, 2 ≤ m → m < d → ¬ m ∣ n) :
    ∃ u, Reaches ⟨firstBlock.cross, '|' :: (replicate n '1' ++ ['_']),
      replicate d '1' ++ replicate (n + 1 - d) '_'⟩ u ∧ Decided n u := by
  induction hk : n - d generalizing d with
  | zero =>
      obtain rfl : d = n := by omega
      have hprime : d.Prime := Nat.prime_def_lt'.mpr ⟨hd, fun m h₂ hm => hmin m h₂ hm⟩
      rw [Nat.add_sub_cancel_left]
      refine ⟨⟨"prime", [], '_' :: (replicate (0 + d) 'x' ++ '|' :: (replicate d '1' ++ ['_']))⟩,
        (obeyed_firstBlock.block d 0 (w := ['_']) (by simp) []).trans
          (Strip.reaches_stay (by decide)), Strip.stuck_of_firstRule (by decide),
        iff_of_true rfl hprime⟩
  | succ k ih =>
      obtain ⟨a, rfl⟩ : ∃ a, n = d + (a + 1) := ⟨k, by omega⟩
      have hblank : replicate (d + (a + 1) + 1 - d) '_' = '_' :: replicate (a + 1) '_' := by
        rw [← List.replicate_succ]
        congr 1
        omega
      have hfirst : Reaches ⟨firstBlock.cross, '|' :: (replicate (d + (a + 1)) '1' ++ ['_']),
            replicate d '1' ++ '_' :: replicate (a + 1) '_'⟩
          ⟨nextBlock.cross, '|' :: (replicate (0 + d) 'x' ++ (replicate (a + 1) '1' ++ ['_'])),
            replicate d '1' ++ '_' :: replicate (a + 1) '_'⟩ := by
        rw [← List.replicate_append_replicate, List.append_assoc]
        exact obeyed_firstBlock.next_block d 0 (replicate a '1' ++ ['_']) _
      have hdivide := hfirst.trans
        (reaches_divide (by omega) (a + 1) (by omega) (0 + d) (replicate (a + 1) '_'))
      rw [hblank]
      by_cases hdvd : d ∣ a + 1
      · have hnot : ¬ (d + (a + 1)).Prime := fun hp =>
          (Nat.prime_def_lt'.mp hp).2 d hd (by omega) ((Nat.dvd_add_right (dvd_refl d)).mpr hdvd)
        rw [if_pos hdvd] at hdivide
        exact ⟨_, hdivide, Strip.stuck_of_firstRule (by decide),
          iff_of_false (show "next_rest" ≠ "prime" by decide) hnot⟩
      · rw [if_neg hdvd] at hdivide
        obtain ⟨u, hu, hdecided⟩ := ih (d := d + 1) (by omega) (by omega) (fun m h₂ hm hmn => by
          rcases Nat.lt_succ_iff_lt_or_eq.mp hm with hlt | rfl
          · exact hmin m h₂ hlt hmn
          · exact hdvd ((Nat.dvd_add_right (dvd_refl m)).mp hmn)) (by omega)
        refine ⟨u, hdivide.trans ?_, hdecided⟩
        rw [Nat.zero_add]
        have hrest : d + (a + 1) + 1 - (d + 1) = a + 1 := by omega
        rw [hrest] at hu
        exact hu

/-! ### The whole run -/

/-- The prime checker comes to its decision about every number. -/
theorem exists_reaches_decided (n : Nat) :
    ∃ u, Reaches ⟨"start", ['_'], replicate n '1' ++ replicate (n + 2) '_'⟩ u ∧ Decided n u := by
  match n with
  | 0 =>
      exact ⟨_, .refl, Strip.stuck_of_firstRule (by decide),
        iff_of_false (by decide) Nat.not_prime_zero⟩
  | 1 =>
      exact ⟨⟨"one", ['1', '_'], replicate 3 '_'⟩, Strip.reaches_right (by decide),
        Strip.stuck_of_firstRule (by decide), iff_of_false (by decide) Nat.not_prime_one⟩
  | n + 2 =>
      obtain ⟨u, hu, hdecided⟩ := exists_decided (n := n + 2) (d := 2) le_rfl (by omega)
        (fun m h₂ hm => by omega)
      refine ⟨u, Relation.ReflTransGen.trans ?_ hu, hdecided⟩
      calc
        Reaches ⟨"start", ['_'], replicate (n + 2) '1' ++ replicate (n + 2 + 2) '_'⟩
            ⟨"one", ['1', '_'], replicate (n + 1) '1' ++ replicate (n + 2 + 2) '_'⟩ :=
          Strip.reaches_right (by decide)
        Reaches _ ⟨"scan", ['1', '1', '_'], replicate n '1' ++ replicate (n + 2 + 2) '_'⟩ :=
          Strip.reaches_right (by decide)
        Reaches _ ⟨"scan", replicate n '1' ++ ['1', '1', '_'], replicate (n + 2 + 2) '_'⟩ :=
          Strip.sweep_right_replicate (by decide) n
        Reaches _ ⟨"d1", '|' :: (replicate n '1' ++ ['1', '1', '_']), replicate (n + 3) '_'⟩ :=
          Strip.reaches_right (by decide)
        Reaches _ (.leftward "d2" ('_' :: '1' :: '|' :: (replicate n '1' ++ ['1', '1', '_']))
            (replicate (n + 1) '_')) :=
          Strip.reaches_right (by decide)
        Reaches _ (.leftward "rewind_d" ('1' :: '|' :: (replicate n '1' ++ ['1', '1', '_']))
            ('1' :: replicate (n + 1) '_')) :=
          Strip.reaches_left (by decide) (by simp)
        Reaches _ (.leftward "rewind_d" ('|' :: (replicate n '1' ++ ['1', '1', '_']))
            ('1' :: '1' :: replicate (n + 1) '_')) :=
          Strip.reaches_left (by decide) (by simp)
        Reaches _ ⟨firstBlock.cross, '|' :: (replicate n '1' ++ ['1', '1', '_']),
            '1' :: '1' :: replicate (n + 1) '_'⟩ :=
          Strip.reaches_right (by decide)
        _ = ⟨firstBlock.cross, '|' :: (replicate (n + 2) '1' ++ ['_']),
            replicate 2 '1' ++ replicate (n + 2 + 1 - 2) '_'⟩ := by
          rw [Strip.replicate_append_cons, Strip.replicate_append_cons]
          rfl

theorem mem_finals_iff {s : State} : s ∈ primeChecker.finals ↔ s = "prime" :=
  StateSet.mem_ofList.trans List.mem_singleton

/-- **The prime checker decides primality.**  On `n` strokes it halts, with any budget beyond the
steps to the halt and whether it looks for loops or not; it accepts if `n` is prime, and rejects
otherwise. -/
theorem decides_primality (n : Nat) (hn : n < 1099511627776) :
    ∃ p, named "Prime Checker" = .ok p ∧ p.HaltsOn (replicate n '1') fun e =>
      (n.Prime → e.halt = .accepted ∧ e.finalState = "prime") ∧
      (¬ n.Prime → e.halt = .rejected) := by
  obtain ⟨u, hreaches, hstuck, hdecided⟩ := exists_reaches_decided n
  have hsize : 1 + (replicate n '1').length + (n + 2) < 4398046511104 := by
    rw [List.length_replicate]
    omega
  have hhalts := Program.haltsOn_of_reaches wellFormed_primeChecker rfl rfl hsize hreaches hstuck
  refine ⟨primeChecker, named_primeChecker, hhalts.mono fun e ⟨hhalt, hstate, _⟩ => ?_⟩
  refine ⟨fun hprime => ?_, fun hnot => ?_⟩
  · have hfinal := hdecided.mpr hprime
    exact ⟨hhalt.trans (if_pos (mem_finals_iff.mpr hfinal)), hstate.trans hfinal⟩
  · exact hhalt.trans (if_neg fun hfinal => hnot (hdecided.mp (mem_finals_iff.mp hfinal)))

/-- Seven strokes are accepted. -/
theorem decides_primality_seven : 7 < 1099511627776 ∧
    ∃ p, named "Prime Checker" = .ok p ∧ p.HaltsOn ['1', '1', '1', '1', '1', '1', '1'] fun e =>
      e.halt = .accepted ∧ e.finalState = "prime" := by
  have hseven : (7 : Nat).Prime := by decide
  refine ⟨by decide, ?_⟩
  obtain ⟨p, hp, hhalts⟩ := decides_primality 7 (by decide)
  exact ⟨p, hp, hhalts.mono fun e he => he.1 hseven⟩

end PrimeChecker

end TapeMachine.Library
