import TapeMachine.Proofs.Tape.Window
import Mathlib.Data.Nat.Digits.Defs

/-!
# Library — Binary numbers

Binary numbers as the programs of the library work on them: bit by bit from the lowest one on, with
any number of zeros at the upper end.  A carry runs through the lower ones (`inc`), a borrow through
the lower zeros (`dec`), and a number is added to another one by adding its bits in turn (`add`).  A
number that is less than `2 ^ w` fits into `w` bits before and after an addition (`length_add_le`).
-/

namespace TapeMachine

/-- A word of at least one binary digit. -/
def IsBinary (w : Word) : Prop := w ≠ [] ∧ ∀ c ∈ w, c = '0' ∨ c = '1'

instance (w : Word) : Decidable (IsBinary w) :=
  @instDecidableAnd _ _ _ (List.decidableBAll _ w)

namespace Binary

variable {x : Bool} {a b p : List Bool} {w : Nat}

/-- The number of some bits, the lowest of which comes first. -/
def value (p : List Bool) : Nat := Nat.ofDigits 2 (p.map Bool.toNat)

@[simp] theorem value_nil : value [] = 0 := rfl

@[simp] theorem value_cons (x : Bool) (p : List Bool) :
    value (x :: p) = x.toNat + 2 * value p := rfl

theorem value_lt (p : List Bool) : value p < 2 ^ p.length := by
  induction p with
  | nil => decide
  | cons x p ih =>
      have hx := Bool.toNat_lt x
      rw [value_cons, List.length_cons, Nat.pow_succ]
      omega

theorem eq_replicate_of_value_eq_zero (h : value p = 0) : p = List.replicate p.length false := by
  induction p with
  | nil => rfl
  | cons x p ih =>
      cases x with
      | false => exact congrArg (false :: ·) (ih (by simpa using h))
      | true => simp at h

/-! ### Carries and borrows -/

/-- One more. -/
def inc : List Bool → List Bool
  | [] => [true]
  | false :: p => true :: p
  | true :: p => false :: inc p

/-- One less, for a number that is not 0. -/
def dec : List Bool → List Bool
  | [] => []
  | true :: p => false :: p
  | false :: p => true :: dec p

theorem value_inc (p : List Bool) : value (inc p) = value p + 1 := by
  induction p using inc.induct with
  | case1 => rfl
  | case2 p => simp [inc]; omega
  | case3 p ih => simp [inc, ih]; omega

theorem value_dec (h : value p ≠ 0) : value (dec p) + 1 = value p := by
  induction p using dec.induct with
  | case1 => exact absurd rfl h
  | case2 p => simp [dec]; omega
  | case3 p ih =>
      have hp : value p ≠ 0 := by simpa using h
      have := ih hp
      simp [dec]
      omega

theorem length_dec (p : List Bool) : (dec p).length = p.length := by
  induction p using dec.induct with
  | case1 => rfl
  | case2 p => rfl
  | case3 p ih => exact congrArg (· + 1) ih

theorem inc_ne_nil (p : List Bool) : inc p ≠ [] := by
  fun_cases inc p <;> exact List.cons_ne_nil _ _

/-- A number gets one bit more if all of its bits are ones. -/
theorem length_inc (p : List Bool) :
    (inc p).length = if p.all id then p.length + 1 else p.length := by
  induction p using inc.induct with
  | case1 => rfl
  | case2 p => rfl
  | case3 p ih =>
      rw [inc, List.length_cons, ih, List.all_cons, id, Bool.true_and, List.length_cons]
      split <;> rfl

theorem length_inc_le (hp : p.length ≤ w) (hvalue : value p + 1 < 2 ^ w) : (inc p).length ≤ w := by
  induction p using inc.induct generalizing w with
  | case1 =>
      cases w with
      | zero => simp at hvalue
      | succ w => simp [inc]
  | case2 p => exact hp
  | case3 p ih =>
      cases w with
      | zero => simp at hp
      | succ w =>
          simp only [value_cons, Bool.toNat_true, Nat.pow_succ] at hvalue
          exact Nat.succ_le_succ (ih (Nat.le_of_succ_le_succ hp) (by omega))

/-! ### Sums -/

/-- The lowest bit of the sum of a bit and a number, and the other bits of it. -/
def addBit : Bool → List Bool → Bool × List Bool
  | x, [] => (x, [])
  | false, y :: p => (y, p)
  | true, false :: p => (true, p)
  | true, true :: p => (false, inc p)

/-- The sum of two numbers. -/
def add : List Bool → List Bool → List Bool
  | [], p => p
  | x :: a, p => (addBit x p).1 :: add a (addBit x p).2

theorem value_addBit (x : Bool) (p : List Bool) :
    (addBit x p).1.toNat + 2 * value (addBit x p).2 = x.toNat + value p := by
  fun_cases addBit x p with
  | case1 => rfl
  | case2 y p => simp
  | case3 p => simp
  | case4 p => simp [value_inc]; omega

theorem value_add (a p : List Bool) : value (add a p) = value a + value p := by
  induction a generalizing p with
  | nil => simp [add]
  | cons x a ih =>
      have := value_addBit x p
      simp only [add, value_cons, ih]
      omega

theorem length_addBit_le (hp : p.length ≤ w + 1) (hvalue : x.toNat + value p < 2 ^ (w + 1)) :
    (addBit x p).2.length ≤ w := by
  fun_cases addBit x p with
  | case1 => exact Nat.zero_le w
  | case2 y p => exact Nat.le_of_succ_le_succ hp
  | case3 p => exact Nat.le_of_succ_le_succ hp
  | case4 p =>
      simp only [value_cons, Bool.toNat_true, Nat.pow_succ] at hvalue
      exact length_inc_le (Nat.le_of_succ_le_succ hp) (by omega)

/-- What is left to be added after a bit leaves room for it. -/
theorem value_add_lt (hvalue : value (x :: a) + value p < 2 ^ (w + 1)) :
    x.toNat + value p < 2 ^ (w + 1) ∧ value a + value (addBit x p).2 < 2 ^ w := by
  have := value_addBit x p
  rw [value_cons, Nat.pow_succ] at hvalue
  rw [Nat.pow_succ]
  omega

theorem length_add_le (ha : a.length ≤ w) (hp : p.length ≤ w) (hvalue : value a + value p < 2 ^ w) :
    (add a p).length ≤ w := by
  induction a generalizing p w with
  | nil => exact hp
  | cons x a ih =>
      cases w with
      | zero => simp at ha
      | succ w =>
          obtain ⟨hbit, hrest⟩ := value_add_lt hvalue
          exact Nat.succ_le_succ
            (ih (Nat.le_of_succ_le_succ ha) (length_addBit_le hp hbit) hrest)

/-! ### Numerals -/

/-- The symbol of a bit. -/
def bit : Bool → Symbol
  | false => '0'
  | true => '1'

/-- A number as it is written, with the highest bit first. -/
def numeral (p : List Bool) : Word := (p.map bit).reverse

theorem numeral_cons (x : Bool) (p : List Bool) : numeral (x :: p) = numeral p ++ [bit x] :=
  List.reverse_cons

theorem bit_eq (x : Bool) : bit x = '0' ∨ bit x = '1' := by cases x <;> decide

theorem length_numeral (p : List Bool) : (numeral p).length = p.length := by simp [numeral]

theorem exists_numeral_eq_cons (hp : p ≠ []) : ∃ x v, numeral p = bit x :: v := by
  obtain ⟨q, x, rfl⟩ := (List.eq_nil_or_concat' p).resolve_left hp
  exact ⟨x, numeral q, by simp [numeral]⟩

theorem isBinary_numeral (hp : p ≠ []) : IsBinary (numeral p) := by
  refine ⟨by simpa [numeral] using hp, fun c hc => ?_⟩
  obtain ⟨x, -, rfl⟩ := List.mem_map.mp (List.mem_reverse.mp hc)
  exact bit_eq x

/-- Every word over the binary digits, the empty one too, is one of bits. -/
theorem exists_eq_map_bit {v : Word} (hv : ∀ c ∈ v, c = '0' ∨ c = '1') :
    ∃ b : List Bool, v = b.map bit :=
  exists_eq_map fun c hc => (hv c hc).elim (fun h => ⟨false, h.symm⟩) fun h => ⟨true, h.symm⟩

theorem bit_injective : Function.Injective bit := by
  unfold Function.Injective
  decide

theorem blank_not_mem_map_bit (b : List Bool) : '_' ∉ b.map bit := by
  intro h
  obtain ⟨x, -, hx⟩ := List.mem_map.mp h
  cases x <;> exact absurd hx (by decide)

theorem exists_eq_numeral_of_digits {v : Word} (hv : ∀ c ∈ v, c = '0' ∨ c = '1') :
    ∃ p, v = numeral p := by
  obtain ⟨b, rfl⟩ := exists_eq_map_bit hv
  exact ⟨b.reverse, by rw [numeral, List.map_reverse, List.reverse_reverse]⟩

/-- Every word of binary digits is a numeral. -/
theorem exists_eq_numeral {v : Word} (hv : IsBinary v) : ∃ p, p ≠ [] ∧ v = numeral p := by
  obtain ⟨p, rfl⟩ := exists_eq_numeral_of_digits hv.2
  exact ⟨p, fun hp => hv.1 (congrArg numeral hp), rfl⟩

theorem ofDigitChars_numeral (p : List Bool) : Nat.ofDigitChars 2 (numeral p) 0 = value p := by
  induction p with
  | nil => rfl
  | cons x p ih =>
      have hbit : (bit x).toNat - '0'.toNat = x.toNat := by cases x <;> rfl
      rw [numeral_cons, Nat.ofDigitChars_append, ih, Nat.ofDigitChars_cons, Nat.ofDigitChars_nil, hbit,
        value_cons, Nat.add_comm]

end Binary

/-- Binary digits are no blanks. -/
theorem IsBinary.trimmed {v : Word} (hv : IsBinary v) : Trimmed '_' v := by
  obtain ⟨b, rfl⟩ := Binary.exists_eq_map_bit hv.2
  exact trimmed_of_not_mem (Binary.blank_not_mem_map_bit b)

end TapeMachine
