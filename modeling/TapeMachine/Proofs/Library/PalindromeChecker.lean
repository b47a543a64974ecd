import TapeMachine.Proofs.Library.Binary
import TapeMachine.Proofs.Library.Programs
import TapeMachine.Proofs.Machine.OneTape
import Mathlib.Data.List.Induction

/-!
# Library — Palindrome checker

The palindrome checker erases the first bit of a word and the last one, if they are the same
(`reaches_inner`), and goes on with what is between them.  It rejects two bits that differ, and
accepts when nothing is left to compare: at once at the empty word, and at a word of one bit after
it has erased that bit and found nothing else (`exists_decided`).

The erased cells are blanks like those around the word, so a word with any blanks around it stands
for what is left of a longer one.
-/

namespace TapeMachine.Library.PalindromeChecker

open List (replicate)
open Binary (bit)

/-- What the palindrome checker comes to on a strip. -/
abbrev Reaches : Strip → Strip → Prop := Strip.Reaches palindromeChecker

/-- The state in which a bit is brought to the end of the word. -/
def bringing : Bool → State
  | false => "have0"
  | true => "have1"

/-- The state in which the last bit has to be the one that was brought. -/
def checking : Bool → State
  | false => "check0"
  | true => "check1"

variable {x y : Bool} {b : List Bool}

/-! ### Rules for bits -/

/-- What the palindrome checker does by one of its rules. -/
abbrev Does : State → Symbol → Symbol → Move → State → Prop := palindromeChecker.Does

theorem does_take (x : Bool) : Does "q0" (bit x) '_' .right (bringing x) := by decide +revert

theorem does_bring (x y : Bool) : Does (bringing x) (bit y) (bit y) .right (bringing x) := by
  decide +revert

theorem does_turn (x : Bool) : Does (bringing x) '_' '_' .left (checking x) := by decide +revert

theorem does_match (x : Bool) : Does (checking x) (bit x) '_' .left "back" := by decide +revert

theorem does_nothing_left (x : Bool) : Does (checking x) '_' '_' .stay "accept" := by
  decide +revert

theorem firstRule_mismatch (h : x ≠ y) :
    palindromeChecker.firstRule (checking x) [bit y] = none := by decide +revert

theorem checking_not_mem_finals (x : Bool) : checking x ∉ palindromeChecker.finals := by
  decide +revert

/-! ### Both ends of a word -/

/-- A word is a palindrome if its ends are equal and what is between them is a palindrome. -/
theorem reverse_eq_self_iff (x y : Bool) (b : List Bool) :
    (x :: (b ++ [y])).reverse = x :: (b ++ [y]) ↔ x = y ∧ b.reverse = b := by
  have hreverse : (x :: (b ++ [y])).reverse = y :: (b.reverse ++ [x]) := by simp
  rw [hreverse, List.cons_eq_cons]
  constructor
  · rintro ⟨hyx, h⟩
    exact ⟨hyx.symm, List.append_inj_left' h rfl⟩
  · rintro ⟨rfl, h⟩
    exact ⟨rfl, by rw [h]⟩

/-- The first bit is erased and brought to the last one. -/
theorem reaches_checking (x y : Bool) (b : List Bool) (l r : Word) :
    Reaches ⟨"q0", l, (x :: (b ++ [y])).map bit ++ '_' :: r⟩
      (.leftward (checking x) (bit y :: (b.reverse.map bit ++ '_' :: l)) ('_' :: r)) :=
  calc
    Reaches ⟨"q0", l, bit x :: ((b ++ [y]).map bit ++ '_' :: r)⟩
        ⟨bringing x, '_' :: l, (b ++ [y]).map bit ++ '_' :: r⟩ :=
      Strip.reaches_right (does_take x)
    Reaches _ ⟨bringing x, ((b ++ [y]).map bit).reverse ++ '_' :: l, '_' :: r⟩ :=
      Strip.sweep_right_of_mem fun z _ => does_bring x z
    _ = .leftward (bringing x) ('_' :: bit y :: (b.reverse.map bit ++ '_' :: l)) r := by
      simp [Strip.leftward]
    Reaches _ (.leftward (checking x) (bit y :: (b.reverse.map bit ++ '_' :: l)) ('_' :: r)) :=
      Strip.reaches_left (does_turn x) (by simp)

/-- **Equal ends are erased**, and what is between them is left. -/
theorem reaches_inner (x : Bool) (b : List Bool) (l r : Word) :
    Reaches ⟨"q0", l, (x :: (b ++ [x])).map bit ++ '_' :: r⟩
      ⟨"q0", '_' :: l, b.map bit ++ '_' :: '_' :: r⟩ :=
  calc
    Reaches _ (.leftward (checking x) (bit x :: (b.reverse.map bit ++ '_' :: l)) ('_' :: r)) :=
      reaches_checking x x b l r
    Reaches _ (.leftward "back" (b.reverse.map bit ++ '_' :: l) ('_' :: '_' :: r)) :=
      Strip.reaches_left (does_match x) (by simp)
    Reaches _ (.leftward "back" ('_' :: l) ((b.reverse.map bit).reverse ++ '_' :: '_' :: r)) :=
      Strip.sweep_left (by decide) (by simp)
    Reaches _ ⟨"q0", '_' :: l, (b.reverse.map bit).reverse ++ '_' :: '_' :: r⟩ :=
      Strip.reaches_right (by decide)
    _ = ⟨"q0", '_' :: l, b.map bit ++ '_' :: '_' :: r⟩ := by simp

/-! ### The whole run -/

/-- A strip on which the palindrome checker has decided whether a word is a palindrome, and has
erased it if so. -/
abbrev Decided (b : List Bool) (u : Strip) : Prop :=
  u.Decided palindromeChecker (b.reverse = b) []

theorem decided_of_blank (hb : b.reverse = b) (i j : Nat) :
    Decided b ⟨"accept", replicate i '_', replicate (j + 1) '_'⟩ := by
  have hcells : (Strip.mk "accept" (replicate i '_') (replicate (j + 1) '_')).cells =
      replicate i '_' ++ [] ++ replicate (j + 1) '_' := by simp [Strip.cells]
  have hfinal : "accept" ∈ palindromeChecker.finals := by decide
  exact .of_holds hb (Strip.stuck_of_firstRule (by decide)) hfinal hcells

theorem decided_of_mismatch (hxy : x ≠ y) (b : List Bool) (l r : Word) :
    Decided (x :: (b ++ [y])) ⟨checking x, l, bit y :: r⟩ :=
  have hends : (x :: (b ++ [y])).reverse ≠ x :: (b ++ [y]) := fun h =>
    hxy ((reverse_eq_self_iff x y b).mp h).1
  .of_not hends (Strip.stuck_of_firstRule (firstRule_mismatch hxy)) (checking_not_mem_finals x)

/-- The palindrome checker comes to its decision about every word. -/
theorem exists_decided (b : List Bool) (i j : Nat) :
    ∃ u, Reaches ⟨"q0", replicate i '_', b.map bit ++ replicate (j + 1) '_'⟩ u ∧ Decided b u := by
  induction b using List.bidirectionalRec generalizing i j with
  | nil => exact ⟨_, Strip.reaches_stay (by decide), decided_of_blank rfl i j⟩
  | singleton x =>
      refine ⟨_, ?_, decided_of_blank rfl i (j + 1)⟩
      calc
        Reaches ⟨"q0", replicate i '_', bit x :: replicate (j + 1) '_'⟩
            (.leftward (bringing x) ('_' :: '_' :: replicate i '_') (replicate j '_')) :=
          Strip.reaches_right (does_take x)
        Reaches _ ⟨checking x, replicate i '_', replicate (j + 2) '_'⟩ :=
          Strip.reaches_left (does_turn x) (by simp)
        Reaches _ ⟨"accept", replicate i '_', replicate (j + 2) '_'⟩ :=
          Strip.reaches_stay (does_nothing_left x)
  | cons_append x b y ih =>
      by_cases hxy : x = y
      · subst hxy
        obtain ⟨u, hu, hdecided⟩ := ih (i + 1) (j + 1)
        refine ⟨u, (reaches_inner x b _ _).trans hu, ?_⟩
        rwa [Decided, reverse_eq_self_iff, and_iff_right rfl]
      · exact ⟨_, reaches_checking x y b _ _, decided_of_mismatch hxy b _ _⟩

/-- **The palindrome checker decides palindromes.**  On bits it halts, with any budget beyond the
steps to the halt and whether it looks for loops or not; it accepts a word that is its own reverse,
and leaves the tape blank, and it rejects any other word. -/
theorem decides_palindromes (w : Word) (hw : ∀ c ∈ w, c = '0' ∨ c = '1')
    (hsize : w.length < 1099511627776) :
    ∃ p, named "Palindrome Checker" = .ok p ∧ p.HaltsOn w fun e =>
      (w.reverse = w → e.halt = .accepted ∧ e.finalTapes = [[]]) ∧
      (w.reverse ≠ w → e.halt = .rejected) := by
  obtain ⟨b, rfl⟩ := Binary.exists_eq_map_bit hw
  obtain ⟨u, hreaches, hdecided⟩ := exists_decided b 0 0
  have hroom : 0 + (b.map bit).length + 1 < 4398046511104 := by omega
  refine ⟨palindromeChecker, named_palindromeChecker, ?_⟩
  rw [← List.map_reverse, Ne, (List.map_injective_iff.mpr Binary.bit_injective).eq_iff]
  exact Program.decides_of_reaches wellFormed_palindromeChecker rfl rfl hroom hreaches hdecided
    (trimmed_of_not_mem List.not_mem_nil)

/-- A palindrome of odd length is accepted. -/
theorem decides_palindromes_odd : (∀ c ∈ ['0', '1', '1', '1', '0'], c = '0' ∨ c = '1') ∧
    ['0', '1', '1', '1', '0'].length < 1099511627776 ∧
    ∃ p, named "Palindrome Checker" = .ok p ∧ p.HaltsOn ['0', '1', '1', '1', '0'] fun e =>
      e.halt = .accepted ∧ e.finalTapes = [[]] := by
  have hw : ∀ c ∈ ['0', '1', '1', '1', '0'], c = '0' ∨ c = '1' := by simp
  obtain ⟨p, hp, hhalts⟩ := decides_palindromes ['0', '1', '1', '1', '0'] hw (by decide)
  exact ⟨hw, by decide, p, hp, hhalts.mono fun e he => he.1 rfl⟩

end TapeMachine.Library.PalindromeChecker
