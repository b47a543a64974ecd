import TapeMachine.Library
import TapeMachine.Proofs.Program.WellFormed
import Mathlib.Data.List.Basic

/-!
# Library — Programs

Programs of the library written out, and how they are found by their names.  Every text of the
library describes a program (`map_title?_texts`), and a name belongs to the program of a text if no
earlier one has a name like it (`named_eq_ok`).
-/

namespace TapeMachine.Library

/-! ### Names -/

/-- The name of the program of a text, if the text describes one. -/
def title? (text : List Char) : Option String := Option.map (·.1.name) <| entry? text

variable {i : Nat} {t : List Char} {p : Program} {name : String}

theorem entry?_eq_some (hp : Program.parse t = .ok p) : entry? t = some (p, t) := by
  unfold entry?
  rw [hp]

/-- Among the programs of some texts, that of a text is found by its name if none of the earlier
ones has a name like it. -/
theorem find?_filterMap_entry {ts : List (List Char)} (ht : ts[i]? = some t)
    (hp : Program.parse t = .ok p) (hname : alike p.name name)
    (hearlier : ∀ n ∈ (ts.take i).filterMap title?, ¬ alike n name) :
    (ts.filterMap entry?).find? (alike ·.1.name name) = some (p, t) := by
  have hsplit : ts = ts.take i ++ t :: ts.drop (i + 1) := by
    obtain ⟨hi, rfl⟩ := List.getElem?_eq_some_iff.mp ht
    rw [← List.drop_eq_getElem_cons hi, List.take_append_drop]
  have hnone : ((ts.take i).filterMap entry?).find? (alike ·.1.name name) = none := by
    refine List.find?_eq_none.mpr fun e he => hearlier e.1.name ?_
    obtain ⟨u, hu, hue⟩ := List.mem_filterMap.mp he
    exact List.mem_filterMap.mpr ⟨u, hu, by rw [title?, hue, Option.map_some]⟩
  rw [hsplit, List.filterMap_append, List.find?_append, hnone, Option.none_or,
    List.filterMap_cons_some (entry?_eq_some hp), List.find?_cons, hname]

theorem title?_eq_some (hp : Program.parse t = .ok p) : title? t = some p.name := by
  rw [title?, entry?_eq_some hp, Option.map_some]

/-! ### Palindrome checker -/

/-- The program of `palindromeText`. -/
def palindromeChecker : Program where
  name := "Palindrome Checker"
  initial := "q0"
  finals := .ofList ["accept"]
  blank := '_'
  tapes := [['1', '0', '1', '0', '1']]
  heads := [0]
  tapeCount := 1
  rules := [
    ⟨"q0", ['0'], ['_'], [.right], "have0"⟩,
    ⟨"q0", ['1'], ['_'], [.right], "have1"⟩,
    ⟨"q0", ['_'], ['_'], [.stay], "accept"⟩,
    ⟨"have0", ['0'], ['0'], [.right], "have0"⟩,
    ⟨"have0", ['1'], ['1'], [.right], "have0"⟩,
    ⟨"have0", ['_'], ['_'], [.left], "check0"⟩,
    ⟨"have1", ['0'], ['0'], [.right], "have1"⟩,
    ⟨"have1", ['1'], ['1'], [.right], "have1"⟩,
    ⟨"have1", ['_'], ['_'], [.left], "check1"⟩,
    ⟨"check0", ['0'], ['_'], [.left], "back"⟩,
    ⟨"check0", ['_'], ['_'], [.stay], "accept"⟩,
    ⟨"check1", ['1'], ['_'], [.left], "back"⟩,
    ⟨"check1", ['_'], ['_'], [.stay], "accept"⟩,
    ⟨"back", ['0'], ['0'], [.left], "back"⟩,
    ⟨"back", ['1'], ['1'], [.left], "back"⟩,
    ⟨"back", ['_'], ['_'], [.right], "q0"⟩]
  maxSteps := 1000
  detectLoops := true

theorem wellFormed_palindromeChecker : palindromeChecker.WellFormed :=
  Program.check_eq_ok_iff.mp (by decide)

/-! ### Balanced parentheses -/

/-- The program of `balancedParenthesesText`. -/
def balancedParentheses : Program where
  name := "Balanced Parentheses"
  initial := "q0"
  finals := .ofList ["accept"]
  blank := '_'
  tapes := [['(', '(', ')', ')']]
  heads := [0]
  tapeCount := 1
  rules := [
    ⟨"q0", ['('], ['('], [.right], "q0"⟩,
    ⟨"q0", ['X'], ['X'], [.right], "q0"⟩,
    ⟨"q0", [')'], ['X'], [.left], "q1"⟩,
    ⟨"q0", ['_'], ['_'], [.left], "q2"⟩,
    ⟨"q1", ['X'], ['X'], [.left], "q1"⟩,
    ⟨"q1", ['('], ['X'], [.right], "q0"⟩,
    ⟨"q2", ['X'], ['X'], [.left], "q2"⟩,
    ⟨"q2", ['_'], ['_'], [.stay], "accept"⟩]
  maxSteps := 1000
  detectLoops := true

theorem wellFormed_balancedParentheses : balancedParentheses.WellFormed :=
  Program.check_eq_ok_iff.mp (by decide)

/-! ### Bubble sort -/

/-- The program of `bubbleSortText`. -/
def bubbleSort : Program where
  name := "Bubble Sort"
  initial := "start"
  finals := .ofList ["done"]
  blank := '_'
  tapes := [['3', '1', '4', '2']]
  heads := [0]
  tapeCount := 1
  rules := [
    ⟨"start", ['0'], ['0'], [.right], "s0"⟩,
    ⟨"start", ['1'], ['1'], [.right], "s1"⟩,
    ⟨"start", ['2'], ['2'], [.right], "s2"⟩,
    ⟨"start", ['3'], ['3'], [.right], "s3"⟩,
    ⟨"start", ['4'], ['4'], [.right], "s4"⟩,
    ⟨"start", ['_'], ['_'], [.stay], "done"⟩,
    ⟨"s0", ['0'], ['0'], [.right], "s0"⟩,
    ⟨"s0", ['1'], ['1'], [.right], "s1"⟩,
    ⟨"s0", ['2'], ['2'], [.right], "s2"⟩,
    ⟨"s0", ['3'], ['3'], [.right], "s3"⟩,
    ⟨"s0", ['4'], ['4'], [.right], "s4"⟩,
    ⟨"s0", ['_'], ['_'], [.stay], "done"⟩,
    ⟨"s1", ['0'], ['1'], [.left], "put0"⟩,
    ⟨"s1", ['1'], ['1'], [.right], "s1"⟩,
    ⟨"s1", ['2'], ['2'], [.right], "s2"⟩,
    ⟨"s1", ['3'], ['3'], [.right], "s3"⟩,
    ⟨"s1", ['4'], ['4'], [.right], "s4"⟩,
    ⟨"s1", ['_'], ['_'], [.stay], "done"⟩,
    ⟨"s2", ['0'], ['2'], [.left], "put0"⟩,
    ⟨"s2", ['1'], ['2'], [.left], "put1"⟩,
    ⟨"s2", ['2'], ['2'], [.right], "s2"⟩,
    ⟨"s2", ['3'], ['3'], [.right], "s3"⟩,
    ⟨"s2", ['4'], ['4'], [.right], "s4"⟩,
    ⟨"s2", ['_'], ['_'], [.stay], "done"⟩,
    ⟨"s3", ['0'], ['3'], [.left], "put0"⟩,
    ⟨"s3", ['1'], ['3'], [.left], "put1"⟩,
    ⟨"s3", ['2'], ['3'], [.left], "put2"⟩,
    ⟨"s3", ['3'], ['3'], [.right], "s3"⟩,
    ⟨"s3", ['4'], ['4'], [.right], "s4"⟩,
    ⟨"s3", ['_'], ['_'], [.stay], "done"⟩,
    ⟨"s4", ['0'], ['4'], [.left], "put0"⟩,
    ⟨"s4", ['1'], ['4'], [.left], "put1"⟩,
    ⟨"s4", ['2'], ['4'], [.left], "put2"⟩,
    ⟨"s4", ['3'], ['4'], [.left], "put3"⟩,
    ⟨"s4", ['4'], ['4'], [.right], "s4"⟩,
    ⟨"s4", ['_'], ['_'], [.stay], "done"⟩,
    ⟨"put0", ['1'], ['0'], [.left], "rewind"⟩,
    ⟨"put0", ['2'], ['0'], [.left], "rewind"⟩,
    ⟨"put0", ['3'], ['0'], [.left], "rewind"⟩,
    ⟨"put0", ['4'], ['0'], [.left], "rewind"⟩,
    ⟨"put1", ['2'], ['1'], [.left], "rewind"⟩,
    ⟨"put1", ['3'], ['1'], [.left], "rewind"⟩,
    ⟨"put1", ['4'], ['1'], [.left], "rewind"⟩,
    ⟨"put2", ['3'], ['2'], [.left], "rewind"⟩,
    ⟨"put2", ['4'], ['2'], [.left], "rewind"⟩,
    ⟨"put3", ['4'], ['3'], [.left], "rewind"⟩,
    ⟨"rewind", ['0'], ['0'], [.left], "rewind"⟩,
    ⟨"rewind", ['1'], ['1'], [.left], "rewind"⟩,
    ⟨"rewind", ['2'], ['2'], [.left], "rewind"⟩,
    ⟨"rewind", ['3'], ['3'], [.left], "rewind"⟩,
    ⟨"rewind", ['4'], ['4'], [.left], "rewind"⟩,
    ⟨"rewind", ['_'], ['_'], [.right], "start"⟩]
  maxSteps := 1000
  detectLoops := true

theorem wellFormed_bubbleSort : bubbleSort.WellFormed :=
  Program.check_eq_ok_iff.mp (by decide)

/-! ### Binary multiplication -/

/-- The program of `binaryMultiplicationText`. -/
def binaryMultiplication : Program where
  name := "Binary Multiplication"
  initial := "start"
  finals := .ofList ["done"]
  blank := '_'
  tapes := [['1', '0', '1', '*', '1', '1']]
  heads := [0]
  tapeCount := 1
  rules := [
    ⟨"start", ['0'], ['0'], [.left], "open"⟩,
    ⟨"start", ['1'], ['1'], [.left], "open"⟩,
    ⟨"open", ['_'], ['='], [.right], "seek_end"⟩,
    ⟨"seek_end", ['0'], ['0'], [.right], "seek_end"⟩,
    ⟨"seek_end", ['1'], ['1'], [.right], "seek_end"⟩,
    ⟨"seek_end", ['='], ['='], [.right], "seek_end"⟩,
    ⟨"seek_end", ['*'], ['*'], [.right], "seek_end"⟩,
    ⟨"seek_end", ['_'], ['_'], [.left], "borrow"⟩,
    ⟨"borrow", ['0'], ['1'], [.left], "borrow"⟩,
    ⟨"borrow", ['1'], ['0'], [.left], "to_star"⟩,
    ⟨"borrow", ['*'], ['*'], [.right], "wipe_b"⟩,
    ⟨"to_star", ['0'], ['0'], [.left], "to_star"⟩,
    ⟨"to_star", ['1'], ['1'], [.left], "to_star"⟩,
    ⟨"to_star", ['*'], ['*'], [.left], "find_bit"⟩,
    ⟨"find_bit", ['a'], ['a'], [.left], "find_bit"⟩,
    ⟨"find_bit", ['b'], ['b'], [.left], "find_bit"⟩,
    ⟨"find_bit", ['0'], ['a'], [.left], "carry0"⟩,
    ⟨"find_bit", ['1'], ['b'], [.left], "carry1"⟩,
    ⟨"find_bit", ['='], ['='], [.right], "restore_a"⟩,
    ⟨"carry0", ['0'], ['0'], [.left], "carry0"⟩,
    ⟨"carry0", ['1'], ['1'], [.left], "carry0"⟩,
    ⟨"carry0", ['='], ['='], [.left], "add0"⟩,
    ⟨"carry1", ['0'], ['0'], [.left], "carry1"⟩,
    ⟨"carry1", ['1'], ['1'], [.left], "carry1"⟩,
    ⟨"carry1", ['='], ['='], [.left], "add1"⟩,
    ⟨"add0", ['o'], ['o'], [.left], "add0"⟩,
    ⟨"add0", ['i'], ['i'], [.left], "add0"⟩,
    ⟨"add0", ['0'], ['o'], [.right], "return"⟩,
    ⟨"add0", ['1'], ['i'], [.right], "return"⟩,
    ⟨"add0", ['_'], ['o'], [.right], "return"⟩,
    ⟨"add1", ['o'], ['o'], [.left], "add1"⟩,
    ⟨"add1", ['i'], ['i'], [.left], "add1"⟩,
    ⟨"add1", ['0'], ['i'], [.right], "return"⟩,
    ⟨"add1", ['1'], ['o'], [.left], "carry"⟩,
    ⟨"add1", ['_'], ['i'], [.right], "return"⟩,
    ⟨"carry", ['1'], ['0'], [.left], "carry"⟩,
    ⟨"carry", ['0'], ['1'], [.right], "return"⟩,
    ⟨"carry", ['_'], ['1'], [.right], "return"⟩,
    ⟨"return", ['0'], ['0'], [.right], "return"⟩,
    ⟨"return", ['1'], ['1'], [.right], "return"⟩,
    ⟨"return", ['o'], ['o'], [.right], "return"⟩,
    ⟨"return", ['i'], ['i'], [.right], "return"⟩,
    ⟨"return", ['a'], ['a'], [.right], "return"⟩,
    ⟨"return", ['b'], ['b'], [.right], "return"⟩,
    ⟨"return", ['='], ['='], [.right], "return"⟩,
    ⟨"return", ['*'], ['*'], [.left], "find_bit"⟩,
    ⟨"restore_a", ['a'], ['0'], [.right], "restore_a"⟩,
    ⟨"restore_a", ['b'], ['1'], [.right], "restore_a"⟩,
    ⟨"restore_a", ['*'], ['*'], [.left], "to_equals"⟩,
    ⟨"to_equals", ['0'], ['0'], [.left], "to_equals"⟩,
    ⟨"to_equals", ['1'], ['1'], [.left], "to_equals"⟩,
    ⟨"to_equals", ['='], ['='], [.left], "restore_p"⟩,
    ⟨"restore_p", ['o'], ['0'], [.left], "restore_p"⟩,
    ⟨"restore_p", ['i'], ['1'], [.left], "restore_p"⟩,
    ⟨"restore_p", ['0'], ['0'], [.left], "restore_p"⟩,
    ⟨"restore_p", ['1'], ['1'], [.left], "restore_p"⟩,
    ⟨"restore_p", ['_'], ['_'], [.right], "seek_end"⟩,
    ⟨"wipe_b", ['1'], ['_'], [.right], "wipe_b"⟩,
    ⟨"wipe_b", ['_'], ['_'], [.left], "wipe_back"⟩,
    ⟨"wipe_back", ['_'], ['_'], [.left], "wipe_back"⟩,
    ⟨"wipe_back", ['*'], ['_'], [.left], "wipe_a"⟩,
    ⟨"wipe_a", ['0'], ['_'], [.left], "wipe_a"⟩,
    ⟨"wipe_a", ['1'], ['_'], [.left], "wipe_a"⟩,
    ⟨"wipe_a", ['='], ['_'], [.left], "finish"⟩,
    ⟨"finish", ['0'], ['0'], [.stay], "done"⟩,
    ⟨"finish", ['1'], ['1'], [.stay], "done"⟩,
    ⟨"finish", ['_'], ['0'], [.stay], "done"⟩]
  maxSteps := 5000
  detectLoops := true

theorem wellFormed_binaryMultiplication : binaryMultiplication.WellFormed :=
  Program.check_eq_ok_iff.mp (by decide)

/-! ### Prime checker -/

/-- The program of `primeCheckerText`. -/
def primeChecker : Program where
  name := "Prime Checker"
  initial := "start"
  finals := .ofList ["prime"]
  blank := '_'
  tapes := [['1', '1', '1', '1', '1']]
  heads := [0]
  tapeCount := 1
  rules := [
    ⟨"start", ['1'], ['1'], [.right], "one"⟩,
    ⟨"one", ['1'], ['1'], [.right], "scan"⟩,
    ⟨"scan", ['1'], ['1'], [.right], "scan"⟩,
    ⟨"scan", ['_'], ['|'], [.right], "d1"⟩,
    ⟨"d1", ['_'], ['1'], [.right], "d2"⟩,
    ⟨"d2", ['_'], ['1'], [.left], "rewind_d"⟩,
    ⟨"rewind_d", ['1'], ['1'], [.left], "rewind_d"⟩,
    ⟨"rewind_d", ['|'], ['|'], [.right], "first_d"⟩,
    ⟨"first_d", ['y'], ['y'], [.right], "first_d"⟩,
    ⟨"first_d", ['1'], ['y'], [.left], "first_to_bar"⟩,
    ⟨"first_d", ['_'], ['_'], [.left], "first_done"⟩,
    ⟨"first_to_bar", ['y'], ['y'], [.left], "first_to_bar"⟩,
    ⟨"first_to_bar", ['|'], ['|'], [.left], "first_n"⟩,
    ⟨"first_n", ['x'], ['x'], [.left], "first_n"⟩,
    ⟨"first_n", ['1'], ['x'], [.right], "first_back"⟩,
    ⟨"first_n", ['_'], ['_'], [.right], "restore_n"⟩,
    ⟨"first_back", ['x'], ['x'], [.right], "first_back"⟩,
    ⟨"first_back", ['|'], ['|'], [.right], "first_d"⟩,
    ⟨"first_done", ['y'], ['1'], [.left], "first_done"⟩,
    ⟨"first_done", ['|'], ['|'], [.left], "first_rest"⟩,
    ⟨"first_rest", ['x'], ['x'], [.left], "first_rest"⟩,
    ⟨"first_rest", ['1'], ['1'], [.right], "to_bar"⟩,
    ⟨"first_rest", ['_'], ['_'], [.stay], "prime"⟩,
    ⟨"to_bar", ['x'], ['x'], [.right], "to_bar"⟩,
    ⟨"to_bar", ['|'], ['|'], [.right], "next_d"⟩,
    ⟨"next_d", ['y'], ['y'], [.right], "next_d"⟩,
    ⟨"next_d", ['1'], ['y'], [.left], "next_to_bar"⟩,
    ⟨"next_d", ['_'], ['_'], [.left], "next_done"⟩,
    ⟨"next_to_bar", ['y'], ['y'], [.left], "next_to_bar"⟩,
    ⟨"next_to_bar", ['|'], ['|'], [.left], "next_n"⟩,
    ⟨"next_n", ['x'], ['x'], [.left], "next_n"⟩,
    ⟨"next_n", ['1'], ['x'], [.right], "next_back"⟩,
    ⟨"next_n", ['_'], ['_'], [.right], "restore_n"⟩,
    ⟨"next_back", ['x'], ['x'], [.right], "next_back"⟩,
    ⟨"next_back", ['|'], ['|'], [.right], "next_d"⟩,
    ⟨"next_done", ['y'], ['1'], [.left], "next_done"⟩,
    ⟨"next_done", ['|'], ['|'], [.left], "next_rest"⟩,
    ⟨"next_rest", ['x'], ['x'], [.left], "next_rest"⟩,
    ⟨"next_rest", ['1'], ['1'], [.right], "to_bar"⟩,
    ⟨"restore_n", ['x'], ['1'], [.right], "restore_n"⟩,
    ⟨"restore_n", ['1'], ['1'], [.right], "restore_n"⟩,
    ⟨"restore_n", ['|'], ['|'], [.right], "restore_d"⟩,
    ⟨"restore_d", ['y'], ['1'], [.right], "restore_d"⟩,
    ⟨"restore_d", ['1'], ['1'], [.right], "restore_d"⟩,
    ⟨"restore_d", ['_'], ['1'], [.left], "rewind_d"⟩]
  maxSteps := 5000
  detectLoops := true

theorem wellFormed_primeChecker : primeChecker.WellFormed :=
  Program.check_eq_ok_iff.mp (by decide)

/-! ### Binary reverse -/

/-- The program of `binaryReverseText`. -/
def binaryReverse : Program where
  name := "Binary Reverse"
  initial := "start"
  finals := .ofList ["done"]
  blank := '_'
  tapes := [['1', '0', '1', '1', '0']]
  heads := [0]
  tapeCount := 1
  rules := [
    ⟨"start", ['0'], ['0'], [.right], "start"⟩,
    ⟨"start", ['1'], ['1'], [.right], "start"⟩,
    ⟨"start", ['_'], ['|'], [.left], "take"⟩,
    ⟨"take", ['a'], ['a'], [.left], "take"⟩,
    ⟨"take", ['b'], ['b'], [.left], "take"⟩,
    ⟨"take", ['0'], ['a'], [.right], "carry0"⟩,
    ⟨"take", ['1'], ['b'], [.right], "carry1"⟩,
    ⟨"take", ['_'], ['_'], [.right], "erase"⟩,
    ⟨"carry0", ['0'], ['0'], [.right], "carry0"⟩,
    ⟨"carry0", ['1'], ['1'], [.right], "carry0"⟩,
    ⟨"carry0", ['a'], ['a'], [.right], "carry0"⟩,
    ⟨"carry0", ['b'], ['b'], [.right], "carry0"⟩,
    ⟨"carry0", ['|'], ['|'], [.right], "carry0"⟩,
    ⟨"carry0", ['_'], ['0'], [.left], "back"⟩,
    ⟨"carry1", ['0'], ['0'], [.right], "carry1"⟩,
    ⟨"carry1", ['1'], ['1'], [.right], "carry1"⟩,
    ⟨"carry1", ['a'], ['a'], [.right], "carry1"⟩,
    ⟨"carry1", ['b'], ['b'], [.right], "carry1"⟩,
    ⟨"carry1", ['|'], ['|'], [.right], "carry1"⟩,
    ⟨"carry1", ['_'], ['1'], [.left], "back"⟩,
    ⟨"back", ['0'], ['0'], [.left], "back"⟩,
    ⟨"back", ['1'], ['1'], [.left], "back"⟩,
    ⟨"back", ['|'], ['|'], [.left], "take"⟩,
    ⟨"erase", ['a'], ['_'], [.right], "erase"⟩,
    ⟨"erase", ['b'], ['_'], [.right], "erase"⟩,
    ⟨"erase", ['|'], ['_'], [.right], "done"⟩]
  maxSteps := 1000
  detectLoops := true

theorem wellFormed_binaryReverse : binaryReverse.WellFormed :=
  Program.check_eq_ok_iff.mp (by decide)

/-! ### Duplicate string -/

/-- The program of `duplicateStringText`. -/
def duplicateString : Program where
  name := "Duplicate String"
  initial := "q0"
  finals := .ofList ["done"]
  blank := '_'
  tapes := [['a', 'b', 'c']]
  heads := [0]
  tapeCount := 1
  rules := [
    ⟨"q0", ['a'], ['A'], [.right], "carry_a"⟩,
    ⟨"q0", ['b'], ['B'], [.right], "carry_b"⟩,
    ⟨"q0", ['c'], ['C'], [.right], "carry_c"⟩,
    ⟨"q0", ['x'], ['x'], [.left], "lower"⟩,
    ⟨"q0", ['y'], ['y'], [.left], "lower"⟩,
    ⟨"q0", ['z'], ['z'], [.left], "lower"⟩,
    ⟨"q0", ['_'], ['_'], [.left], "lower"⟩,
    ⟨"carry_a", ['a'], ['a'], [.right], "carry_a"⟩,
    ⟨"carry_a", ['b'], ['b'], [.right], "carry_a"⟩,
    ⟨"carry_a", ['c'], ['c'], [.right], "carry_a"⟩,
    ⟨"carry_a", ['x'], ['x'], [.right], "carry_a"⟩,
    ⟨"carry_a", ['y'], ['y'], [.right], "carry_a"⟩,
    ⟨"carry_a", ['z'], ['z'], [.right], "carry_a"⟩,
    ⟨"carry_a", ['_'], ['x'], [.left], "back"⟩,
    ⟨"carry_b", ['a'], ['a'], [.right], "carry_b"⟩,
    ⟨"carry_b", ['b'], ['b'], [.right], "carry_b"⟩,
    ⟨"carry_b", ['c'], ['c'], [.right], "carry_b"⟩,
    ⟨"carry_b", ['x'], ['x'], [.right], "carry_b"⟩,
    ⟨"carry_b", ['y'], ['y'], [.right], "carry_b"⟩,
    ⟨"carry_b", ['z'], ['z'], [.right], "carry_b"⟩,
    ⟨"carry_b", ['_'], ['y'], [.left], "back"⟩,
    ⟨"carry_c", ['a'], ['a'], [.right], "carry_c"⟩,
    ⟨"carry_c", ['b'], ['b'], [.right], "carry_c"⟩,
    ⟨"carry_c", ['c'], ['c'], [.right], "carry_c"⟩,
    ⟨"carry_c", ['x'], ['x'], [.right], "carry_c"⟩,
    ⟨"carry_c", ['y'], ['y'], [.right], "carry_c"⟩,
    ⟨"carry_c", ['z'], ['z'], [.right], "carry_c"⟩,
    ⟨"carry_c", ['_'], ['z'], [.left], "back"⟩,
    ⟨"back", ['a'], ['a'], [.left], "back"⟩,
    ⟨"back", ['b'], ['b'], [.left], "back"⟩,
    ⟨"back", ['c'], ['c'], [.left], "back"⟩,
    ⟨"back", ['x'], ['x'], [.left], "back"⟩,
    ⟨"back", ['y'], ['y'], [.left], "back"⟩,
    ⟨"back", ['z'], ['z'], [.left], "back"⟩,
    ⟨"back", ['A'], ['A'], [.right], "q0"⟩,
    ⟨"back", ['B'], ['B'], [.right], "q0"⟩,
    ⟨"back", ['C'], ['C'], [.right], "q0"⟩,
    ⟨"lower", ['A'], ['a'], [.left], "lower"⟩,
    ⟨"lower", ['B'], ['b'], [.left], "lower"⟩,
    ⟨"lower", ['C'], ['c'], [.left], "lower"⟩,
    ⟨"lower", ['_'], ['_'], [.right], "unmark"⟩,
    ⟨"unmark", ['a'], ['a'], [.right], "unmark"⟩,
    ⟨"unmark", ['b'], ['b'], [.right], "unmark"⟩,
    ⟨"unmark", ['c'], ['c'], [.right], "unmark"⟩,
    ⟨"unmark", ['x'], ['a'], [.right], "unmark"⟩,
    ⟨"unmark", ['y'], ['b'], [.right], "unmark"⟩,
    ⟨"unmark", ['z'], ['c'], [.right], "unmark"⟩,
    ⟨"unmark", ['_'], ['_'], [.stay], "done"⟩]
  maxSteps := 1000
  detectLoops := true

theorem wellFormed_duplicateString : duplicateString.WellFormed :=
  Program.check_eq_ok_iff.mp (by decide)

/-! ### Binary increment -/

/-- The program of `binaryIncrementText`. -/
def binaryIncrement : Program where
  name := "Binary Increment"
  initial := "q0"
  finals := .ofList ["q_halt"]
  blank := '_'
  tapes := [['1', '0', '1', '1']]
  heads := [0]
  tapeCount := 1
  rules := [
    ⟨"q0", ['0'], ['0'], [.right], "q0"⟩,
    ⟨"q0", ['1'], ['1'], [.right], "q0"⟩,
    ⟨"q0", ['_'], ['_'], [.left], "q1"⟩,
    ⟨"q1", ['0'], ['1'], [.stay], "q_halt"⟩,
    ⟨"q1", ['1'], ['0'], [.left], "q1"⟩,
    ⟨"q1", ['_'], ['1'], [.stay], "q_halt"⟩]
  maxSteps := 1000
  detectLoops := true

theorem wellFormed_binaryIncrement : binaryIncrement.WellFormed :=
  Program.check_eq_ok_iff.mp (by decide)

/-! ### The programs and their texts -/

/-- The texts of the programs written out here describe these programs. -/
theorem parse_texts :
    Program.parse palindromeText = .ok palindromeChecker ∧
    Program.parse balancedParenthesesText = .ok balancedParentheses ∧
    Program.parse bubbleSortText = .ok bubbleSort ∧
    Program.parse binaryMultiplicationText = .ok binaryMultiplication ∧
    Program.parse primeCheckerText = .ok primeChecker ∧
    Program.parse binaryReverseText = .ok binaryReverse ∧
    Program.parse duplicateStringText = .ok duplicateString ∧
    Program.parse binaryIncrementText = .ok binaryIncrement := by
  -- one text after the other: the evaluation of a text takes up much memory
  refine ⟨?_, ?_, ?_, ?_, ?_, ?_, ?_, ?_⟩ <;> decide +kernel

theorem parse_palindromeText : Program.parse palindromeText = .ok palindromeChecker :=
  parse_texts.1

theorem parse_balancedParenthesesText :
    Program.parse balancedParenthesesText = .ok balancedParentheses :=
  parse_texts.2.1

theorem parse_bubbleSortText : Program.parse bubbleSortText = .ok bubbleSort :=
  parse_texts.2.2.1

theorem parse_binaryMultiplicationText :
    Program.parse binaryMultiplicationText = .ok binaryMultiplication :=
  parse_texts.2.2.2.1

theorem parse_primeCheckerText : Program.parse primeCheckerText = .ok primeChecker :=
  parse_texts.2.2.2.2.1

theorem parse_binaryReverseText : Program.parse binaryReverseText = .ok binaryReverse :=
  parse_texts.2.2.2.2.2.1

theorem parse_duplicateStringText : Program.parse duplicateStringText = .ok duplicateString :=
  parse_texts.2.2.2.2.2.2.1

theorem parse_binaryIncrementText : Program.parse binaryIncrementText = .ok binaryIncrement :=
  parse_texts.2.2.2.2.2.2.2

/-! ### The programs by their names -/

/-- The names of the programs, in the order of the library. -/
def titles : List String := [
  "Binary Increment", "Unary Addition", "Multi-Tape Copy", "Palindrome Checker",
  "Balanced Parentheses", "Bubble Sort", "Busy Beaver 2", "Ping Pong",
  "Binary Multiplication", "Prime Checker", "Binary Reverse", "Duplicate String"]

/-- The names of the programs that are not written out here. -/
theorem title?_other_texts :
    title? unaryAdditionText = some "Unary Addition" ∧
    title? multiTapeCopyText = some "Multi-Tape Copy" ∧
    title? busyBeaver2Text = some "Busy Beaver 2" ∧
    title? pingPongText = some "Ping Pong" := by
  refine ⟨?_, ?_, ?_, ?_⟩ <;> decide +kernel

/-- Every text of the library describes a program, and these are their names. -/
theorem map_title?_texts : texts.map title? = titles.map some := by
  obtain ⟨haddition, hcopy, hbeaver, hpong⟩ := title?_other_texts
  simp only [texts, List.map_cons, List.map_nil, haddition, hcopy, hbeaver, hpong,
    title?_eq_some parse_palindromeText, title?_eq_some parse_balancedParenthesesText,
    title?_eq_some parse_bubbleSortText, title?_eq_some parse_binaryMultiplicationText,
    title?_eq_some parse_primeCheckerText, title?_eq_some parse_binaryReverseText,
    title?_eq_some parse_duplicateStringText, title?_eq_some parse_binaryIncrementText]
  rfl

theorem filterMap_title?_take (i : Nat) : (texts.take i).filterMap title? = titles.take i :=
  calc
    (texts.take i).filterMap title? = ((texts.map title?).take i).filterMap id := by
      rw [← List.map_take, List.filterMap_map]
      rfl
    _ = ((titles.map some).take i).filterMap id := by rw [map_title?_texts]
    _ = titles.take i := by
      rw [← List.map_take, List.filterMap_map]
      exact List.filterMap_some

/-- A program of the library is found by its name if none of the earlier ones has a name like it. -/
theorem named_eq_ok (i : Nat) (ht : texts[i]? = some t) (hp : Program.parse t = .ok p)
    (hname : alike p.name name) (hearlier : ∀ n ∈ titles.take i, ¬ alike n name) :
    named name = .ok p := by
  have hfind : entries.find? (alike ·.1.name name) = some (p, t) :=
    find?_filterMap_entry ht hp hname (by rwa [filterMap_title?_take])
  unfold named
  rw [hfind]

theorem named_palindromeChecker : named "Palindrome Checker" = .ok palindromeChecker :=
  named_eq_ok 3 rfl parse_palindromeText (by decide) (by decide)

theorem named_balancedParentheses : named "Balanced Parentheses" = .ok balancedParentheses :=
  named_eq_ok 4 rfl parse_balancedParenthesesText (by decide) (by decide)

theorem named_bubbleSort : named "Bubble Sort" = .ok bubbleSort :=
  named_eq_ok 5 rfl parse_bubbleSortText (by decide) (by decide)

theorem named_binaryMultiplication : named "Binary Multiplication" = .ok binaryMultiplication :=
  named_eq_ok 8 rfl parse_binaryMultiplicationText (by decide) (by decide)

theorem named_primeChecker : named "Prime Checker" = .ok primeChecker :=
  named_eq_ok 9 rfl parse_primeCheckerText (by decide) (by decide)

theorem named_binaryReverse : named "Binary Reverse" = .ok binaryReverse :=
  named_eq_ok 10 rfl parse_binaryReverseText (by decide) (by decide)

theorem named_duplicateString : named "Duplicate String" = .ok duplicateString :=
  named_eq_ok 11 rfl parse_duplicateStringText (by decide) (by decide)

theorem named_binaryIncrement : named "Binary Increment" = .ok binaryIncrement :=
  named_eq_ok 0 rfl parse_binaryIncrementText (by decide) (by decide)

end TapeMachine.Library
