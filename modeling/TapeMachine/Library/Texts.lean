/-!
# Library — Texts

The texts of the programs of the library, line by line.
-/

namespace TapeMachine.Library

/-- The characters of some lines, each of which is ended. -/
def ofLines (lines : List String) : List Char := lines.flatMap fun line => line.toList ++ ['\n']

/-- Adds one to a binary number. -/
def binaryIncrementText : List Char := ofLines [
  "name: Binary Increment",
  "tape: 1, 0, 1, 1",
  "final: q_halt",
  "rules:",
  "  # Walk to the right end of the number.",
  "  q0:",
  "    0 -> 0, R, q0",
  "    1 -> 1, R, q0",
  "    _ -> _, L, q1",
  "  # Add one, carrying to the left.",
  "  q1:",
  "    0 -> 1, N, q_halt",
  "    1 -> 0, L, q1",
  "    _ -> 1, N, q_halt",
  "  q_halt:"]

/-- Adds two numbers written in strokes. -/
def unaryAdditionText : List Char := ofLines [
  "name: Unary Addition",
  "tape: 1+11",
  "final: q_halt",
  "rules:",
  "  q0:",
  "    1 -> 1, R, q0",
  "    + -> 1, R, q1",
  "  q1:",
  "    1 -> 1, R, q1",
  "    _ -> _, L, q2",
  "  # Drop the extra 1 that replaced the plus sign.",
  "  q2:",
  "    1 -> _, N, q_halt",
  "  q_halt:"]

/-- Copies the first tape to the second. -/
def multiTapeCopyText : List Char := ofLines [
  "name: Multi-Tape Copy",
  "tapes:",
  "  [a, b, c]",
  "  []",
  "heads: [0, 0]",
  "rules:",
  "  copy:",
  "    [a, _] -> [a, a], [R, R], copy",
  "    [b, _] -> [b, b], [R, R], copy",
  "    [c, _] -> [c, c], [R, R], copy",
  "    [_, _] -> [_, _], [N, N], done",
  "  done:"]

/-- Accepts the binary words that read the same backwards. -/
def palindromeText : List Char := ofLines [
  "name: Palindrome Checker",
  "tape: 1, 0, 1, 0, 1",
  "final: accept",
  "rules:",
  "  # Erase the first symbol and remember it.",
  "  q0:",
  "    0 -> _, R, have0",
  "    1 -> _, R, have1",
  "    _ -> _, N, accept",
  "  have0:",
  "    0, R, have0",
  "    1, R, have0",
  "    _, L, check0",
  "  have1:",
  "    0, R, have1",
  "    1, R, have1",
  "    _, L, check1",
  "  # The last symbol must match; a blank means nothing was left to compare.",
  "  check0:",
  "    0 -> _, L, back",
  "    _, N, accept",
  "  check1:",
  "    1 -> _, L, back",
  "    _, N, accept",
  "  back:",
  "    0, L, back",
  "    1, L, back",
  "    _, R, q0",
  "  accept:"]

/-- Accepts the balanced words of parentheses. -/
def balancedParenthesesText : List Char := ofLines [
  "name: Balanced Parentheses",
  "tape: (())",
  "rules:",
  "  # Find the leftmost unmatched ')'.",
  "  q0:",
  "    ( -> (, R, q0",
  "    X -> X, R, q0",
  "    ) -> X, L, q1",
  "    _ -> _, L, q2",
  "  # Cross off the nearest '(' to its left.",
  "  q1:",
  "    X -> X, L, q1",
  "    ( -> X, R, q0",
  "  # No ')' left, so no '(' may remain either.",
  "  q2:",
  "    X -> X, L, q2",
  "    _ -> _, N, accept",
  "  accept:"]

/-- Sorts the digits from 0 to 4. -/
def bubbleSortText : List Char := ofLines [
  "name: Bubble Sort",
  "tape: 3, 1, 4, 2",
  "final: done",
  "rules:",
  "  # Scan left to right; s<d> remembers the previous digit d.",
  "  start:",
  "    0, R, s0",
  "    1, R, s1",
  "    2, R, s2",
  "    3, R, s3",
  "    4, R, s4",
  "    _, N, done",
  "  # A smaller digit after a larger one swaps the pair and starts over.",
  "  s0:",
  "    0, R, s0",
  "    1, R, s1",
  "    2, R, s2",
  "    3, R, s3",
  "    4, R, s4",
  "    _, N, done",
  "  s1:",
  "    0 -> 1, L, put0",
  "    1, R, s1",
  "    2, R, s2",
  "    3, R, s3",
  "    4, R, s4",
  "    _, N, done",
  "  s2:",
  "    0 -> 2, L, put0",
  "    1 -> 2, L, put1",
  "    2, R, s2",
  "    3, R, s3",
  "    4, R, s4",
  "    _, N, done",
  "  s3:",
  "    0 -> 3, L, put0",
  "    1 -> 3, L, put1",
  "    2 -> 3, L, put2",
  "    3, R, s3",
  "    4, R, s4",
  "    _, N, done",
  "  s4:",
  "    0 -> 4, L, put0",
  "    1 -> 4, L, put1",
  "    2 -> 4, L, put2",
  "    3 -> 4, L, put3",
  "    4, R, s4",
  "    _, N, done",
  "  put0:",
  "    1 -> 0, L, rewind",
  "    2 -> 0, L, rewind",
  "    3 -> 0, L, rewind",
  "    4 -> 0, L, rewind",
  "  put1:",
  "    2 -> 1, L, rewind",
  "    3 -> 1, L, rewind",
  "    4 -> 1, L, rewind",
  "  put2:",
  "    3 -> 2, L, rewind",
  "    4 -> 2, L, rewind",
  "  put3:",
  "    4 -> 3, L, rewind",
  "  put4:",
  "  rewind:",
  "    0, L, rewind",
  "    1, L, rewind",
  "    2, L, rewind",
  "    3, L, rewind",
  "    4, L, rewind",
  "    _, R, start",
  "  done:"]

/-- Writes four strokes with two states. -/
def busyBeaver2Text : List Char := ofLines [
  "name: Busy Beaver 2",
  "tape:",
  "final: HALT",
  "rules:",
  "  A:",
  "    _ -> 1, R, B",
  "    1 -> 1, L, B",
  "  B:",
  "    _ -> 1, L, A",
  "    1 -> 1, R, HALT",
  "  HALT:"]

/-- Goes to and fro for ever. -/
def pingPongText : List Char := ofLines [
  "name: Ping Pong",
  "tape:",
  "final: never",
  "detect_loops: true",
  "rules:",
  "  # Bounces between two cells forever.",
  "  q0:",
  "    _ -> _, R, q1",
  "  q1:",
  "    _ -> _, L, q0"]

/-- Multiplies two binary numbers. -/
def binaryMultiplicationText : List Char := ofLines [
  "name: Binary Multiplication",
  "tape: 1, 0, 1, *, 1, 1",
  "final: done",
  "max_steps: 5000",
  "rules:",
  "  # The product P is built left of `=`: P=A*B. Each round takes one from B and adds A to P.",
  "  start:",
  "    0 -> 0, L, open",
  "    1 -> 1, L, open",
  "  open:",
  "    _ -> =, R, seek_end",
  "  seek_end:",
  "    0, R, seek_end",
  "    1, R, seek_end",
  "    =, R, seek_end",
  "    *, R, seek_end",
  "    _, L, borrow",
  "  # Decrement B. Borrowing past its first digit means B was zero.",
  "  borrow:",
  "    0 -> 1, L, borrow",
  "    1 -> 0, L, to_star",
  "    *, R, wipe_b",
  "  to_star:",
  "    0, L, to_star",
  "    1, L, to_star",
  "    *, L, find_bit",
  "  # Take the lowest unmarked bit of A (0 becomes a, 1 becomes b).",
  "  find_bit:",
  "    a, L, find_bit",
  "    b, L, find_bit",
  "    0 -> a, L, carry0",
  "    1 -> b, L, carry1",
  "    =, R, restore_a",
  "  carry0:",
  "    0, L, carry0",
  "    1, L, carry0",
  "    =, L, add0",
  "  carry1:",
  "    0, L, carry1",
  "    1, L, carry1",
  "    =, L, add1",
  "  # Add the bit at the lowest unmarked position of P (0 becomes o, 1 becomes i).",
  "  add0:",
  "    o, L, add0",
  "    i, L, add0",
  "    0 -> o, R, return",
  "    1 -> i, R, return",
  "    _ -> o, R, return",
  "  add1:",
  "    o, L, add1",
  "    i, L, add1",
  "    0 -> i, R, return",
  "    1 -> o, L, carry",
  "    _ -> i, R, return",
  "  carry:",
  "    1 -> 0, L, carry",
  "    0 -> 1, R, return",
  "    _ -> 1, R, return",
  "  return:",
  "    0, R, return",
  "    1, R, return",
  "    o, R, return",
  "    i, R, return",
  "    a, R, return",
  "    b, R, return",
  "    =, R, return",
  "    *, L, find_bit",
  "  # A has been added; clear the marks on A and P.",
  "  restore_a:",
  "    a -> 0, R, restore_a",
  "    b -> 1, R, restore_a",
  "    *, L, to_equals",
  "  to_equals:",
  "    0, L, to_equals",
  "    1, L, to_equals",
  "    =, L, restore_p",
  "  restore_p:",
  "    o -> 0, L, restore_p",
  "    i -> 1, L, restore_p",
  "    0, L, restore_p",
  "    1, L, restore_p",
  "    _, R, seek_end",
  "  # B is exhausted: erase everything right of P.",
  "  wipe_b:",
  "    1 -> _, R, wipe_b",
  "    _, L, wipe_back",
  "  wipe_back:",
  "    _, L, wipe_back",
  "    * -> _, L, wipe_a",
  "  wipe_a:",
  "    0 -> _, L, wipe_a",
  "    1 -> _, L, wipe_a",
  "    = -> _, L, finish",
  "  finish:",
  "    0, N, done",
  "    1, N, done",
  "    _ -> 0, N, done",
  "  done:"]

/-- Accepts the prime numbers, written in strokes. -/
def primeCheckerText : List Char := ofLines [
  "name: Prime Checker",
  "tape: 1, 1, 1, 1, 1",
  "final: prime",
  "max_steps: 5000",
  "rules:",
  "  # Numbers below two are not prime.",
  "  start:",
  "    1, R, one",
  "  one:",
  "    1, R, scan",
  "  # Lay out the divisor D = 11 after a `|`: N|D.",
  "  scan:",
  "    1, R, scan",
  "    _ -> |, R, d1",
  "  d1:",
  "    _ -> 1, R, d2",
  "  d2:",
  "    _ -> 1, L, rewind_d",
  "  rewind_d:",
  "    1, L, rewind_d",
  "    |, R, first_d",
  "  # Divide N by D one block at a time: each unit of D (marked y) crosses off one unit of N",
  "  # (marked x). The `first_` states handle the first block, the `next_` states the rest.",
  "  first_d:",
  "    y, R, first_d",
  "    1 -> y, L, first_to_bar",
  "    _, L, first_done",
  "  first_to_bar:",
  "    y, L, first_to_bar",
  "    |, L, first_n",
  "  first_n:",
  "    x, L, first_n",
  "    1 -> x, R, first_back",
  "    _, R, restore_n",
  "  first_back:",
  "    x, R, first_back",
  "    |, R, first_d",
  "  first_done:",
  "    y -> 1, L, first_done",
  "    |, L, first_rest",
  "  # N used up by the first block: D equals N, so no smaller divisor exists.",
  "  first_rest:",
  "    x, L, first_rest",
  "    1, R, to_bar",
  "    _, N, prime",
  "  to_bar:",
  "    x, R, to_bar",
  "    |, R, next_d",
  "  next_d:",
  "    y, R, next_d",
  "    1 -> y, L, next_to_bar",
  "    _, L, next_done",
  "  next_to_bar:",
  "    y, L, next_to_bar",
  "    |, L, next_n",
  "  next_n:",
  "    x, L, next_n",
  "    1 -> x, R, next_back",
  "    _, R, restore_n",
  "  next_back:",
  "    x, R, next_back",
  "    |, R, next_d",
  "  next_done:",
  "    y -> 1, L, next_done",
  "    |, L, next_rest",
  "  # N used up after several blocks: D divides N.",
  "  next_rest:",
  "    x, L, next_rest",
  "    1, R, to_bar",
  "  # D leaves a remainder: restore both numbers and try D + 1.",
  "  restore_n:",
  "    x -> 1, R, restore_n",
  "    1, R, restore_n",
  "    |, R, restore_d",
  "  restore_d:",
  "    y -> 1, R, restore_d",
  "    1, R, restore_d",
  "    _ -> 1, L, rewind_d",
  "  prime:"]

/-- Reverses a binary word. -/
def binaryReverseText : List Char := ofLines [
  "name: Binary Reverse",
  "tape: 1, 0, 1, 1, 0",
  "final: done",
  "rules:",
  "  # Append a `|`, then move the input across it one symbol at a time, last symbol first.",
  "  start:",
  "    0, R, start",
  "    1, R, start",
  "    _ -> |, L, take",
  "  take:",
  "    a, L, take",
  "    b, L, take",
  "    0 -> a, R, carry0",
  "    1 -> b, R, carry1",
  "    _, R, erase",
  "  carry0:",
  "    0, R, carry0",
  "    1, R, carry0",
  "    a, R, carry0",
  "    b, R, carry0",
  "    |, R, carry0",
  "    _ -> 0, L, back",
  "  carry1:",
  "    0, R, carry1",
  "    1, R, carry1",
  "    a, R, carry1",
  "    b, R, carry1",
  "    |, R, carry1",
  "    _ -> 1, L, back",
  "  back:",
  "    0, L, back",
  "    1, L, back",
  "    |, L, take",
  "  erase:",
  "    a -> _, R, erase",
  "    b -> _, R, erase",
  "    | -> _, R, done",
  "  done:"]

/-- Writes a word twice. -/
def duplicateStringText : List Char := ofLines [
  "name: Duplicate String",
  "tape: a, b, c",
  "final: done",
  "rules:",
  "  # Copy each symbol to the end. Originals become upper case, copies x, y and z.",
  "  q0:",
  "    a -> A, R, carry_a",
  "    b -> B, R, carry_b",
  "    c -> C, R, carry_c",
  "    x, L, lower",
  "    y, L, lower",
  "    z, L, lower",
  "    _, L, lower",
  "  carry_a:",
  "    a, R, carry_a",
  "    b, R, carry_a",
  "    c, R, carry_a",
  "    x, R, carry_a",
  "    y, R, carry_a",
  "    z, R, carry_a",
  "    _ -> x, L, back",
  "  carry_b:",
  "    a, R, carry_b",
  "    b, R, carry_b",
  "    c, R, carry_b",
  "    x, R, carry_b",
  "    y, R, carry_b",
  "    z, R, carry_b",
  "    _ -> y, L, back",
  "  carry_c:",
  "    a, R, carry_c",
  "    b, R, carry_c",
  "    c, R, carry_c",
  "    x, R, carry_c",
  "    y, R, carry_c",
  "    z, R, carry_c",
  "    _ -> z, L, back",
  "  back:",
  "    a, L, back",
  "    b, L, back",
  "    c, L, back",
  "    x, L, back",
  "    y, L, back",
  "    z, L, back",
  "    A, R, q0",
  "    B, R, q0",
  "    C, R, q0",
  "  # Turn both halves back into plain symbols.",
  "  lower:",
  "    A -> a, L, lower",
  "    B -> b, L, lower",
  "    C -> c, L, lower",
  "    _, R, unmark",
  "  unmark:",
  "    a, R, unmark",
  "    b, R, unmark",
  "    c, R, unmark",
  "    x -> a, R, unmark",
  "    y -> b, R, unmark",
  "    z -> c, R, unmark",
  "    _, N, done",
  "  done:"]

end TapeMachine.Library
