import TapeMachine.Decimal.Numeral
import TapeMachine.Notation.Problem
import TapeMachine.Proofs.Notation.Values
import Mathlib.Data.List.DropRight

/-!
# Notation — Places

What error messages point at stands in the text where it is said to stand (`stands_of_read`): from
there the same reader reads the same thing once more, up to where it is said to end.  A place of the
text is told by its line and its column (`Position.ofOffset_eq`).
-/

namespace TapeMachine.Notation

open Reader Grammar

variable {α : Type} {t : List Char} {doc : Document}

/-- What the reader reads in the text from where `x` starts is `x`, and there it comes to where `x`
ends. -/
def Stands (t : List Char) (p : Reader (Placed α)) (x : Placed α) : Prop :=
  (p ⟨t.drop x.span.start, x.span.start⟩).result =
    some (x, ⟨t.drop x.span.stop, x.span.stop⟩)

/-- A value that is placed by its reader stands in the text. -/
theorem gives_stands {p : Reader α} {R : Placed α → Prop} (h : Gives t (placed p) R) :
    Gives t (placed p) fun x => Stands t (placed p) x ∧ R x := by
  rintro ⟨u, n⟩ x ⟨v, k⟩ hc hx
  obtain ⟨hc', hR⟩ := h _ x _ hc hx
  refine ⟨hc', ?_, hR⟩
  have hspan : x.span = ⟨n, k⟩ := by
    rw [result_placed] at hx
    obtain ⟨⟨a, d⟩, -, e⟩ := Option.map_eq_some_iff.1 hx
    cases e
    rfl
  obtain rfl : t.drop n = u := hc
  obtain rfl : t.drop k = v := hc'
  rwa [Stands, hspan]

/-- The numerals and blocks of a section, and the actions of these blocks, stand in the text. -/
def Section.Stands (t : List Char) : Section → Prop
  | .head n => Notation.Stands t index n
  | .heads ns => ∀ n ∈ ns, Notation.Stands t index n
  | .maxSteps n => Notation.Stands t number n
  | .rules bs => ∀ b ∈ bs, Notation.Stands t block b ∧
    ∀ a ∈ b.value.actions, Notation.Stands t action a
  | .name _ | .blank _ | .tape _ | .tapes _ | .finals _ | .detectLoops _ => True

/-- The sections of the document stand in the text, and so do their parts. -/
def Document.Stands (t : List Char) (doc : Document) : Prop :=
  ∀ s ∈ doc, Notation.Stands t anySection s ∧ s.value.Stands t

theorem stands_index : Gives t index (Stands t index) :=
  Gives.mono (gives_stands stays_index) fun _ h => h.1

theorem stands_number : Gives t number (Stands t number) :=
  Gives.mono (gives_stands gives_number) fun _ h => h.1

theorem stands_action : Gives t action (Stands t action) :=
  Gives.mono (gives_stands gives_action) fun _ h => h.1

theorem stands_block : Gives t block fun b =>
    Stands t block b ∧ ∀ a ∈ b.value.actions, Stands t action a :=
  Gives.mono (gives_stands (gives_block_of stands_action)) fun _ h => ⟨h.1, h.2.2⟩

theorem stands_anySection :
    Gives t anySection fun s => Stands t anySection s ∧ s.value.Stands t := by
  refine gives_stands (Gives.placed (gives_firstOf ?_))
  simp only [List.forall_mem_cons]
  exact ⟨gives_text.headed.map fun _ _ => trivial,
    gives_symbol.headed.map fun _ _ => trivial,
    gives_tapeLists.headed.map fun _ _ => trivial,
    gives_symbols.optional.headed.map fun _ _ => trivial,
    stands_index.listOf.bracketed.headed.map fun _ h => h,
    stands_index.headed.map fun _ h => h,
    gives_finalStates.headed.map fun _ _ => trivial,
    stands_number.headed.map fun _ h => h,
    stays_boolean.headed.map fun _ _ => trivial,
    (gives_blocks_of stands_block).headed.map fun _ h => h, nofun⟩

/-- **What is read stands where it is said to start.** -/
theorem stands_of_read (h : Document.read t = .ok doc) : doc.Stands t :=
  forall_mem_of_read h stands_anySection

/-! ### Lines and columns -/

/-- The position after one more character.  A carriage return is a character of its line, also
before a line feed. -/
def Position.next (p : Position) (c : Char) : Position :=
  if c = '\n' then ⟨p.line + 1, 1⟩ else ⟨p.line, p.column + 1⟩

theorem Position.after_eq_foldl (p : Position) (cs : List Char) : p.after cs = cs.foldl next p := by
  induction p, cs using Position.after.induct with
  | case1 p => rfl
  | case2 p cs ih => exact ih
  | case3 p cs ih => exact ih
  | case4 p c cs hreturn hfeed ih =>
      rw [after, ih, List.foldl_cons, next, if_neg hfeed]
      · exact hreturn
      · exact hfeed

/-- **The line and the column of a place.**  There is one line feed fewer before it than its line
says, and one character fewer after the last of them than its column says. -/
theorem Position.ofOffset_eq (n : Nat) : ofOffset t n =
    ⟨(t.take n).count '\n' + 1, ((t.take n).rtakeWhile (· ≠ '\n')).length + 1⟩ := by
  rw [ofOffset, after_eq_foldl]
  induction t.take n using List.reverseRecOn with
  | nil => rfl
  | append_singleton cs c ih =>
      rw [List.foldl_append, ih]
      by_cases hc : c = '\n' <;> simp [next, hc]

/-! ### Counts -/

theorem value_nonneg {digits : List Char} (h : ∀ c ∈ digits, c.isDigit) :
    0 ≤ Numeral.value digits := by
  rw [Numeral.value.eq_def]
  split
  · exact absurd (h '-' List.mem_cons_self) (by decide)
  · exact Int.natCast_nonneg _

/-- A numeral without a sign writes no negative number. -/
theorem Stands.value_nonneg {n : Placed (List Char)} (h : Stands t number n) :
    0 ≤ Numeral.value n.value :=
  Notation.value_nonneg (gives_number ⟨t.drop n.span.start, n.span.start⟩ n _ rfl h).2

end TapeMachine.Notation
