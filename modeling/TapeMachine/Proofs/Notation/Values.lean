import TapeMachine.Proofs.Notation.Reading
import Mathlib.Data.List.TakeWhile

/-!
# Notation — Values

What the values that a reader gives are like, wherever in a text it starts: `Gives t p R` says that
the reader `p`, from a place of the text `t`, comes to a place of `t` with a value of which `R`
holds.  It is a fact about the grammar alone.  No text is asked for that has the construct in it,
and nothing is said about when the reader fails.

One lemma for each way to put readers together carries such facts from the tokens, where they come
from, up to a whole text (`gives_document_of`): the names of states in it are such names, no symbol
is the quote, and a name ends before a comment and before the end of its line.
-/

namespace TapeMachine.Notation

open Reader Grammar

variable {α β : Type} {t : List Char}

/-- What is left of the text is what comes after as many characters as the cursor tells. -/
def Cursor.Of (t : List Char) (c : Cursor) : Prop := t.drop c.offset = c.rest

/-- From a place of the text the reader comes to another one, with a value that has the property. -/
def Gives (t : List Char) (p : Reader α) (R : α → Prop) : Prop :=
  ∀ c a c', c.Of t → (p c).result = some (a, c') → c'.Of t ∧ R a

/-- From a place of the text the reader comes to another one. -/
abbrev Stays (t : List Char) (p : Reader α) : Prop := Gives t p fun _ => True

/-! ### Putting readers together -/

section

variable {p q : Reader α} {k : α → Reader β} {R R' : α → Prop} {S : β → Prop}

theorem Gives.mono (h : Gives t p R) (hR : ∀ a, R a → R' a) : Gives t p R' := fun c a c' hc e =>
  let ⟨hc', ha⟩ := h c a c' hc e
  ⟨hc', hR a ha⟩

theorem gives_pure {a : α} (ha : R a) : Gives t (pure a) R := by
  rintro c _ _ hc ⟨⟩
  exact ⟨hc, ha⟩

/-- One construct and then the next one, which may depend on it. -/
theorem Gives.bind (hp : Gives t p R) (hk : ∀ a, R a → Gives t (k a) S) : Gives t (p >>= k) S := by
  intro c b c' hc h
  rw [result_bind] at h
  obtain ⟨⟨a, d⟩, ha, hb⟩ := Option.bind_eq_some_iff.1 h
  obtain ⟨hd, ha⟩ := hp c a d hc ha
  exact hk a ha d b c' hd hb

/-- One construct, of which nothing is said, and then the next one. -/
theorem Gives.andThen (hp : Gives t p R) (hk : ∀ a, Gives t (k a) S) : Gives t (p >>= k) S :=
  hp.bind fun a _ => hk a

theorem Gives.map {f : α → β} (hp : Gives t p R) (hS : ∀ a, R a → S (f a)) : Gives t (f <$> p) S :=
  hp.bind fun a ha => gives_pure (hS a ha)

theorem Gives.orElse (hp : Gives t p R) (hq : Gives t q R) : Gives t (p.orElse q) R := by
  intro c a c' hc h
  rw [result_orElse] at h
  rcases Option.or_eq_some_iff.1 h with h | ⟨-, h⟩
  · exact hp c a c' hc h
  · exact hq c a c' hc h

theorem gives_firstOf {ps : List (Reader α)} (hps : ∀ p ∈ ps, Gives t p R) :
    Gives t (firstOf ps) R := by
  induction ps with
  | nil => rintro c a c' hc ⟨⟩
  | cons p ps ih =>
      obtain ⟨hp, hps⟩ := List.forall_mem_cons.1 hps
      exact hp.orElse (ih hps)

theorem Gives.named (hp : Gives t p R) : Gives t (named p) R :=
  fun c a c' hc h => hp c a c' hc (result_named.symm.trans h)

theorem Gives.placed (hp : Gives t p R) : Gives t (placed p) fun x => R x.value := by
  intro c x c' hc h
  rw [result_placed] at h
  obtain ⟨⟨a, d⟩, ha, e⟩ := Option.map_eq_some_iff.1 h
  cases e
  exact hp c a d hc ha

theorem Gives.optional (hp : Gives t p R) : Gives t (optional p) fun x => ∀ a ∈ x, R a :=
  Gives.orElse (hp.map fun a ha => by simpa using ha) (gives_pure nofun)

/-- A construct and more of them. -/
theorem Gives.cons {q : Reader (List α)} (hp : Gives t p R)
    (hq : Gives t q fun as => ∀ a ∈ as, R a) :
    Gives t (do let a ← p; let more ← q; return a :: more) fun as => ∀ a ∈ as, R a :=
  hp.bind fun _ ha => hq.bind fun _ has => gives_pure (List.forall_mem_cons.2 ⟨ha, has⟩)

theorem Gives.repeatFrom (hp : Gives t p R) {fuel : List Char} {done : List α} {n : Nat}
    (hdone : ∀ a ∈ done, R a) : Gives t (repeatFrom p done n fuel) fun as => ∀ a ∈ as, R a := by
  -- When the fuel runs out or the construct is missing, `done` is all that was read.
  induction fuel generalizing done n with
  | nil =>
      rintro c _ _ hc ⟨⟩
      exact ⟨hc, fun a ha => hdone a (List.mem_reverse.1 ha)⟩
  | cons x fuel ih =>
      intro c as c' hc h
      rw [result_repeatFrom] at h
      cases e : (p c).result with
      | none =>
          rw [e] at h
          cases h
          exact ⟨hc, fun a ha => hdone a (List.mem_reverse.1 ha)⟩
      | some y =>
          rw [e] at h
          obtain ⟨hy, ha⟩ := hp c y.1 y.2 hc e
          exact ih (List.forall_mem_cons.2 ⟨ha, hdone⟩) y.2 as c' hy h

theorem Gives.repeated (hp : Gives t p R) : Gives t (repeated p) fun as => ∀ a ∈ as, R a := by
  intro c
  have hnone : ∀ a ∈ ([] : List α), R a := nofun
  exact hp.repeatFrom hnone c

theorem stays_ahead (p : Reader α) : Stays t (ahead p) := by
  intro c a c' hc h
  rw [Reader.ahead] at h
  obtain ⟨x, -, ⟨⟩⟩ := Option.map_eq_some_iff.1 h
  exact ⟨hc, trivial⟩

theorem stays_notAhead (p : Reader α) : Stays t (notAhead p) := by
  intro c a c' hc h
  rw [Reader.notAhead] at h
  split at h
  · cases h
    exact ⟨hc, trivial⟩
  · cases h

end

/-! ### Tokens -/

section

variable {f : Char → Bool}

theorem gives_satisfying : Gives t (satisfying f) fun c => f c := by
  rintro ⟨rest, n⟩ a c' hc h
  cases rest with
  | nil => cases h
  | cons b rest =>
      by_cases hb : f b
      · obtain ⟨rfl, rfl⟩ : b = a ∧ ⟨rest, n + 1⟩ = c' := by
          simpa [Reader.satisfying, hb] using h
        refine ⟨?_, hb⟩
        rw [Cursor.Of] at hc ⊢
        rw [← List.tail_drop, hc]
        rfl
      · simp [Reader.satisfying, hb] at h

theorem Cursor.Of.skipWhile {n : Nat} {u : List Char} (h : Cursor.Of t ⟨u, n⟩) :
    (Cursor.skipWhile f u n).Of t := by
  induction u generalizing n with
  | nil => exact h
  | cons c u ih =>
      rw [Cursor.skipWhile]
      split
      · refine ih ?_
        rw [Cursor.Of] at h ⊢
        rw [← List.tail_drop, h]
        rfl
      · exact h

theorem gives_takeWhile : Gives t (takeWhile f) fun w => ∀ c ∈ w, f c := by
  rintro c _ _ hc ⟨⟩
  exact ⟨hc.skipWhile, fun a ha => List.mem_takeWhile_imp ha⟩

theorem gives_takeWhile1 : Gives t (takeWhile1 f) fun w => w ≠ [] ∧ ∀ c ∈ w, f c :=
  gives_satisfying.bind fun a ha => gives_takeWhile.bind fun w hw =>
    gives_pure ⟨List.cons_ne_nil a w, List.forall_mem_cons.2 ⟨ha, hw⟩⟩

end

theorem stays_literal (word : String) : Stays t (literal word) := by
  rw [literal]
  induction word.toList with
  | nil => exact gives_pure trivial
  | cons a w ih => exact gives_satisfying.andThen fun _ => ih

theorem stays_gap : Stays t gap := by
  intro c a c' hc h
  rw [gap] at h
  split at h <;> cases h
  · exact ⟨hc.skipWhile.skipWhile, trivial⟩
  · exact ⟨hc.skipWhile, trivial⟩

theorem stays_endOfText : Stays t endOfText := by
  intro c a c' hc h
  rw [endOfText] at h
  split at h
  · cases h
    exact ⟨hc, trivial⟩
  · cases h

/-! ### Constructs with gaps -/

section

variable {p : Reader α} {R : α → Prop}

theorem Gives.next (hp : Gives t p R) : Gives t (next p) R := stays_gap.andThen fun _ => hp

theorem Gives.many (hp : Gives t p R) : Gives t (many p) fun as => ∀ a ∈ as, R a :=
  (hp.cons hp.next.repeated).orElse (gives_pure nofun)

theorem Gives.listOf (hp : Gives t p R) : Gives t (listOf p) fun as => ∀ a ∈ as, R a :=
  hp.cons (Gives.many ((stays_literal _).andThen fun _ => hp.next)).next

theorem Gives.bracketed (hp : Gives t p R) : Gives t (bracketed p) R :=
  (stays_literal _).andThen fun _ => hp.next.bind fun _ ha =>
    (stays_literal _).next.andThen fun _ => gives_pure ha

theorem Gives.headed {word : String} (hp : Gives t p R) : Gives t (headed word p) R :=
  ((stays_literal _).andThen fun _ => (stays_literal _).next.andThen fun _ => hp.next).named

end

theorem stays_lineBreak : Stays t lineBreak := by
  refine gives_firstOf ?_
  simp only [List.forall_mem_cons]
  exact ⟨stays_literal _, stays_literal _, stays_literal _, nofun⟩

theorem stays_lineBreaks : Stays t lineBreaks :=
  stays_lineBreak.andThen fun _ => stays_lineBreak.many.next.andThen fun _ => gives_pure trivial

/-- The characters are on one line and before a comment. -/
def OnLine (t : List Char) : Prop := ∀ c ∈ t, c ∉ ['#', '\n', '\r']

theorem gives_text : Gives t text OnLine := by
  refine gives_takeWhile1.named.mono fun t ht c hc => ?_
  have hc := ht.2 c hc
  simp only [isLineEnd, Bool.and_eq_true, Bool.not_eq_true', Bool.or_eq_false_iff,
    decide_eq_false_iff_not, bne_iff_ne] at hc
  simpa using ⟨hc.2, hc.1.1, hc.1.2⟩

theorem gives_state : Gives t state fun s => IsStateName s.toList := by
  refine (gives_takeWhile1.map fun w hw => ?_).named
  rw [String.toList_ofList]
  exact ⟨hw.1, fun c hc => by simpa [IsStateChar] using hw.2 c hc⟩

theorem gives_symbol : Gives t symbol fun s => s ≠ '\'' := by
  refine Gives.named (Gives.orElse ?_ (gives_satisfying.mono fun c hc => ?_))
  · exact (stays_literal _).andThen fun _ => gives_satisfying.bind fun c hc =>
      (stays_literal _).andThen fun _ => gives_pure (bne_iff_ne.1 hc)
  · rintro rfl
    cases hc

/-! ### Tapes -/

/-- None of the symbols is the quote. -/
def Unquoted (w : Word) : Prop := ∀ s ∈ w, s ≠ '\''

theorem gives_symbols : Gives t symbols Unquoted :=
  (gives_symbol.cons (Gives.many ((stays_literal _).optional.andThen fun _ =>
    gives_symbol.next)).next).named

/-- What may be missing is empty. -/
theorem Unquoted.getD {w : Option Word} (h : ∀ v ∈ w, Unquoted v) : Unquoted (w.getD []) := by
  cases w with
  | none => exact nofun
  | some w => exact h w rfl

theorem gives_tapeList : Gives t tapeList Unquoted :=
  ((stays_literal _).andThen fun _ => gives_symbols.optional.next.bind fun _ hw =>
    (stays_literal _).next.andThen fun _ => gives_pure (Unquoted.getD hw)).named

theorem gives_tapeLists : Gives t tapeLists fun ws => ∀ w ∈ ws, Unquoted w :=
  stays_lineBreak.many.andThen fun _ => gives_tapeList.next.cons
    (Gives.many (stays_lineBreak.many.andThen fun _ => gives_tapeList.next)).next

/-! ### Rules -/

/-- The symbols of the action can be written, and so can its next state. -/
structure Action.Proper (a : Action) : Prop where
  read : Unquoted a.read
  write : ∀ w ∈ a.write, Unquoted w
  next : IsStateName a.next.toList

/-- The state of the block can be written, and so can its actions. -/
structure Block.Proper (b : Block) : Prop where
  state : IsStateName b.state.toList
  actions : ∀ a ∈ b.actions, a.value.Proper

theorem Gives.written {p : Reader α} {R : α → Prop} (hp : Gives t p R) :
    Gives t (written p) fun x => ∀ a ∈ x, R a :=
  (Gives.optional ((stays_literal _).andThen fun _ => hp.next)).next

theorem gives_target : Gives t target fun s => IsStateName s.toList :=
  (stays_literal _).next.andThen fun _ => gives_state.next

theorem stays_direction : Stays t direction := by
  refine Gives.named (gives_firstOf ?_)
  simp only [List.forall_mem_cons]
  have hmove (word : String) (m : Move) : Stays t (do literal word; return m) :=
    (stays_literal word).andThen fun _ => gives_pure trivial
  exact ⟨hmove _ _, hmove _ _, hmove _ _, hmove _ _, hmove _ _, hmove _ _, hmove _ _, nofun⟩

theorem gives_singleAction : Gives t singleAction Action.Proper := by
  refine (gives_symbol.bind fun s hs => gives_symbol.written.bind fun w hw =>
    (stays_literal _).next.andThen fun _ => stays_direction.next.andThen fun _ =>
      gives_target.bind fun n hn => gives_pure ?_).named
  refine ⟨List.forall_mem_singleton.2 hs, fun v hv => ?_, hn⟩
  obtain ⟨x, hx, rfl⟩ := Option.mem_map.1 hv
  exact List.forall_mem_singleton.2 (hw x hx)

theorem gives_symbolList : Gives t symbolList Unquoted := gives_symbol.listOf.bracketed.named

theorem gives_listAction : Gives t listAction Action.Proper :=
  (gives_symbolList.bind fun _ hs => gives_symbolList.written.bind fun _ hw =>
    (stays_literal _).next.andThen fun _ => stays_direction.listOf.bracketed.named.next.andThen
      fun _ => gives_target.bind fun _ hn => gives_pure ⟨hs, hw, hn⟩).named

theorem gives_action : Gives t action fun a => a.value.Proper :=
  (gives_listAction.orElse gives_singleAction).named.placed

theorem gives_block_of {R : Placed Action → Prop} (h : Gives t action R) : Gives t block fun b =>
    IsStateName b.value.state.toList ∧ ∀ a ∈ b.value.actions, R a := by
  have hline : Gives t (do lineBreaks; next action) R := stays_lineBreaks.andThen fun _ => h.next
  refine Gives.placed (R := fun b : Block => IsStateName b.state.toList ∧ ∀ a ∈ b.actions, R a)
    (Gives.named ?_)
  exact (stays_notAhead _).andThen fun _ => gives_state.next.bind fun _ hs =>
    (stays_literal _).next.andThen fun _ => hline.many.next.bind fun _ has =>
      gives_pure ⟨hs, has⟩

theorem gives_block : Gives t block fun b => b.value.Proper :=
  (gives_block_of gives_action).mono fun _ hb => ⟨hb.1, hb.2⟩

/-! ### Sections -/

/-- What a section says can be written. -/
def Section.Proper : Section → Prop
  | .name t => OnLine t
  | .blank s => s ≠ '\''
  | .tape w => Unquoted w
  | .tapes ws => ∀ w ∈ ws, Unquoted w
  | .finals ss => ∀ s ∈ ss, IsStateName s.toList
  | .rules bs => ∀ b ∈ bs, b.value.Proper
  | .head _ | .heads _ | .maxSteps _ | .detectLoops _ => True

theorem stays_index : Stays t index :=
  Gives.placed (R := fun _ => True) (Gives.named (gives_satisfying.optional.andThen fun _ =>
    gives_takeWhile1.andThen fun _ => gives_pure trivial))

theorem gives_number : Gives t number fun n => ∀ c ∈ n.value, c.isDigit :=
  (gives_takeWhile1.mono fun _ h => h.2).named.placed

theorem stays_boolean : Stays t boolean :=
  (((stays_literal _).andThen fun _ => gives_pure trivial).orElse
    ((stays_literal _).andThen fun _ => gives_pure trivial)).named

theorem gives_finalStates : Gives t finalStates fun ss => ∀ s ∈ ss, IsStateName s.toList :=
  gives_state.listOf.bracketed.orElse gives_state.listOf

theorem gives_blocks_of {R : Placed Block → Prop} (h : Gives t block R) :
    Gives t blocks fun bs => ∀ b ∈ bs, R b :=
  Gives.many (stays_lineBreaks.andThen fun _ => h.next)

theorem gives_anySection : Gives t anySection fun s => s.value.Proper := by
  refine (gives_firstOf ?_).placed
  simp only [List.forall_mem_cons]
  exact ⟨gives_text.headed.map fun _ h => h,
    gives_symbol.headed.map fun _ h => h,
    gives_tapeLists.headed.map fun _ h => h,
    gives_symbols.optional.headed.map fun _ h => Unquoted.getD h,
    stays_index.listOf.bracketed.headed.map fun _ _ => trivial,
    stays_index.headed.map fun _ h => h,
    gives_finalStates.headed.map fun _ h => h,
    gives_number.headed.map fun _ _ => trivial,
    stays_boolean.headed.map fun _ h => h,
    (gives_blocks_of gives_block).headed.map fun _ h => h, nofun⟩

theorem gives_document_of {R : Placed Section → Prop} (h : Gives t anySection R) :
    Gives t document fun doc => ∀ s ∈ doc, R s := by
  have hend : Stays t theEnd := stays_endOfText.named
  have hline : Gives t
      (do let s ← anySection; next (lineBreaks.orElse (ahead theEnd)); return s) R :=
    h.bind fun _ hs => (stays_lineBreaks.orElse (stays_ahead _)).next.andThen fun _ =>
      gives_pure hs
  exact (stays_lineBreak.many.next.andThen fun _ => hline.many.next.bind fun _ hdoc =>
    hend.next.andThen fun _ => gives_pure hdoc).named

/-- What holds of every section that can be read holds of those of a document. -/
theorem forall_mem_of_read {R : Placed Section → Prop} {doc : Document}
    (h : Document.read t = .ok doc) (hR : Gives t anySection R) : ∀ s ∈ doc, R s := by
  rw [Document.read] at h
  split at h
  · next c n e =>
      cases h
      exact (gives_document_of hR ⟨t, 0⟩ doc c rfl (congrArg Reply.result e)).2
  · cases h

/-- **Every section of a document that is read is proper**, whatever the text. -/
theorem proper_of_read {doc : Document} (h : Document.read t = .ok doc) :
    ∀ s ∈ doc, s.value.Proper :=
  forall_mem_of_read h gives_anySection

end TapeMachine.Notation
