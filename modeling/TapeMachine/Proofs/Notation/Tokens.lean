import TapeMachine.Proofs.Notation.Reading
import TapeMachine.Proofs.Text.Blank
import Mathlib.Data.List.TakeWhile

/-!
# Notation — Tokens

The readers of characters, of tokens and of headings, on the texts that `Spelling` relates to them.
A token that has no end of its own, such as the name of a state, has to be followed by a character
that cannot go on it (`Cut`).
-/

namespace TapeMachine.Notation

open Reader Grammar

variable {α β : Type} {u v : List Char}

/-! ### Characters -/

theorem takes_satisfying {p : Char → Bool} {c : Char} (h : p c) :
    Takes (satisfying p) (c :: v) (· = c) v :=
  fun n => ⟨c, v, n + 1, rfl, .refl v, by simp [Reader.satisfying, h]⟩

theorem fails_satisfying {p : Char → Bool} (h : ∀ c ∈ u.head?, p c = false) :
    Fails (satisfying p) u := by
  intro n
  cases u with
  | nil => rfl
  | cons c u => simp [Reader.satisfying, h c rfl]

theorem takes_characters (w : List Char) : Takes (characters w) (w ++ v) (fun _ => True) v := by
  induction w with
  | nil => exact (takesOn_pure trivial).takes
  | cons c w ih =>
      intro n
      obtain ⟨a, v', n', -, hv, e⟩ := ih (n + 1)
      refine ⟨(), v', n', trivial, hv, ?_⟩
      rw [characters, result_bind]
      simpa [Reader.satisfying] using e

theorem takes_literal (w : String) : Takes (literal w) (w.toList ++ v) (fun _ => True) v :=
  takes_characters _

/-- A literal is a prefix of the text from which it is taken. -/
theorem result_characters {w : List Char} {c c' : Cursor} {a : Unit}
    (h : (characters w c).result = some (a, c')) : c.rest = w ++ c'.rest := by
  induction w generalizing c with
  | nil =>
      obtain ⟨-, rfl⟩ := Prod.mk.inj (Option.some.inj h)
      rfl
  | cons x w ih =>
      rw [characters, result_bind, Option.bind_eq_some_iff] at h
      obtain ⟨⟨y, d⟩, hy, hd⟩ := h
      obtain ⟨rest, n⟩ := c
      cases rest with
      | nil => cases hy
      | cons z rest =>
          by_cases hz : z = x
          · obtain ⟨rfl, rfl⟩ : z = y ∧ ⟨rest, n + 1⟩ = d := by
              simpa [Reader.satisfying, hz] using hy
            rw [hz, List.cons_append, ← ih hd]
          · simp [Reader.satisfying, hz] at hy

theorem fails_literal {w : String} (h : ¬ w.toList <+: u) : Fails (literal w) u := by
  intro n
  rw [Option.eq_none_iff_forall_not_mem]
  rintro ⟨a, c⟩ hc
  exact h ⟨c.rest, (result_characters hc).symm⟩

/-- A literal is not there if its first character is not. -/
theorem fails_literal_of_head {k : String} {c : Char} {cs : List Char} (hk : k.toList = c :: cs)
    (hu : ∀ x ∈ u.head?, x ≠ c) : Fails (literal k) u := by
  refine fails_literal ?_
  rw [hk]
  rintro ⟨v, rfl⟩
  exact hu c rfl rfl

theorem takes_takeWhile1 {p : Char → Bool} {t : List Char} (ht : t ≠ []) (hp : ∀ c ∈ t, p c)
    (hv : ∀ c ∈ v.head?, p c = false) : Takes (takeWhile1 p) (t ++ v) (· = t) v := by
  obtain ⟨c, t, rfl⟩ := List.exists_cons_of_ne_nil ht
  obtain ⟨hc, ht⟩ := List.forall_mem_cons.1 hp
  intro n
  obtain ⟨n', hn⟩ := skipWhile_eq p (t ++ v) (n + 1)
  refine ⟨c :: t, v, n', rfl, .refl v, ?_⟩
  rw [takeWhile1, result_bind]
  simp only [List.cons_append, Reader.satisfying, hc, if_true, Option.bind_some]
  rw [result_bind, takeWhile, hn, Option.bind_some, List.takeWhile_append_of_pos ht,
    List.dropWhile_append_of_pos ht, takeWhile_eq_nil hv, dropWhile_eq_self hv, List.append_nil]
  rfl

/-! ### Symbols and moves -/

theorem isPlain_of_not_mem {s : Symbol} (h : s ∉ [',', '[', ']', '\'', '#'])
    (hs : isWhiteSpace s = false) : isPlain s := by
  have hne : ∀ c, isWhiteSpace c → s ≠ c := by
    rintro c hc rfl
    rw [hs] at hc
    cases hc
  simp only [List.mem_cons, not_or] at h
  simp [isPlain, isLineEnd, h, hne ' ' rfl, hne '\t' rfl, hne '\n' rfl, hne '\r' rfl]

theorem takes_symbol {s : Symbol} {t : List Char} (h : SymbolText s t) :
    Takes symbol (t ++ v) (· = s) v := by
  refine Takes.named ?_
  cases h with
  | quoted hs =>
      -- The quotes and the symbol are three characters, read one after the other.
      refine Takes.orElse fun n => ⟨s, v, n + 3, rfl, .refl v, ?_⟩
      change ((do literal "'"; let c ← satisfying (· != '\''); literal "'"; return c : Reader Symbol)
        ⟨'\'' :: s :: '\'' :: v, n⟩).result = _
      simp [result_bind, literal, characters, Reader.satisfying, hs, result_pure, succeed]
  | plain hs hw =>
      refine Fails.orElse_takes (fails_literal_of_head rfl ?_).bind
        (takes_satisfying (isPlain_of_not_mem hs hw))
      rintro _ ⟨⟩ rfl
      exact hs (by decide)

theorem fails_symbol (h : ∀ c ∈ u.head?, isPlain c = false ∧ c ≠ '\'') : Fails symbol u := by
  exact (Fails.orElse (fails_literal_of_head rfl fun c hc => (h c hc).2).bind
    (fails_satisfying fun c hc => (h c hc).1)).named

theorem takes_direction {m : Move} {t : List Char} (h : MoveText m t) :
    Takes direction (t ++ v) (· = m) v := by
  cases h with
  | left h | right h | stay h =>
      fin_cases h <;> exact fun n => ⟨_, v, n + 1, rfl, .refl v, rfl⟩

/-! ### States and numbers -/

instance : DecidablePred IsStateChar := fun _ => inferInstanceAs (Decidable (_ ∨ _))

instance : DecidablePred IsStateName := fun w =>
  haveI : Decidable (∀ c ∈ w, IsStateChar c) := List.decidableBAll _ _
  inferInstanceAs (Decidable (_ ∧ _))

/-- A text that starts with something on its first line, and no comment. -/
def Ink (u : List Char) : Prop := ∀ c ∈ u.head?, c ∉ [' ', '\t', '#', '\n', '\r']

theorem Ink.solid (h : Ink u) : Solid u := by
  intro c hc
  have := h c hc
  simp_all

/-- A text that does not start with a character of a name. -/
def Cut (u : List Char) : Prop := ∀ c ∈ u.head?, ¬ IsStateChar c

theorem takes_state {s : State} {t : List Char} (h : StateText s t) (hv : Cut v) :
    Takes state (t ++ v) (· = s) v := by
  obtain ⟨⟨hne, hall⟩, rfl⟩ := h
  have hread : Takes (takeWhile1 fun c => c.isAlphanum || c = '_') (s.toList ++ v)
      (· = s.toList) v := by
    refine takes_takeWhile1 hne (fun c hc => ?_) (fun c hc => ?_)
    · simpa [IsStateChar] using hall c hc
    · simpa [IsStateChar] using hv c hc
  refine (hread.map ?_).named
  rintro _ rfl
  exact String.ofList_toList

theorem not_isDigit_of_cut {c : Char} (h : ¬ IsStateChar c) : c.isDigit = false := by
  simp only [IsStateChar, Char.isAlphanum, Bool.or_eq_true, not_or, Bool.not_eq_true] at h
  exact h.1.2

theorem takes_digits {n : Nat} {t : List Char} (h : CountText n t) (hv : Cut v) :
    Takes (takeWhile1 Char.isDigit) (t ++ v) (· = t) v :=
  takes_takeWhile1 h.1 h.2.1 fun c hc => not_isDigit_of_cut (hv c hc)

/-- Digits are no minus. -/
theorem CountText.head_ne {n : Nat} {t : List Char} (h : CountText n t) :
    ∀ c ∈ (t ++ v).head?, c ≠ '-' := by
  obtain ⟨c, t, rfl⟩ := List.exists_cons_of_ne_nil h.1
  rintro _ ⟨⟩ rfl
  cases h.2.1 '-' List.mem_cons_self

theorem CountText.value_eq {n : Nat} {t : List Char} (h : CountText n t) : Numeral.value t = n := by
  have hne := h.head_ne (v := [])
  obtain ⟨c, t, rfl⟩ := List.exists_cons_of_ne_nil h.1
  rw [Numeral.value, h.2.2]
  rintro ds ⟨⟩
  exact hne '-' rfl rfl

theorem takes_number {n : Nat} {t : List Char} (h : CountText n t) (hv : Cut v) :
    Takes number (t ++ v) (fun x => Numeral.value x.value = n) v := by
  refine ((takes_digits h hv).named.placed).mono ?_ (.refl v)
  rintro x rfl
  exact h.value_eq

theorem takes_index {i : Int} {t : List Char} (h : PositionText i t) (hv : Cut v) :
    Takes index (t ++ v) (fun x => Numeral.value x.value = i) v := by
  refine Takes.placed (R := fun ds => Numeral.value ds = i) (Takes.named fun n => ?_)
  cases h with
  | @positive m t h =>
      have hsign : Fails (satisfying (· = '-')) (t ++ v) :=
        fails_satisfying fun c hc => by simpa using h.head_ne c hc
      obtain ⟨ds, v', n', rfl, hv', e⟩ := takes_digits h hv n
      refine ⟨ds, v', n', h.value_eq, hv', ?_⟩
      rw [result_bind, result_optional, hsign n, Option.bind_some, result_bind, e]
      rfl
  | @negative m t h =>
      obtain ⟨ds, v', n', rfl, hv', e⟩ := takes_digits h hv (n + 1)
      refine ⟨'-' :: ds, v', n', by rw [Numeral.value, h.2.2], hv', ?_⟩
      have hsign : (satisfying (· = '-') ⟨'-' :: (ds ++ v), n⟩).result =
          some ('-', ⟨ds ++ v, n + 1⟩) := rfl
      rw [result_bind, List.cons_append, result_optional, hsign, Option.bind_some, result_bind, e]
      rfl

theorem takes_boolean (b : Bool) :
    Takes boolean ((toString b).toList ++ v) (· = b) v := by
  refine Takes.named ?_
  cases b with
  | true => exact ((takes_literal "true").bind fun _ _ => takesOn_pure (R := (· = true)) rfl).orElse
  | false =>
      have hfail : Fails (literal "true") ("false".toList ++ v) := fails_literal (by simp)
      exact hfail.bind.orElse_takes
        ((takes_literal "false").bind fun _ _ => takesOn_pure (R := (· = false)) rfl)

/-! ### Headings -/

/-- A word before a colon starts with no other word. -/
theorem Headed.prefix_of {k s : List Char} (h : Headed s u v) (hk : ∀ c ∈ k, IsStateChar c)
    (hku : k <+: u) : k <+: s := by
  obtain ⟨g, hg, rfl⟩ := h
  obtain ⟨y, hy⟩ := hku
  rcases List.append_eq_append_iff.1 hy with ⟨x, hx, -⟩ | ⟨x, hx, hy⟩
  · exact ⟨x, hx.symm⟩
  · cases x with
    | nil => exact ⟨[], by simpa using hx⟩
    | cons c x =>
        have hc : IsStateChar c := hk c (by simp [hx])
        cases g with
        | nil =>
            obtain ⟨rfl, -⟩ := List.cons.inj hy
            exact absurd hc (by decide)
        | cons d g =>
            obtain ⟨rfl, -⟩ := List.cons.inj hy
            rcases hg d List.mem_cons_self with rfl | rfl <;> exact absurd hc (by decide)

/-- After a shorter word than the one before the colon the name goes on. -/
theorem Headed.rest_of_prefix {k s x : List Char} (h : Headed s u v) (hs : ∀ c ∈ s, IsStateChar c)
    (hk : ∀ c ∈ k, IsStateChar c) (hne : k ≠ s) (hx : u = k ++ x) :
    ∃ c y, IsStateChar c ∧ x = c :: y := by
  obtain ⟨z, rfl⟩ := h.prefix_of hk ⟨x, hx.symm⟩
  obtain ⟨g, -, rfl⟩ := h
  cases z with
  | nil => exact absurd (List.append_nil k).symm hne
  | cons c z =>
      rw [List.append_assoc, List.append_cancel_left_eq] at hx
      exact ⟨c, _, hs c (by simp), hx.symm⟩

/-- A character of a name starts no gap and is no colon. -/
theorem solid_of_isStateChar {c : Char} (hc : IsStateChar c) (u : List Char) : Solid (c :: u) := by
  rintro _ ⟨⟩
  refine ⟨?_, ?_, ?_⟩ <;> rintro rfl <;> exact absurd hc (by decide)

theorem failsOn_colon {c : Char} (hc : IsStateChar c) (u : List Char) :
    FailsOn (next (literal ":")) (c :: u) := by
  refine Fails.next (fails_literal_of_head rfl ?_) (solid_of_isStateChar hc u)
  rintro _ ⟨⟩ rfl
  exact absurd hc (by decide)

theorem isStateName_of_mem_keywords {k : String} (hk : k ∈ keywords) : IsStateName k.toList := by
  revert k
  decide

/-- Another word than the one before the colon is not there, or the name goes on after it. -/
theorem Headed.fails_word {s : State} {k : String} {q : Reader α} (h : Headed s.toList u v)
    (hs : IsStateName s.toList) (hk : k ∈ keywords) (hne : k ≠ s)
    (hq : ∀ c y, IsStateChar c → FailsOn q (c :: y)) : Fails (do literal k; q) u := by
  by_cases hku : k.toList <+: u
  · obtain ⟨x, rfl⟩ := hku
    obtain ⟨c, y, hc, rfl⟩ := h.rest_of_prefix hs.2 (isStateName_of_mem_keywords hk).2
      (fun e => hne (String.toList_inj.1 e)) rfl
    exact (takes_literal k).bind_fails fun _ _ => hq c y hc
  · exact (fails_literal hku).bind

/-- The heading of another section. -/
theorem Headed.fails_headed {s : State} {k : String} {q : Reader α} (h : Headed s.toList u v)
    (hs : IsStateName s.toList) (hk : k ∈ keywords) (hne : k ≠ s) : Fails (headed k q) u :=
  (h.fails_word hs hk hne fun _ y hc => (failsOn_colon hc y).bind).named

/-- The colon of a heading. -/
theorem takesOn_colon {g : List Char} (hg : Blanks g) :
    TakesOn (next (literal ":")) (g ++ ':' :: v) (fun _ => True) v := by
  refine (Takes.next (takes_literal ":") ?_).indent (hg.indented _)
  rintro _ ⟨⟩
  decide

/-- The heading of a section, and its content. -/
theorem Headed.takes_headed {k : String} {q : Reader α} {R : α → Prop} {w : List Char}
    (h : Headed k.toList u v) (hq : TakesOn (next q) v R w) : Takes (headed k q) u R w := by
  obtain ⟨g, hg, rfl⟩ := h
  exact ((takes_literal k).bind fun _ _ => (takesOn_colon hg).bind fun _ _ => hq).named

/-- A state that is no keyword is not taken for one. -/
theorem Headed.fails_keyword {s : State} (h : Headed s.toList u v) (hs : IsStateName s.toList)
    (hkey : s ∉ keywords) : Fails keyword u := by
  refine fails_firstOf_bind fun p (hp : p ∈ keywords.map literal) => ?_
  obtain ⟨k, hk, rfl⟩ := List.mem_map.1 hp
  have hne : k ≠ s := by
    rintro rfl
    exact hkey hk
  exact h.fails_word hs hk hne fun _ y hc => failsOn_colon hc y

/-- Among words of which none goes on an earlier one, the word before the colon is found. -/
theorem Headed.takes_firstOf {k : String} {ks : List String} (h : Headed k.toList u v)
    (hks : ∀ x ∈ ks, IsStateName x.toList) (hk : k ∈ ks)
    (hpair : ks.Pairwise fun x y => ¬ x.toList <+: y.toList) :
    ∃ w, Indented w (':' :: v) ∧ Takes (firstOf (ks.map literal)) u (fun _ => True) w := by
  induction ks with
  | nil => cases hk
  | cons x ks ih =>
      obtain ⟨hx, hks⟩ := List.forall_mem_cons.1 hks
      obtain ⟨hxk, hpair⟩ := List.pairwise_cons.1 hpair
      rcases List.mem_cons.1 hk with rfl | hk
      · obtain ⟨g, hg, rfl⟩ := h
        exact ⟨g ++ ':' :: v, hg.indented _, (takes_literal k).orElse⟩
      · obtain ⟨w, hw, htake⟩ := ih hks hk hpair
        have hfail : Fails (literal x) u :=
          fails_literal fun hxu => hxk k hk (h.prefix_of hx.2 hxu)
        exact ⟨w, hw, hfail.orElse_takes htake⟩

/-- The heading of a section is not taken for the heading of a block. -/
theorem Headed.takes_keyword {k : String} (h : Headed k.toList u v) (hk : k ∈ keywords) :
    Takes keyword u (fun _ => True) v := by
  obtain ⟨w, ⟨g, hg, rfl⟩, htake⟩ :=
    h.takes_firstOf (fun _ => isStateName_of_mem_keywords) hk (by decide)
  exact htake.bind fun _ _ => takesOn_colon hg

end TapeMachine.Notation
