import TapeMachine.Json.Printer
import TapeMachine.Json.Token
import TapeMachine.Proofs.Text.Blank
import Mathlib.Data.List.Forall2
import Mathlib.Data.List.TakeWhile

/-!
# JSON — Tokens of a printed text

The tokens that the printer writes are read back: a string (`next_quoteOnto`) after any text, and a
number (`next_numberOnto`) before one that does not go on with it (`Closes`).  Of a string, each
character is printed as one piece that stands for it (`Piece.Means`).  Every token takes up some of
the text (`length_next`).
-/

namespace TapeMachine

/-- A literal that a text can hold: each part has digits where it must, and the whole part does not
start with a nought unless it is one. -/
structure NumberLiteral.Proper (n : NumberLiteral) : Prop where
  whole_ne_nil : n.whole ≠ []
  whole_isDigit : ∀ c ∈ n.whole, c.isDigit
  eq_nought : n.whole.head? = some '0' → n.whole = ['0']
  fraction_isDigit : ∀ c ∈ n.fraction, c.isDigit
  exponent_isDigit : ∀ e ∈ n.exponent, e.2 ≠ [] ∧ ∀ c ∈ e.2, c.isDigit

/-- The digits of a positive number do not start with a nought. -/
theorem head?_toDigits_ne {n : Nat} (hn : 0 < n) : (Nat.toDigits 10 n).head? ≠ some '0' := by
  induction n using Nat.strongRecOn with
  | ind n ih =>
      rcases Nat.lt_or_ge n 10 with hlt | hge
      · rw [Nat.toDigits_of_lt_base hlt, List.head?_cons, ne_eq, Option.some.injEq,
          Nat.digitChar_eq_zero]
        exact hn.ne'
      · have hhead := ih (n / 10) (by omega) (by omega)
        obtain ⟨d, ds, hds⟩ :=
          List.exists_cons_of_ne_nil (Nat.toDigits_ne_nil (n := n / 10) (b := 10))
        rw [Nat.toDigits_of_base_le (by omega) hge, hds]
        rwa [hds] at hhead

theorem toDigits_eq_nought {n : Nat} (h : (Nat.toDigits 10 n).head? = some '0') :
    Nat.toDigits 10 n = ['0'] := by
  rcases Nat.eq_zero_or_pos n with rfl | hpos
  · rfl
  · exact absurd h (head?_toDigits_ne hpos)

/-- A literal of digits alone, with a sign or without one. -/
theorem NumberLiteral.Proper.ofDigits (negative : Bool) (n : Nat) :
    (⟨negative, Nat.toDigits 10 n, [], none⟩ : NumberLiteral).Proper where
  whole_ne_nil := Nat.toDigits_ne_nil
  whole_isDigit _ hc := Nat.isDigit_of_mem_toDigits (by decide) (by decide) hc
  eq_nought := toDigits_eq_nought
  fraction_isDigit := nofun
  exponent_isDigit := nofun

namespace Token

variable {cs rest : List Char}

/-! ### Progress -/

theorem length_pieces {done found : List Piece} (h : pieces done cs = some (found, rest)) :
    rest.length < cs.length := by
  fun_induction pieces done cs with
  | case1 => cases h
  | case2 =>
      cases h
      exact Nat.lt_succ_self _
  | case3 _ _ _ _ _ _ _ _ ih | case5 _ _ _ _ _ _ ih | case8 _ _ _ _ _ _ _ ih =>
      have := ih h
      simp only [List.length_cons]
      omega
  | case4 | case6 | case7 => cases h

theorem length_digits {found : List Char} (h : digits cs = (found, rest)) :
    found.length + rest.length = cs.length := by
  obtain ⟨rfl, rfl⟩ := Prod.mk.inj h
  rw [← List.length_append, List.takeWhile_append_dropWhile]

theorem length_wholePart {found : List Char} (h : wholePart cs = some (found, rest)) :
    rest.length < cs.length := by
  unfold wholePart at h
  split at h
  · cases h
    exact Nat.lt_succ_self _
  · split at h
    · cases h
    · next hne =>
      have hlen := length_digits (Option.some.inj h)
      have hpos : found ≠ [] := fun e => hne rest (by rw [Option.some.inj h, e])
      have := List.length_pos_iff.2 hpos
      omega

theorem length_fractionPart {found : List Char} (h : fractionPart cs = some (found, rest)) :
    rest.length ≤ cs.length := by
  unfold fractionPart at h
  split at h
  · split at h
    · cases h
    · have hlen := length_digits (Option.some.inj h)
      simp only [List.length_cons]
      omega
  · cases h
    exact Nat.le_refl _

theorem length_exponentDigits {negative : Bool} {found : Option (Bool × List Char)}
    (h : exponentDigits negative cs = some (found, rest)) : rest.length ≤ cs.length := by
  unfold exponentDigits at h
  split at h
  · cases h
  · next hd =>
    cases h
    have := length_digits hd
    omega

theorem length_exponentPart {found : Option (Bool × List Char)}
    (h : exponentPart cs = some (found, rest)) : rest.length ≤ cs.length := by
  unfold exponentPart at h
  split at h
  · cases h
    exact Nat.le_refl _
  · split at h
    · split at h <;> have := length_exponentDigits h <;> simp only [List.length_cons] at * <;> omega
    · cases h
      exact Nat.le_refl _

theorem length_unsigned {negative : Bool} {n : NumberLiteral}
    (h : unsigned negative cs = some (n, rest)) : rest.length < cs.length := by
  simp only [unsigned, Option.bind_eq_bind, Option.bind_eq_some_iff, Prod.exists] at h
  obtain ⟨_, cs₁, h₁, _, cs₂, h₂, _, cs₃, h₃, h⟩ := h
  cases h
  have := length_wholePart h₁
  have := length_fractionPart h₂
  have := length_exponentPart h₃
  omega

theorem length_number? {n : NumberLiteral} (h : number? cs = some (n, rest)) :
    rest.length < cs.length := by
  unfold number? at h
  split at h
  · exact Nat.lt_succ_of_lt (length_unsigned h)
  · exact length_unsigned h

theorem length_first {t : Token} (h : first cs = .token t rest) : rest.length < cs.length := by
  unfold first at h
  split at h
  case h_1 => cases h
  case h_11 =>
    split at h
    · next hp =>
      cases h
      exact Nat.lt_succ_of_lt (length_pieces hp)
    · cases h
  case h_12 =>
    split at h
    · next hn =>
      cases h
      exact length_number? hn
    · cases h
  all_goals
    cases h
    simp only [List.length_cons]
    omega

/-- What follows a token is shorter than the text in which it was found. -/
theorem length_next {t : Token} (h : next cs = .token t rest) : rest.length < cs.length :=
  (length_first h).trans_le (List.length_dropWhile_le _ _)

/-! ### Strings -/

/-- A piece that stands for one character by itself. -/
inductive Piece.Means : Piece → Char → Prop
  | char (c : Char) : Means (.char c) c
  | unit {c : Char} (h : c.toNat < 0x20) : Means (.unit c.toNat) c

theorem Piece.Means.join {p : Piece} {c : Char} (h : p.Means c) (done : List Char)
    (ps : List Piece) : join done (p :: ps) = join (c :: done) ps := by
  cases h with
  | char => rfl
  | unit h =>
      have htrail : isTrail c.toNat = false := by simp [isTrail]; omega
      have hlead : isLead c.toNat = false := by simp [isLead]; omega
      rw [Token.join.eq_def]
      simp [htrail, hlead, Char.ofNat_toNat]

theorem join_of_means {ps : List Piece} {cs : List Char} (h : List.Forall₂ Piece.Means ps cs)
    (done : List Char) : join done ps = .ok (String.ofList (done.reverse ++ cs)) := by
  induction h generalizing done with
  | nil => simp [join]
  | cons h _ ih => rw [h.join, ih, List.reverse_cons, List.append_assoc, List.singleton_append]

theorem hexDigit?_hexDigit {n : Nat} (h : n < 16) : hexDigit? (Json.hexDigit n) = some n := by
  revert n
  decide

/-- The escape of a control character is read back as its code. -/
theorem codeUnit?_hexDigit {n : Nat} (h : n < 0x20) :
    codeUnit? '0' '0' (Json.hexDigit (n / 16)) (Json.hexDigit (n % 16)) = some n := by
  have hzero : hexDigit? '0' = some 0 := rfl
  simp [codeUnit?, hzero, hexDigit?_hexDigit (show n / 16 < 16 by omega),
    hexDigit?_hexDigit (show n % 16 < 16 by omega)]
  omega

theorem pieces_plain {c : Char} (hquote : c ≠ '"') (hslash : c ≠ '\\') (hc : ¬ c.toNat < 0x20)
    (done : List Piece) (more : List Char) :
    pieces done (c :: more) = pieces (.char c :: done) more := by
  rw [pieces.eq_def]
  split
  · next h => cases h
  · next h => exact absurd (List.cons.inj h).1 hquote
  · next h => exact absurd (List.cons.inj h).1 hslash
  · next h => exact absurd (List.cons.inj h).1 hslash
  · next h =>
    cases h
    exact if_neg (not_or.2 ⟨hslash, hc⟩)

theorem pieces_escapeChar (c : Char) :
    ∃ p : Piece, p.Means c ∧
      ∀ done more, pieces done (Json.escapeChar c ++ more) = pieces (p :: done) more := by
  -- The printer writes a code for the control characters that have no escape of their own.
  unfold Json.escapeChar
  split
  case h_8 hquote hslash _ _ _ _ _ =>
    split
    · next h =>
      refine ⟨.unit c.toNat, .unit h, fun done more => ?_⟩
      simp only [List.cons_append, List.nil_append, pieces, codeUnit?_hexDigit h]
    · next h => exact ⟨.char c, .char c, fun done more => pieces_plain hquote hslash h done more⟩
  all_goals exact ⟨.char _, .char _, fun done more => rfl⟩

theorem pieces_escaped (cs rest : List Char) (done : List Piece) :
    ∃ ps, List.Forall₂ Piece.Means ps cs ∧
      pieces done (cs.foldr (fun c more => Json.escapeChar c ++ more) ('"' :: rest)) =
        some (ps.reverse ++ done, rest) := by
  induction cs generalizing done with
  | nil => exact ⟨[], .nil, rfl⟩
  | cons c cs ih =>
      obtain ⟨p, hp, hpieces⟩ := pieces_escapeChar c
      obtain ⟨ps, hps, h⟩ := ih (p :: done)
      exact ⟨p :: ps, .cons hp hps, by rw [List.foldr_cons, hpieces, h]; simp⟩

/-- A text that is printed as a string is read back. -/
theorem next_quoteOnto (cs : List Char) :
    next (Json.quoteOnto cs rest) = .token (.string (.ok (String.ofList cs))) rest := by
  obtain ⟨ps, hps, h⟩ := pieces_escaped cs rest []
  rw [List.append_nil] at h
  change first ('"' :: _) = _
  simp only [first, h, List.reverse_reverse, join_of_means hps, List.reverse_nil, List.nil_append]

/-! ### Numbers -/

/-- What may follow a value in a printed text: nothing, a comma, or the end of what it is in. -/
def Closes (rest : List Char) : Prop := ∀ c ∈ rest.head?, c = ',' ∨ c = ']' ∨ c = '\x7d'

theorem digits_append {ds : List Char} (hds : ∀ c ∈ ds, c.isDigit)
    (hrest : ∀ c ∈ rest.head?, c.isDigit = false) : digits (ds ++ rest) = (ds, rest) := by
  rw [digits, List.takeWhile_append_of_pos hds, List.dropWhile_append_of_pos hds,
    takeWhile_eq_nil hrest, dropWhile_eq_self hrest, List.append_nil]

theorem wholePart_append {ds : List Char} (hne : ds ≠ []) (hds : ∀ c ∈ ds, c.isDigit)
    (hnought : ds.head? = some '0' → ds = ['0'])
    (hrest : ∀ c ∈ rest.head?, c.isDigit = false) : wholePart (ds ++ rest) = some (ds, rest) := by
  obtain ⟨d, ds, rfl⟩ := List.exists_cons_of_ne_nil hne
  by_cases hd : d = '0'
  · subst hd
    rw [hnought rfl]
    rfl
  · rw [wholePart.eq_def]
    split
    · next h => exact absurd (List.cons.inj h).1 hd
    · rw [digits_append hds hrest]

/-- The power of ten of a number as it is printed, followed by `rest`. -/
def powerOnto (e : Option (Bool × List Char)) (rest : List Char) : List Char :=
  match e with
  | none => rest
  | some (true, ds) => 'e' :: '-' :: ds ++ rest
  | some (false, ds) => 'e' :: ds ++ rest

/-- The fraction of a number as it is printed, followed by `rest`. -/
def fractionOnto (ds rest : List Char) : List Char :=
  if ds.isEmpty then rest else '.' :: ds ++ rest

theorem numberOnto_eq (n : NumberLiteral) : Json.numberOnto n rest =
    (if n.negative then ['-'] else []) ++
      (n.whole ++ fractionOnto n.fraction (powerOnto n.exponent rest)) :=
  List.append_assoc _ _ _

theorem exponentDigits_append (negative : Bool) {ds : List Char} (hne : ds ≠ [])
    (hds : ∀ c ∈ ds, c.isDigit) (hrest : ∀ c ∈ rest.head?, c.isDigit = false) :
    exponentDigits negative (ds ++ rest) = some (some (negative, ds), rest) := by
  rw [exponentDigits, digits_append hds hrest]
  cases ds with
  | nil => exact absurd rfl hne
  | cons => rfl

theorem exponentPart_powerOnto {e : Option (Bool × List Char)}
    (he : ∀ p ∈ e, p.2 ≠ [] ∧ ∀ c ∈ p.2, c.isDigit) (hrest : Closes rest) :
    exponentPart (powerOnto e rest) = some (e, rest) := by
  have hdigit : ∀ c ∈ rest.head?, c.isDigit = false := fun c hc => by
    rcases hrest c hc with rfl | rfl | rfl <;> rfl
  match e with
  | none =>
      cases rest with
      | nil => rfl
      | cons c rest =>
          rcases hrest c rfl with rfl | rfl | rfl <;> rfl
  | some (true, ds) =>
      obtain ⟨hne, hds⟩ := he _ rfl
      exact exponentDigits_append true hne hds hdigit
  | some (false, ds) =>
      obtain ⟨hne, hds⟩ := he _ rfl
      have h := exponentDigits_append false hne hds hdigit
      obtain ⟨d, ds, rfl⟩ := List.exists_cons_of_ne_nil hne
      have hd := hds d List.mem_cons_self
      have hminus : d ≠ '-' := by rintro rfl; cases hd
      have hplus : d ≠ '+' := by rintro rfl; cases hd
      simpa [powerOnto, exponentPart, hminus, hplus] using h

/-- After the fraction of a printed number there is no digit and no point. -/
theorem powerOnto_head {e : Option (Bool × List Char)} (hrest : Closes rest) :
    ∀ c ∈ (powerOnto e rest).head?, c.isDigit = false ∧ c ≠ '.' := by
  intro c hc
  match e with
  | none => rcases hrest c hc with rfl | rfl | rfl <;> decide
  | some (true, ds) | some (false, ds) =>
      cases hc
      decide

theorem fractionPart_fractionOnto {ds tail : List Char} (hds : ∀ c ∈ ds, c.isDigit)
    (htail : ∀ c ∈ tail.head?, c.isDigit = false ∧ c ≠ '.') :
    fractionPart (fractionOnto ds tail) = some (ds, tail) := by
  cases ds with
  | nil =>
      rw [fractionOnto, List.isEmpty_nil, if_pos rfl, fractionPart.eq_def]
      split
      · exact absurd rfl (htail _ rfl).2
      · rfl
  | cons d ds =>
      have hdigits := digits_append hds fun c hc => (htail c hc).1
      simp only [fractionOnto, List.isEmpty_cons, Bool.false_eq_true, if_false, List.cons_append,
        fractionPart] at hdigits ⊢
      rw [hdigits]

/-- After the whole part of a printed number there is no digit. -/
theorem fractionOnto_head {ds tail : List Char} (htail : ∀ c ∈ tail.head?, c.isDigit = false) :
    ∀ c ∈ (fractionOnto ds tail).head?, c.isDigit = false := by
  cases ds with
  | nil => exact htail
  | cons d ds =>
      rintro _ ⟨⟩
      rfl

theorem unsigned_append {n : NumberLiteral} (hn : n.Proper) (hrest : Closes rest) :
    unsigned n.negative (n.whole ++ fractionOnto n.fraction (powerOnto n.exponent rest)) =
      some (n, rest) := by
  have hpower := powerOnto_head (e := n.exponent) hrest
  rw [unsigned, wholePart_append hn.whole_ne_nil hn.whole_isDigit hn.eq_nought
    (fractionOnto_head fun c hc => (hpower c hc).1)]
  simp [fractionPart_fractionOnto hn.fraction_isDigit hpower,
    exponentPart_powerOnto hn.exponent_isDigit hrest]

theorem first_number {c : Char} (hc : c = '-' ∨ c.isDigit) {cs : List Char} {n : NumberLiteral}
    (h : number? (c :: cs) = some (n, rest)) : first (c :: cs) = .token (.number n) rest := by
  rw [first.eq_def]
  split
  case h_12 => rw [h]
  all_goals simp_all

theorem next_eq_first {c : Char} (hc : isSpace c = false) (cs : List Char) :
    next (c :: cs) = first (c :: cs) := by
  rw [next, List.dropWhile_cons_of_neg (by simp [hc])]

/-- A number that is printed is read back. -/
theorem next_numberOnto {n : NumberLiteral} (hn : n.Proper) (hrest : Closes rest) :
    next (Json.numberOnto n rest) = .token (.number n) rest := by
  have h := unsigned_append hn hrest
  obtain ⟨d, ds, hwhole⟩ := List.exists_cons_of_ne_nil hn.whole_ne_nil
  have hd : d.isDigit := hn.whole_isDigit d (by simp [hwhole])
  rw [numberOnto_eq]
  cases hneg : n.negative with
  | true =>
      rw [hneg] at h
      exact first_number (.inl rfl) h
  | false =>
      rw [hneg, hwhole, List.cons_append] at h
      have hspace : isSpace d = false := by
        refine Bool.eq_false_iff.2 fun hs => ?_
        simp only [isSpace, Bool.or_eq_true, decide_eq_true_eq] at hs
        rcases hs with ((rfl | rfl) | rfl) | rfl <;> cases hd
      have hnumber : number? (d :: (ds ++ fractionOnto n.fraction (powerOnto n.exponent rest))) =
          some (n, rest) := by
        rw [number?.eq_def]
        split
        · next e => cases (List.cons.inj e).1 ▸ hd
        · exact h
      rw [hwhole, if_neg (by decide), List.nil_append, List.cons_append, next_eq_first hspace]
      exact first_number (.inr hd) hnumber

end Token

end TapeMachine
