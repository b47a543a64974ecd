import TapeMachine.Proofs.Notation.Rules

/-!
# Notation — Gaps

What carries no meaning: blanks, comments and line breaks, and the places that the readers come to
behind them.  `afterGap u` is what is left of `u` after blanks and a comment, and `afterLines u`
what is left after empty lines as well.

* `exists_next`: a construct after a gap is one at the place after the gap.
* `exists_next_lineBreaks`, `exists_next_many_lineBreak`: of line breaks all are taken, however they
  are made and whatever gaps are between.
* `exists_next_line`, `exists_next_lines`: so a construct on a line of its own is one at the place
  after the empty lines.
-/

namespace TapeMachine.Notation

open Reader Grammar

variable {α β : Type} {u v w : List Char} {c : Char} {p : Reader α} {n : Nat}

/-! ### Places after gaps -/

/-- What is left of a text from the end of its first line on. -/
def lineRest (u : List Char) : List Char := u.dropWhile (!isLineEnd ·)

/-- What is left of a text after blanks and a comment. -/
def afterGap : List Char → List Char
  | [] => []
  | c :: u => if c = ' ' ∨ c = '\t' then afterGap u else if c = '#' then lineRest u else c :: u

/-- What is left of a text after empty lines; with `comment` it starts inside a comment. -/
def afterLinesFrom : (comment : Bool) → List Char → List Char
  | _, [] => []
  | comment, c :: u =>
    if isLineEnd c then afterLinesFrom false u
    else if comment then afterLinesFrom true u
    else if c = ' ' ∨ c = '\t' then afterLinesFrom false u
    else if c = '#' then afterLinesFrom true u
    else c :: u

/-- What is left of a text after blanks, comments and line breaks. -/
def afterLines (u : List Char) : List Char := afterLinesFrom false u

theorem lineRest_cons_of_isLineEnd (h : isLineEnd c) : lineRest (c :: u) = c :: u :=
  List.dropWhile_cons_of_neg (by simp [h])

theorem lineRest_cons_of_not (h : ¬ isLineEnd c) : lineRest (c :: u) = lineRest u :=
  List.dropWhile_cons_of_pos (by simpa using h)

/-- From the end of a line on there is nothing, or the end of the line. -/
theorem lineRest_cases (u : List Char) :
    lineRest u = [] ∨ ∃ c v, isLineEnd c ∧ lineRest u = c :: v := by
  induction u with
  | nil => exact .inl rfl
  | cons c u ih =>
      by_cases hc : isLineEnd c
      · exact .inr ⟨c, u, hc, lineRest_cons_of_isLineEnd hc⟩
      · rwa [lineRest_cons_of_not hc]

theorem afterGap_blank (h : c = ' ' ∨ c = '\t') : afterGap (c :: u) = afterGap u := if_pos h

theorem afterGap_blanks {g : List Char} (hg : Blanks g) (u : List Char) :
    afterGap (g ++ u) = afterGap u := by
  induction g with
  | nil => rfl
  | cons c g ih =>
      obtain ⟨hc, hg⟩ := List.forall_mem_cons.1 hg
      rw [List.cons_append, afterGap_blank hc, ih hg]

theorem afterGap_comment : afterGap ('#' :: u) = lineRest u := rfl

theorem afterGap_of_solid (h : Solid u) : afterGap u = u := by
  cases u with
  | nil => rfl
  | cons c u =>
      obtain ⟨h₁, h₂, h₃⟩ := h c rfl
      rw [afterGap, if_neg (by simp [h₁, h₂]), if_neg h₃]

/-- A text starts with a blank, with a comment or with something that is neither. -/
theorem solid_or (u : List Char) : Solid u ∨ (∃ c v, (c = ' ' ∨ c = '\t') ∧ u = c :: v) ∨
    ∃ v, u = '#' :: v := by
  cases u with
  | nil => exact .inl (by rintro _ ⟨⟩)
  | cons c u =>
      by_cases hc : c = ' ' ∨ c = '\t'
      · exact .inr (.inl ⟨c, u, hc, rfl⟩)
      · by_cases hc' : c = '#'
        · exact .inr (.inr ⟨u, by rw [hc']⟩)
        · exact .inl (solid_cons (by simp_all))

theorem isLineEnd_cases (h : isLineEnd c) : c = '\n' ∨ c = '\r' := by simpa [isLineEnd] using h

theorem solid_of_isLineEnd (h : isLineEnd c) : Solid (c :: u) :=
  solid_cons (by rcases isLineEnd_cases h with rfl | rfl <;> decide)

theorem solid_lineRest (u : List Char) : Solid (lineRest u) := by
  rcases lineRest_cases u with h | ⟨c, v, hc, h⟩
  · rw [h]
    rintro _ ⟨⟩
  · rw [h]
    exact solid_of_isLineEnd hc

theorem solid_afterGap (u : List Char) : Solid (afterGap u) := by
  induction u with
  | nil => rintro _ ⟨⟩
  | cons c u ih =>
      rcases solid_or (c :: u) with h | ⟨d, v, hd, h⟩ | ⟨v, h⟩
      · rwa [afterGap_of_solid h]
      · obtain ⟨rfl, rfl⟩ := List.cons.inj h
        rwa [afterGap_blank hd]
      · obtain ⟨rfl, rfl⟩ := List.cons.inj h
        exact solid_lineRest u

theorem afterGap_afterGap (u : List Char) : afterGap (afterGap u) = afterGap u :=
  afterGap_of_solid (solid_afterGap u)

theorem length_lineRest_le (u : List Char) : (lineRest u).length ≤ u.length :=
  (List.dropWhile_sublist _).length_le

theorem length_afterGap_le (u : List Char) : (afterGap u).length ≤ u.length := by
  induction u with
  | nil => exact le_rfl
  | cons c u ih =>
      rw [afterGap]
      split
      · exact ih.trans (Nat.le_succ _)
      · split
        · exact (length_lineRest_le u).trans (Nat.le_succ _)
        · exact le_rfl

/-! ### Places after empty lines -/

theorem afterLines_lineEnd (h : isLineEnd c) : afterLines (c :: u) = afterLines u := if_pos h

theorem not_isLineEnd_of_blank (h : c = ' ' ∨ c = '\t') : ¬ isLineEnd c := by
  rcases h with rfl | rfl <;> decide

theorem afterLines_blank (h : c = ' ' ∨ c = '\t') : afterLines (c :: u) = afterLines u := by
  rw [afterLines, afterLinesFrom, if_neg (not_isLineEnd_of_blank h), if_neg (by decide), if_pos h]
  rfl

/-- Inside a comment the line has no other end than its own. -/
theorem afterLinesFrom_true (u : List Char) : afterLinesFrom true u = afterLines (lineRest u) := by
  induction u with
  | nil => rfl
  | cons c u ih =>
      by_cases hc : isLineEnd c
      · rw [lineRest_cons_of_isLineEnd hc, afterLines_lineEnd hc]
        exact if_pos hc
      · rw [lineRest_cons_of_not hc, ← ih, afterLinesFrom, if_neg hc, if_pos rfl]

theorem afterLines_comment : afterLines ('#' :: u) = afterLines (lineRest u) :=
  afterLinesFrom_true u

theorem afterLines_of_ink (h : Ink u) : afterLines u = u := by
  cases u with
  | nil => rfl
  | cons c u =>
      have hc := h c rfl
      simp only [List.mem_cons, not_or] at hc
      rw [afterLines, afterLinesFrom, if_neg (by simp [isLineEnd, hc]), if_neg (by decide),
        if_neg (by simp [hc]), if_neg hc.2.2.1]

theorem afterLines_afterGap (u : List Char) : afterLines (afterGap u) = afterLines u := by
  induction u with
  | nil => rfl
  | cons c u ih =>
      rcases solid_or (c :: u) with h | ⟨d, v, hd, h⟩ | ⟨v, h⟩
      · rw [afterGap_of_solid h]
      · obtain ⟨rfl, rfl⟩ := List.cons.inj h
        rw [afterGap_blank hd, afterLines_blank hd, ih]
      · obtain ⟨rfl, rfl⟩ := List.cons.inj h
        rw [afterGap_comment, afterLines_comment]

/-- A line ends here, after blanks or a comment. -/
def AtLineEnd (u : List Char) : Prop := ∃ c v, isLineEnd c ∧ afterGap u = c :: v

/-- There is nothing more on this line. -/
def AtEnd (u : List Char) : Prop := AtLineEnd u ∨ afterGap u = []

theorem AtLineEnd.exists_afterLines (h : AtLineEnd u) :
    ∃ c v, isLineEnd c ∧ afterGap u = c :: v ∧ afterLines u = afterLines v := by
  obtain ⟨c, v, hc, e⟩ := h
  refine ⟨c, v, hc, e, ?_⟩
  rw [← afterLines_afterGap, e, afterLines_lineEnd hc]

theorem ink_afterGap (h : ¬ AtLineEnd u) : Ink (afterGap u) := by
  intro c hc hmem
  obtain ⟨v, e⟩ : ∃ v, afterGap u = c :: v := ⟨_, List.eq_cons_of_mem_head? hc⟩
  obtain ⟨h₁, h₂, h₃⟩ := solid_afterGap u c hc
  refine h ⟨c, v, ?_, e⟩
  simp only [List.mem_cons, List.not_mem_nil, or_false] at hmem
  simp_all [isLineEnd]

theorem afterLines_of_not (h : ¬ AtLineEnd u) : afterLines u = afterGap u := by
  rw [← afterLines_afterGap, afterLines_of_ink (ink_afterGap h)]

theorem length_afterLines_le (u : List Char) : (afterLines u).length ≤ u.length := by
  induction hn : u.length using Nat.strong_induction_on generalizing u with
  | _ n ih =>
      subst hn
      by_cases h : AtLineEnd u
      · obtain ⟨c, v, -, e, e'⟩ := h.exists_afterLines
        have hlen := length_afterGap_le u
        rw [e, List.length_cons] at hlen
        rw [e']
        exact (ih v.length hlen v rfl).trans (Nat.le_of_lt hlen)
      · rw [afterLines_of_not h]
        exact length_afterGap_le u

theorem ink_afterLines (u : List Char) : Ink (afterLines u) := by
  induction hn : u.length using Nat.strong_induction_on generalizing u with
  | _ n ih =>
      subst hn
      by_cases h : AtLineEnd u
      · obtain ⟨c, v, -, e, e'⟩ := h.exists_afterLines
        have hlen := length_afterGap_le u
        rw [e, List.length_cons] at hlen
        rw [e']
        exact ih v.length hlen v rfl
      · rw [afterLines_of_not h]
        exact ink_afterGap h

theorem afterLines_afterLines (u : List Char) : afterLines (afterLines u) = afterLines u :=
  afterLines_of_ink (ink_afterLines u)

theorem atLineEnd_blank (h : c = ' ' ∨ c = '\t') : AtLineEnd (c :: u) ↔ AtLineEnd u := by
  rw [AtLineEnd, afterGap_blank h, AtLineEnd]

theorem atLineEnd_of_isLineEnd (h : isLineEnd c) : AtLineEnd (c :: u) :=
  ⟨c, u, h, afterGap_of_solid (solid_of_isLineEnd h)⟩

theorem atLineEnd_afterGap : AtLineEnd (afterGap u) ↔ AtLineEnd u := by
  rw [AtLineEnd, afterGap_afterGap, AtLineEnd]

theorem not_atLineEnd_of_ink (h : Ink u) : ¬ AtLineEnd u := by
  rintro ⟨c, v, hc, e⟩
  rw [afterGap_of_solid h.solid] at e
  have := h c (by rw [e]; rfl)
  rcases isLineEnd_cases hc with rfl | rfl <;> simp at this

/-! ### The readers of gaps and of line breaks -/

theorem afterGap_eq (u : List Char) :
    afterGap u = match strip u with
      | '#' :: v => lineRest v
      | v => v := by
  induction u with
  | nil => rfl
  | cons c u ih =>
      rcases solid_or (c :: u) with h | ⟨d, v, hd, h⟩ | ⟨v, h⟩
      · rw [afterGap_of_solid h, h.strip_eq]
        split
        · next hc => exact absurd rfl (h '#' (by rw [hc]; rfl)).2.2
        · rfl
      · obtain ⟨rfl, rfl⟩ := List.cons.inj h
        rw [afterGap_blank hd, ih, strip, strip, List.dropWhile_cons_of_pos (by simpa using hd)]
      · obtain ⟨rfl, rfl⟩ := List.cons.inj h
        rfl

/-- The place after a gap. -/
theorem exists_gap (u : List Char) (n : Nat) :
    ∃ m, (gap ⟨u, n⟩).result = some ((), ⟨afterGap u, m⟩) := by
  obtain ⟨m, hm⟩ := skipWhile_eq (fun a => a = ' ' || a = '\t') u n
  have hstrip : u.dropWhile (fun a => a = ' ' || a = '\t') = strip u := rfl
  simp only [gap, hm, hstrip]
  split
  · next v hv =>
      obtain ⟨k, hk⟩ := skipWhile_eq (!isLineEnd ·) ('#' :: v) m
      rw [hv, hk, afterGap_eq, hv]
      exact ⟨k, rfl⟩
  · next hne =>
      refine ⟨m, ?_⟩
      rw [afterGap_eq]
      split
      · next v hv => exact absurd hv (hne v)
      · rfl

/-- A construct after a gap. -/
theorem exists_next (p : Reader α) (u : List Char) (n : Nat) :
    ∃ m, (next p ⟨u, n⟩).result = (p ⟨afterGap u, m⟩).result := by
  obtain ⟨m, e⟩ := exists_gap u n
  refine ⟨m, ?_⟩
  rw [Grammar.next, result_bind, e]
  rfl

/-- A line break is taken from the end of a line, and the empty lines after it are left. -/
theorem exists_lineBreak (hc : isLineEnd c) (u : List Char) (n : Nat) :
    ∃ v m, (lineBreak ⟨c :: u, n⟩).result = some ((), ⟨v, m⟩) ∧ afterLines v = afterLines u ∧
      v.length ≤ u.length := by
  rcases isLineEnd_cases hc with rfl | rfl
  · exact ⟨u, n + 1, rfl, rfl, le_rfl⟩
  · cases u with
    | nil => exact ⟨[], n + 1, rfl, rfl, le_rfl⟩
    | cons d u =>
        by_cases hd : d = '\n'
        · subst hd
          exact ⟨u, n + 2, rfl, (afterLines_lineEnd rfl).symm, Nat.le_succ _⟩
        · refine ⟨d :: u, n + 1, ?_, rfl, le_rfl⟩
          simp [lineBreak, firstOf, result_orElse, literal, characters, result_bind,
            Reader.satisfying, hd, succeed]

theorem fails_lineBreak_of_not (h : ¬ AtLineEnd u) : Fails lineBreak (afterGap u) := by
  refine fails_lineBreak fun c hc hmem => ink_afterGap h c hc ?_
  simp only [List.mem_cons, List.not_mem_nil, or_false] at hmem ⊢
  tauto

/-- The line break at the end of a line. -/
theorem AtLineEnd.exists_lineBreak (h : AtLineEnd u) (n : Nat) : ∃ v m,
    (lineBreak ⟨afterGap u, n⟩).result = some ((), ⟨v, m⟩) ∧ afterLines v = afterLines u ∧
      v.length < u.length := by
  obtain ⟨c, w, hc, e, e'⟩ := h.exists_afterLines
  obtain ⟨v, m, hv, hvw, hlen⟩ := Notation.exists_lineBreak hc w n
  refine ⟨v, m, by rw [e, hv], by rw [hvw, e'], lt_of_le_of_lt hlen ?_⟩
  have hu := length_afterGap_le u
  rwa [e, List.length_cons] at hu

/-- Line breaks one after the other, up to the place after all empty lines. -/
theorem exists_repeated_lineBreak (u : List Char) (n : Nat) : ∃ as v m,
    (repeated (next lineBreak) ⟨u, n⟩).result = some (as, ⟨v, m⟩) ∧ afterGap v = afterLines u ∧
      v.length ≤ u.length := by
  -- The fuel is more than what is left of the text, and each line break takes some of it.
  suffices h : ∀ fuel : List Char, u.length < fuel.length → ∀ done k, ∃ as v m,
      (repeatFrom (next lineBreak) done k fuel ⟨u, n⟩).result = some (as, ⟨v, m⟩) ∧
        afterGap v = afterLines u ∧ v.length ≤ u.length from h _ (Nat.lt_succ_self _) [] 0
  intro fuel hf done k
  induction fuel generalizing u done k n with
  | nil => cases hf
  | cons x fuel ih =>
      obtain ⟨m, hm⟩ := exists_next lineBreak u n
      rw [result_repeatFrom, hm]
      by_cases h : AtLineEnd u
      · obtain ⟨v, l, hv, hvu, hlen⟩ := h.exists_lineBreak m
        obtain ⟨as, w, j, hw, hwv, hle⟩ := ih v l (lt_of_lt_of_le hlen (Nat.le_of_lt_succ hf))
          (() :: done) (max k (next lineBreak ⟨u, n⟩).furthest)
        rw [hv]
        exact ⟨as, w, j, hw, hwv.trans hvu, hle.trans hlen.le⟩
      · rw [fails_lineBreak_of_not h m]
        exact ⟨_, u, n, rfl, (afterLines_of_not h).symm, le_rfl⟩

/-- All line breaks that come next, if there are any. -/
theorem exists_next_many_lineBreak (u : List Char) (n : Nat) : ∃ as v m,
    (next (many lineBreak) ⟨u, n⟩).result = some (as, ⟨v, m⟩) ∧ afterGap v = afterLines u ∧
      v.length ≤ u.length := by
  obtain ⟨m, hm⟩ := exists_next (many lineBreak) u n
  rw [hm, many, result_orElse, result_bind]
  by_cases h : AtLineEnd u
  · obtain ⟨v, l, hv, hvu, hlen⟩ := h.exists_lineBreak m
    obtain ⟨as, w, j, hw, hwv, hle⟩ := exists_repeated_lineBreak v l
    refine ⟨() :: as, w, j, ?_, hwv.trans hvu, hle.trans hlen.le⟩
    rw [hv, Option.bind_some, result_bind, hw]
    rfl
  · rw [fails_lineBreak_of_not h m]
    exact ⟨[], afterGap u, m, rfl, by rw [afterGap_afterGap, afterLines_of_not h],
      length_afterGap_le u⟩

/-- The line breaks at the end of a line. -/
theorem AtLineEnd.exists_lineBreaks (h : AtLineEnd u) (n : Nat) : ∃ v m,
    (lineBreaks ⟨afterGap u, n⟩).result = some ((), ⟨v, m⟩) ∧ afterGap v = afterLines u ∧
      v.length < u.length := by
  obtain ⟨v, l, hv, hvu, hlen⟩ := h.exists_lineBreak n
  obtain ⟨as, w, j, hw, hwv, hle⟩ := exists_next_many_lineBreak v l
  refine ⟨w, j, ?_, hwv.trans hvu, lt_of_le_of_lt hle hlen⟩
  rw [lineBreaks, result_bind, hv, Option.bind_some, result_bind, hw]
  rfl

theorem fails_lineBreaks_of_not (h : ¬ AtLineEnd u) : Fails lineBreaks (afterGap u) :=
  (fails_lineBreak_of_not h).bind

/-- A construct on a line of its own. -/
theorem AtLineEnd.exists_next_line (h : AtLineEnd u) (p : Reader α) (n : Nat) :
    ∃ m, (next (do lineBreaks; next p) ⟨u, n⟩).result = (p ⟨afterLines u, m⟩).result := by
  obtain ⟨m, hm⟩ := exists_next (do lineBreaks; next p) u n
  obtain ⟨v, l, hv, hvu, -⟩ := h.exists_lineBreaks m
  obtain ⟨j, hj⟩ := exists_next p v l
  refine ⟨j, ?_⟩
  rw [hm, result_bind, hv, ← hvu]
  exact hj

/-- Where the line goes on there is no construct on a line of its own. -/
theorem fails_next_line (h : ¬ AtLineEnd u) (p : Reader α) (n : Nat) :
    (next (do lineBreaks; next p) ⟨u, n⟩).result = none := by
  obtain ⟨m, hm⟩ := exists_next (do lineBreaks; next p) u n
  rw [hm]
  exact (fails_lineBreaks_of_not h).bind m

theorem fails_next_line_of_fails (h : Fails p (afterLines u)) (n : Nat) :
    (next (do lineBreaks; next p) ⟨u, n⟩).result = none := by
  by_cases hline : AtLineEnd u
  · obtain ⟨m, hm⟩ := hline.exists_next_line p n
    rw [hm, h m]
  · exact fails_next_line hline p n

/-- A construct on this line or on one of its own. -/
theorem exists_next_lines (p : Reader α) (u : List Char) (n : Nat) : ∃ m,
    (next (do let _ ← many lineBreak; next p) ⟨u, n⟩).result = (p ⟨afterLines u, m⟩).result := by
  obtain ⟨as, v, m, hv, hvu, -⟩ := exists_next_many_lineBreak u n
  obtain ⟨j, hj⟩ := exists_next p v m
  refine ⟨j, ?_⟩
  rw [result_next_bind, result_bind, hv, ← hvu]
  exact hj

/-- What comes after a section: line breaks, or the end of the text. -/
theorem AtEnd.exists_break (h : AtEnd u) (n : Nat) : ∃ v m,
    (next (lineBreaks.orElse (ahead theEnd)) ⟨u, n⟩).result = some ((), ⟨v, m⟩) ∧
      afterGap v = afterLines u ∧ v.length ≤ u.length := by
  obtain ⟨m, hm⟩ := exists_next (lineBreaks.orElse (ahead theEnd)) u n
  rw [hm, result_orElse]
  by_cases hline : AtLineEnd u
  · obtain ⟨v, l, hv, hvu, hlen⟩ := hline.exists_lineBreaks m
    exact ⟨v, l, by rw [hv]; rfl, hvu, hlen.le⟩
  · have hnil : afterGap u = [] := h.resolve_left hline
    rw [fails_lineBreaks_of_not hline m, hnil]
    refine ⟨[], m, rfl, ?_, Nat.zero_le _⟩
    rw [afterLines_of_not hline, hnil]
    rfl

theorem fails_break (h : ¬ AtEnd u) (n : Nat) :
    (next (lineBreaks.orElse (ahead theEnd)) ⟨u, n⟩).result = none := by
  obtain ⟨m, hm⟩ := exists_next (lineBreaks.orElse (ahead theEnd)) u n
  have hline : ¬ AtLineEnd u := fun hu => h (.inl hu)
  obtain ⟨c, v, e⟩ := List.exists_cons_of_ne_nil fun hu => h (.inr hu)
  rw [hm, result_orElse, fails_lineBreaks_of_not hline m, e]
  rfl

end TapeMachine.Notation
