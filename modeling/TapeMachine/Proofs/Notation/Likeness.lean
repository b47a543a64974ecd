import TapeMachine.Proofs.Notation.Contents

/-!
# Notation — Likeness

Texts that say the same, and how far a text is code.  `Like z z' u v` says that `u` and `v` go on in
the same way but for blanks and comments at the ends of lines, empty lines and the kinds of line
breaks, the one up to `z` and the other up to `z'`.  The readers of sections keep it
(`like_congruent`).  They do not read names, so of the lines with names it is asked that the readers
of names would find the same.
-/

namespace TapeMachine.Notation

open Reader Grammar

variable {z z' u v w : List Char} {c : Char}

/-! ### Names -/

/-- Whether a character belongs to the name on its line. -/
def isNameChar (c : Char) : Bool := !isLineEnd c && c != '#'

/-- The name that comes after the colon. -/
def nameOf (u : List Char) : List Char := (afterGap u).takeWhile isNameChar

/-- The headings of a name that is the same, or is missing after both. -/
def SameName (u v : List Char) : Prop :=
  ∃ x y, Headed "name".toList u x ∧ Headed "name".toList v y ∧
    (nameOf x = [] ↔ nameOf y = []) ∧ trim (nameOf x) = trim (nameOf y)

/-- A line with the heading of a name. -/
def IsNameLine (u : List Char) : Prop := ∃ v, Indented u v ∧ IsName v

theorem isName_isSectionHeading (h : IsName u) : IsSectionHeading u :=
  let ⟨v, hv⟩ := h
  ⟨"name", by decide, v, hv⟩

theorem IsName.ink (h : IsName u) : Ink u := (isName_isSectionHeading h).isHeading.ink

/-- The first thing on the line of a name is its heading. -/
theorem IsNameLine.exists_afterGap (h : IsNameLine u) : ∃ g, Blanks g ∧ u = g ++ afterGap u ∧
    IsName (afterGap u) := by
  obtain ⟨v, ⟨g, hg, rfl⟩, hv⟩ := h
  have hgap : afterGap (g ++ v) = v := by
    rw [afterGap_blanks hg, afterGap_of_solid hv.ink.solid]
  exact ⟨g, hg, by rw [hgap], by rwa [hgap]⟩

theorem IsNameLine.not_atEnd (h : IsNameLine u) : ¬ AtEnd u := by
  obtain ⟨-, -, -, hname⟩ := h.exists_afterGap
  rintro (⟨c, v, hc, e⟩ | e)
  · rw [e] at hname
    have := hname.ink c rfl
    rcases isLineEnd_cases hc with rfl | rfl <;> simp at this
  · rw [e] at hname
    obtain ⟨v, g, -, hnil⟩ := hname
    cases hnil

theorem isNameLine_blank (h : c = ' ' ∨ c = '\t') : IsNameLine (c :: u) ↔ IsNameLine u := by
  constructor
  · rintro hu
    obtain ⟨g, hg, e, hname⟩ := hu.exists_afterGap
    rw [afterGap_blank h] at e hname
    cases g with
    | nil =>
        have hink := hname.ink
        rw [List.nil_append] at e
        rw [← e] at hink
        have := hink c rfl
        rcases h with rfl | rfl <;> simp at this
    | cons d g =>
        obtain ⟨-, e⟩ := List.cons.inj e
        exact ⟨afterGap u, ⟨g, (List.forall_mem_cons.1 hg).2, e⟩, hname⟩
  · rintro ⟨v, ⟨g, hg, rfl⟩, hv⟩
    exact ⟨v, ⟨c :: g, List.forall_mem_cons.2 ⟨h, hg⟩, rfl⟩, hv⟩

/-! ### Likeness -/

/-- Nothing more is on this line, and after empty lines comes `z`. -/
def Over (u z : List Char) : Prop := AtEnd u ∧ afterLines u = z

/-- A character outside of quotes that stands for itself, or a blank. -/
def IsCode (c : Char) : Prop := c ∉ ['\'', '#', '\n', '\r']

theorem isCode_of_blank (h : c = ' ' ∨ c = '\t') : IsCode c := by
  rcases h with rfl | rfl <;> simp [IsCode]

/-- The texts go on in the same way, `u` up to `z` and `v` up to `z'`. -/
inductive Like (z z' : List Char) : List Char → List Char → Prop
  | ends (u v : List Char) : Over u z → Over v z' → Like z z' u v
  | line (u v : List Char) : AtLineEnd u → AtLineEnd v → ¬ IsName (afterLines u) →
      Like z z' (afterLines u) (afterLines v) → Like z z' u v
  | name (u v : List Char) : AtLineEnd u → AtLineEnd v → SameName (afterLines u) (afterLines v) →
      Like z z' (lineRest (afterLines u)) (lineRest (afterLines v)) → Like z z' u v
  | char (c : Char) (u v : List Char) : IsCode c → Like z z' u v → Like z z' (c :: u) (c :: v)
  | quoted (c : Char) (u v : List Char) : c ≠ '\'' → Like z z' u v →
      Like z z' ('\'' :: c :: '\'' :: u) ('\'' :: c :: '\'' :: v)

/-- The texts after empty lines are like each other. -/
inductive LinesLike (z z' u v : List Char) : Prop
  | ends : afterLines u = z → afterLines v = z' → LinesLike z z' u v
  | line : ¬ IsName (afterLines u) → Like z z' (afterLines u) (afterLines v) → LinesLike z z' u v
  | name : SameName (afterLines u) (afterLines v) →
      Like z z' (lineRest (afterLines u)) (lineRest (afterLines v)) → LinesLike z z' u v

/-- It does not matter which empty lines there are. -/
theorem LinesLike.congr (h : LinesLike z z' u v) {u' v' : List Char}
    (hu : afterLines u' = afterLines u) (hv : afterLines v' = afterLines v) :
    LinesLike z z' u' v' := by
  cases h with
  | ends h h' => exact .ends (hu.trans h) (hv.trans h')
  | line hname h => exact .line (by rwa [hu]) (by rwa [hu, hv])
  | name hname h => exact .name (by rwa [hu, hv]) (by rwa [hu, hv])

theorem LinesLike.like (h : LinesLike z z' u v) (hu : AtLineEnd u) (hv : AtLineEnd v) :
    Like z z' u v := by
  cases h with
  | ends h h' => exact .ends u v ⟨.inl hu, h⟩ ⟨.inl hv, h'⟩
  | line hname h => exact .line u v hu hv hname h
  | name hname h => exact .name u v hu hv hname h

theorem atEnd_blank (h : c = ' ' ∨ c = '\t') : AtEnd (c :: u) ↔ AtEnd u := by
  rw [AtEnd, atLineEnd_blank h, afterGap_blank h, AtEnd]

theorem not_atEnd_cons (hc : c ∉ [' ', '\t', '#', '\n', '\r']) : ¬ AtEnd (c :: u) := by
  rintro (h | h)
  · exact not_atLineEnd_of_ink (ink_cons hc) h
  · rw [afterGap_of_solid (ink_cons hc).solid] at h
    cases h

/-- A character that stands for itself is a blank, or a token can start with it. -/
theorem IsCode.cases (h : IsCode c) :
    (c = ' ' ∨ c = '\t') ∨ c ∉ [' ', '\t', '#', '\n', '\r', '\''] := by
  simp only [IsCode, List.mem_cons, List.not_mem_nil, or_false, not_or] at h ⊢
  tauto

theorem AtEnd.dull (h : AtEnd u) : Dull u := by
  constructor
  · intro c hc hink
    obtain ⟨v, rfl⟩ : ∃ v, u = c :: v := ⟨_, List.eq_cons_of_mem_head? hc⟩
    refine not_atEnd_cons (fun hmem => hink ?_) h
    simp only [List.mem_cons, List.not_mem_nil, or_false] at hmem ⊢
    tauto
  · rintro ⟨c, v, -, rfl⟩
    exact not_atEnd_cons (by decide) h

theorem atEnd_afterGap : AtEnd (afterGap u) ↔ AtEnd u := by
  rw [AtEnd, atLineEnd_afterGap, afterGap_afterGap, AtEnd]

theorem Over.gap (h : Over u z) : Over (afterGap u) z :=
  ⟨atEnd_afterGap.2 h.1, by rw [afterLines_afterGap]; exact h.2⟩

theorem Like.gap (h : Like z z' u v) : Like z z' (afterGap u) (afterGap v) := by
  induction h with
  | ends u v hu hv => exact .ends _ _ hu.gap hv.gap
  | line u v hu hv hname h _ =>
      refine .line _ _ (atLineEnd_afterGap.2 hu) (atLineEnd_afterGap.2 hv) ?_ ?_ <;>
      · simpa only [afterLines_afterGap] using by assumption
  | name u v hu hv hname h _ =>
      refine .name _ _ (atLineEnd_afterGap.2 hu) (atLineEnd_afterGap.2 hv) ?_ ?_ <;>
      · simpa only [afterLines_afterGap] using by assumption
  | char c u v hc h ih =>
      rcases hc.cases with hblank | hink
      · rwa [afterGap_blank hblank, afterGap_blank hblank]
      · have hsolid (x : List Char) : Solid (c :: x) := solid_cons (by simp_all)
        rw [afterGap_of_solid (hsolid u), afterGap_of_solid (hsolid v)]
        exact .char c u v hc h
  | quoted c u v hc h _ =>
      rw [afterGap_of_solid (solid_cons (by decide)), afterGap_of_solid (solid_cons (by decide))]
      exact .quoted c u v hc h

theorem Like.sameStart (h : Like z z' u v) : SameStart (Like z z') u v := by
  cases h with
  | ends _ _ hu hv => exact .dull _ _ hu.1.dull hv.1.dull
  | line _ _ hu hv _ _ | name _ _ hu hv _ _ =>
      exact .dull _ _ (AtEnd.dull (.inl hu)) (AtEnd.dull (.inl hv))
  | char c u v hc h =>
      rcases hc.cases with hblank | hink
      · have hdull (x : List Char) : Dull (c :: x) := by
          refine ⟨?_, ?_⟩
          · rintro _ ⟨⟩ hink
            exact hink (by rcases hblank with rfl | rfl <;> decide)
          · rintro ⟨d, y, -, e⟩
            obtain ⟨rfl, -⟩ := List.cons.inj e
            rcases hblank with h | h <;> cases h
        exact .dull _ _ (hdull u) (hdull v)
      · exact .ink c u v hink h
  | quoted c u v hc h => exact .quoted c u v hc h

/-- Lines that are like each other are so after the end of a line, whichever it is. -/
theorem LinesLike.lineEnd {c' : Char} (h : LinesLike z z' u v) (hc : isLineEnd c)
    (hc' : isLineEnd c') : Like z z' (c :: u) (c' :: v) :=
  (h.congr (afterLines_lineEnd hc) (afterLines_lineEnd hc')).like (atLineEnd_of_isLineEnd hc)
    (atLineEnd_of_isLineEnd hc')

/-- What is like each other is so after empty lines, if it is not the line of a name. -/
theorem Like.linesLike (h : Like z z' u v) (hu : ¬ IsNameLine u) : LinesLike z z' u v := by
  induction h with
  | ends u v h h' => exact .ends h.2 h'.2
  | line u v _ _ hname h _ => exact .line hname h
  | name u v _ _ hname h _ => exact .name hname h
  | char c u v hc h ih =>
      rcases hc.cases with hblank | hink
      · rw [isNameLine_blank hblank] at hu
        exact (ih hu).congr (afterLines_blank hblank) (afterLines_blank hblank)
      · have hcode (x : List Char) : Ink (c :: x) := ink_cons (by simp_all)
        refine .line ?_ ?_
        · rw [afterLines_of_ink (hcode u)]
          exact fun hname => hu ⟨_, .refl _, hname⟩
        · rw [afterLines_of_ink (hcode u), afterLines_of_ink (hcode v)]
          exact .char c u v hc h
  | quoted c u v hc h _ =>
      refine .line ?_ ?_
      · rw [afterLines_of_ink (ink_cons (by decide))]
        exact fun hname => hu ⟨_, .refl _, hname⟩
      · rw [afterLines_of_ink (ink_cons (by decide)), afterLines_of_ink (ink_cons (by decide))]
        exact .quoted c u v hc h

/-- Where one line is at its end, the other is as well. -/
theorem Like.atEnd (h : Like z z' u v) (hu : AtEnd u) : AtEnd v := by
  induction h with
  | ends u v _ hv => exact hv.1
  | line u v _ hv _ _ _ | name u v _ hv _ _ _ => exact .inl hv
  | char c u v hc _ ih =>
      rcases hc.cases with hblank | hink
      · exact (atEnd_blank hblank).2 (ih ((atEnd_blank hblank).1 hu))
      · exact absurd hu (not_atEnd_cons (by simp_all))
  | quoted c u v _ _ _ => exact absurd hu (not_atEnd_cons (by decide))

/-- **The readers of sections keep likeness** up to the end of the text or another section. -/
theorem like_congruent (hz : Closing z) (hz' : Closing z') : Congruent (Like z z') where
  start h := h.sameStart
  gap h := h.gap
  lines := by
    intro u v h
    induction h with
    | ends u v hu hv => exact .inr ⟨hu.2 ▸ hz, hv.2 ▸ hz'⟩
    | line u v hu hv _ h _ => exact .inl ⟨iff_of_true hu hv, h⟩
    | name u v _ _ hname _ _ =>
        obtain ⟨x, y, hx, hy, -⟩ := hname
        exact .inr ⟨.inr (isName_isSectionHeading ⟨x, hx⟩), .inr (isName_isSectionHeading ⟨y, hy⟩)⟩
    | char c u v hc h ih =>
        rcases hc.cases with hblank | hink
        · rwa [atLineEnd_blank hblank, atLineEnd_blank hblank, afterLines_blank hblank,
            afterLines_blank hblank]
        · have hcode (x : List Char) : Ink (c :: x) := ink_cons (by simp_all)
          rw [afterLines_of_ink (hcode u), afterLines_of_ink (hcode v)]
          exact .inl ⟨iff_of_false (not_atLineEnd_of_ink (hcode u)) (not_atLineEnd_of_ink (hcode v)),
            .char c u v hc h⟩
    | quoted c u v hc h _ =>
        have hcode (x : List Char) : Ink ('\'' :: x) := ink_cons (by decide)
        rw [afterLines_of_ink (hcode _), afterLines_of_ink (hcode _)]
        exact .inl ⟨iff_of_false (not_atLineEnd_of_ink (hcode _)) (not_atLineEnd_of_ink (hcode _)),
          .quoted c u v hc h⟩

end TapeMachine.Notation
