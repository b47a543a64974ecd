import TapeMachine.Proofs.Notation.Outline

/-!
# Notation — Layout

The texts of sections, and texts that are made of them.  `Spells s x` says that the text `s` by
itself is that of the section `x`, and `MadeOf ss u` that `u` is the texts `ss` one after the other,
each of them with line breaks in front and nothing else between.

* `exists_section_text`: the text of a section is read the same, whatever comes after it.
* `Reads.exists_madeOf`, `MadeOf.reads`: what is read is made of texts of sections, and these are
  read.
-/

namespace TapeMachine.Notation

open Reader Grammar

variable {b f u v w z : List Char} {c : Char} {n : Nat} {xs : List Section} {ss : List (List Char)}

/-! ### Texts that say nothing -/

/-- Blanks, comments and line breaks, and nothing else. -/
def Silent (f : List Char) : Prop := afterLines f = []

instance : Decidable (Silent f) := inferInstanceAs (Decidable (afterLines f = []))

theorem silent_iff : Silent f ↔ Over f [] := by
  refine ⟨fun h => ⟨?_, h⟩, fun h => h.2⟩
  by_cases hline : AtLineEnd f
  · exact .inl hline
  · exact .inr (by rw [← afterLines_of_not hline, h])

theorem over_nil : Over [] [] := silent_iff.1 rfl

/-- Where something comes after the end of a line, the line has one. -/
theorem AtEnd.atLineEnd (h : AtEnd u) (hne : afterLines u ≠ []) : AtLineEnd u :=
  h.resolve_right fun hnil => hne (by rw [← afterLines_afterGap, hnil]; rfl)

theorem Over.lineEnd (h : Over u z) (hc : isLineEnd c) : Over (c :: u) z :=
  ⟨.inl (atLineEnd_of_isLineEnd hc), by rw [afterLines_lineEnd hc, h.2]⟩

theorem Over.comment (h : Over u z) {l : List Char} (hl : ∀ c ∈ l, ¬ isLineEnd c) :
    Over ('#' :: (l ++ u)) z := by
  have hgap : afterGap ('#' :: (l ++ u)) = afterGap u := by
    rw [afterGap_comment, lineRest_append hl, h.1.lineRest_eq]
  constructor
  · rw [← atEnd_afterGap, hgap, atEnd_afterGap]
    exact h.1
  · rw [← afterLines_afterGap, hgap, afterLines_afterGap, h.2]

/-- What says nothing may stand in front of the end of a line. -/
theorem Silent.over_append (hf : Silent f) (hu : Over u z) : Over (f ++ u) z := by
  induction hn : f.length using Nat.strong_induction_on generalizing f with
  | _ n ih =>
      subst hn
      rcases solid_or f with hsolid | ⟨c, v, hc, rfl⟩ | ⟨v, rfl⟩
      · by_cases hline : AtLineEnd f
        · obtain ⟨c, v, hc, e⟩ := hline
          rw [afterGap_of_solid hsolid] at e
          subst e
          rw [Silent, afterLines_lineEnd hc] at hf
          exact (ih v.length (Nat.lt_succ_self _) hf rfl).lineEnd hc
        · rw [Silent, afterLines_of_not hline, afterGap_of_solid hsolid] at hf
          rwa [hf]
      · rw [Silent, afterLines_blank hc] at hf
        obtain ⟨hend, hlines⟩ := ih v.length (Nat.lt_succ_self _) hf rfl
        exact ⟨(atEnd_blank hc).2 hend, by rw [List.cons_append, afterLines_blank hc, hlines]⟩
      · obtain ⟨l, hl, e⟩ := exists_eq_append_lineRest v
        rw [Silent, afterLines_comment] at hf
        have hrest := ih (lineRest v).length (Nat.lt_succ_of_le (length_lineRest_le v)) hf rfl
        rw [e, List.cons_append, List.append_assoc]
        exact hrest.comment hl

theorem exists_silent_gap (u : List Char) : ∃ k, Silent k ∧ u = k ++ afterGap u := by
  induction u with
  | nil => exact ⟨[], rfl, rfl⟩
  | cons c u ih =>
      rcases solid_or (c :: u) with hsolid | ⟨d, v, hd, e⟩ | ⟨v, e⟩
      · exact ⟨[], rfl, (afterGap_of_solid hsolid).symm⟩
      · obtain ⟨rfl, rfl⟩ := List.cons.inj e
        obtain ⟨k, hk, hu⟩ := ih
        refine ⟨c :: k, (afterLines_blank hd).trans hk, ?_⟩
        rw [afterGap_blank hd, List.cons_append, ← hu]
      · obtain ⟨rfl, rfl⟩ := List.cons.inj e
        obtain ⟨l, hl, e⟩ := exists_eq_append_lineRest u
        refine ⟨'#' :: l, ?_, ?_⟩
        · have hsilent := (over_nil.comment hl).2
          rwa [List.append_nil] at hsilent
        · rw [afterGap_comment, List.cons_append, ← e]

/-- What stands in front of a section: a line break at least, and then blanks. -/
def SectionBreak (b : List Char) : Prop :=
  ∃ f c g, Silent f ∧ isLineEnd c ∧ Blanks g ∧ b = f ++ c :: g

theorem SectionBreak.over (h : SectionBreak b) (u : List Char) : Over (b ++ u) (afterLines u) := by
  obtain ⟨f, c, g, hf, hc, hg, rfl⟩ := h
  rw [List.append_assoc]
  exact hf.over_append ⟨.inl (atLineEnd_of_isLineEnd hc),
    (afterLines_lineEnd hc).trans (afterLines_blanks hg u)⟩

/-- Where a line ends and something comes after it, there is a break between. -/
theorem AtLineEnd.exists_sectionBreak (h : AtLineEnd u) (hne : afterLines u ≠ []) :
    ∃ b, SectionBreak b ∧ u = b ++ afterLines u := by
  induction hn : u.length using Nat.strong_induction_on generalizing u with
  | _ n ih =>
      subst hn
      obtain ⟨c, v, hc, e, e'⟩ := h.exists_afterLines
      obtain ⟨k, hk, hu⟩ := exists_silent_gap u
      have hlen := length_afterGap_le u
      rw [e] at hu hlen
      rw [e'] at hne ⊢
      by_cases hv : AtLineEnd v
      · obtain ⟨b, ⟨f, d, g, hf, hd, hg, rfl⟩, hb⟩ := ih v.length hlen hv hne rfl
        have hf' : Silent (k ++ c :: f) := (hk.over_append ((silent_iff.1 hf).lineEnd hc)).2
        refine ⟨k ++ c :: f ++ d :: g, ⟨_, d, g, hf', hd, hg, rfl⟩, ?_⟩
        rw [hu]
        simpa using hb
      · obtain ⟨d, y, hd⟩ := List.exists_cons_of_ne_nil hne
        have hink := ink_afterLines v d (by rw [hd]; rfl)
        rw [afterLines_of_not hv] at hd
        obtain ⟨g, hg, e⟩ := indented_of_afterGap hd fun hend => by
          rcases isLineEnd_cases hend with rfl | rfl <;> simp at hink
        refine ⟨k ++ c :: g, ⟨k, c, g, hk, hc, hg, rfl⟩, ?_⟩
        rw [hu, afterLines_of_not hv, hd, List.append_assoc, List.cons_append, ← e]

/-! ### Sections -/

/-- A section starts with its heading. -/
theorem fails_anySection (h : ¬ IsSectionHeading u) : Fails anySection u := by
  have hfail {α : Type} (f : α → Section) (k : String) (q : Reader α) (hk : k ∈ keywords) :
      Fails (f <$> headed k q) u :=
    (fails_headed_of_not fun hw => h ⟨k, hk, hw⟩).map
  refine (fails_firstOf ?_).placed
  rintro q hq
  fin_cases hq <;> exact hfail _ _ _ (by decide)

theorem isSectionHeading_of_result {x : Placed Section × Cursor}
    (h : (anySection ⟨u, n⟩).result = some x) : IsSectionHeading u := by
  by_contra hu
  rw [fails_anySection hu n] at h
  cases h

theorem ne_nil_of_result {x : Placed Section × Cursor} (h : (anySection ⟨u, n⟩).result = some x) :
    u ≠ [] := by
  rintro rfl
  rw [fails_anySection_nil n] at h
  cases h

theorem Reads.eq_nil (h : Reads u []) : u = [] := by
  cases h
  rfl

theorem Reads.closing (h : Reads u xs) : Closing u := by
  cases h with
  | nil => exact .inl rfl
  | cons _ _ _ _ _ h => exact .inr (isSectionHeading_of_result h)

theorem Like.length_le {z' : List Char} (h : Like z z' u v) : z.length ≤ u.length := by
  induction h with
  | ends u _ hu _ => exact hu.2 ▸ length_afterLines_le u
  | line u _ _ _ _ _ ih => exact ih.trans (length_afterLines_le u)
  | name u _ _ _ _ _ ih => exact ih.trans ((length_lineRest_le _).trans (length_afterLines_le u))
  | char _ _ _ _ _ ih => exact ih.trans (Nat.le_succ _)
  | quoted _ _ _ _ _ ih => exact ih.trans (by simp only [List.length_cons]; omega)

/-- Where one text is at its end, the other is as well. -/
theorem Like.over {z' : List Char} (h : Like z z' u v) (hu : Over u z) : Over v z' := by
  have hv := h.atEnd hu.1
  have hz : Ink z := hu.2 ▸ ink_afterLines u
  refine ⟨hv, ?_⟩
  cases h.linesLike fun hname => hname.not_atEnd hu.1 with
  | ends _ h => exact h
  | line _ h =>
      generalize hx : afterLines u = x at h
      generalize hy : afterLines v = y at h
      have hzx : z = x := hu.2.symm.trans hx
      -- If something of `z` were taken, too little would be left to come to `z` again.
      cases h with
      | ends _ _ _ h => rw [← h.2, ← hy, afterLines_afterLines]
      | line _ _ h _ _ _ | name _ _ h _ _ _ => exact absurd (hzx ▸ h) (not_atLineEnd_of_ink hz)
      | char _ _ _ _ h | quoted _ _ _ _ h =>
          have hlen := h.length_le
          rw [hzx] at hlen
          simp only [List.length_cons] at hlen
          omega
  | name hname h =>
      rw [hu.2] at hname h
      obtain ⟨_, _, ⟨g, -, hx⟩, -⟩ := hname
      have hlt : (lineRest z).length < z.length := by
        rw [hx]
        calc (lineRest ("name".toList ++ (g ++ ':' :: _))).length
            = (lineRest ("ame".toList ++ (g ++ ':' :: _))).length := rfl
          _ ≤ ("ame".toList ++ (g ++ ':' :: _)).length := length_lineRest_le _
          _ < _ := Nat.lt_succ_self _
      exact absurd h.length_le (Nat.not_le_of_lt hlt)

theorem lineRest_afterGap (u : List Char) : lineRest (afterGap u) = lineRest u := by
  induction u with
  | nil => rfl
  | cons c u ih =>
      rcases solid_or (c :: u) with hsolid | ⟨d, v, hd, e⟩ | ⟨v, e⟩
      · rw [afterGap_of_solid hsolid]
      · obtain ⟨rfl, rfl⟩ := List.cons.inj e
        rw [afterGap_blank hd, lineRest_cons_of_not (not_isLineEnd_of_blank hd), ih]
      · obtain ⟨rfl, rfl⟩ := List.cons.inj e
        rw [afterGap_comment, lineRest_cons_of_not (by decide), (atEnd_lineRest u).lineRest_eq,
          afterGap_of_solid (solid_lineRest u)]

/-- After a name there is nothing more on its line. -/
theorem afterGap_dropWhile_isNameChar (w : List Char) :
    afterGap ((afterGap w).dropWhile isNameChar) = lineRest w := by
  rw [← lineRest_afterGap]
  generalize afterGap w = u
  induction u with
  | nil => rfl
  | cons c u ih =>
      by_cases hc : isNameChar c
      · have hline : ¬ isLineEnd c := fun h => by simp [isNameChar, h] at hc
        rw [List.dropWhile_cons_of_pos hc, ih, lineRest_cons_of_not hline]
      · rw [List.dropWhile_cons_of_neg hc]
        by_cases hline : isLineEnd c
        · rw [lineRest_cons_of_isLineEnd hline, afterGap_of_solid (solid_of_isLineEnd hline)]
        · obtain rfl : c = '#' := by simpa [isNameChar, hline] using hc
          rw [afterGap_comment, lineRest_cons_of_not hline]

theorem over_dropWhile_isNameChar (w : List Char) :
    Over ((afterGap w).dropWhile isNameChar) (afterLines (lineRest w)) := by
  constructor
  · rw [← atEnd_afterGap, afterGap_dropWhile_isNameChar]
    exact atEnd_lineRest w
  · rw [← afterLines_afterGap, afterGap_dropWhile_isNameChar]

theorem Headed.lineRest_eq (h : Headed "name".toList u w) : lineRest u = lineRest w := by
  obtain ⟨g, hg, rfl⟩ := h
  rw [lineRest_append not_isLineEnd_nameWord, lineRest_append hg.not_isLineEnd,
    lineRest_cons_of_not (by decide)]

/-- What is read at the heading of a name is the name, and the rest of its line is passed by. -/
theorem name_of_result {x : Placed Section} {d : Cursor} (hw : Headed "name".toList u w)
    (h : (anySection ⟨u, n⟩).result = some (x, d)) :
    nameOf w ≠ [] ∧ x.value = .name (nameOf w) ∧ Over d.rest (afterLines (lineRest u)) := by
  obtain ⟨j, hj⟩ := result_anySection_of_name hw n
  rw [h] at hj
  split at hj
  · cases hj
  · next hne =>
      cases hj
      refine ⟨hne, rfl, ?_⟩
      rw [hw.lineRest_eq]
      exact over_dropWhile_isNameChar w

/-- A name is read at its heading, if there is one. -/
theorem exists_name (hw : Headed "name".toList u w) (hne : nameOf w ≠ []) (n : Nat) :
    ∃ x d, (anySection ⟨u, n⟩).result = some (x, d) ∧ x.value = .name (nameOf w) ∧
      Over d.rest (afterLines (lineRest u)) := by
  obtain ⟨j, hj⟩ := result_anySection_of_name hw n
  rw [if_neg hne] at hj
  obtain ⟨-, hx, hd⟩ := name_of_result hw hj
  exact ⟨_, _, hj, hx, hd⟩

/-- **The text of a section is read the same**, whatever comes after the end of its last line. -/
theorem exists_section_text {x : Placed Section} {d : Cursor}
    (h : (anySection ⟨u, n⟩).result = some (x, d)) (hd : Over d.rest z) (hz : Closing z) :
    ∃ s v, u = s ++ v ∧ Over v z ∧ ∀ v' z', Over v' z' → Closing z' → ∀ m, ∃ y e,
      (anySection ⟨s ++ v', m⟩).result = some (y, e) ∧ y.value.bare = x.value.bare ∧
        Over e.rest z' := by
  by_cases hname : IsName u
  · obtain ⟨w, g, hg, rfl⟩ := hname
    have hw : Headed "name".toList ("name".toList ++ (g ++ ':' :: w)) w := ⟨g, hg, rfl⟩
    obtain ⟨hne, hx, hd'⟩ := name_of_result hw h
    rw [hw.lineRest_eq] at hd'
    obtain ⟨l, hl, e⟩ := exists_eq_append_lineRest w
    refine ⟨"name".toList ++ (g ++ ':' :: l), lineRest w, by simpa using e,
      ⟨atEnd_lineRest w, hd'.2.symm.trans hd.2⟩, fun v' z' hv' _ m => ?_⟩
    have hw' : Headed "name".toList ("name".toList ++ (g ++ ':' :: l) ++ v') (l ++ v') :=
      ⟨g, hg, by simp⟩
    obtain ⟨hnil, htrim⟩ := sameName_append hl (atEnd_lineRest w) hv'.1
    rw [← e] at hnil htrim
    obtain ⟨y, i, hi, hy, hover⟩ := exists_name hw' (fun h => hne (hnil.2 h)) m
    refine ⟨y, i, hi, ?_, ?_⟩
    · rw [hx, hy]
      exact congrArg Section.name htrim.symm
    · rwa [hw'.lineRest_eq, lineRest_append hl, hv'.1.lineRest_eq, afterLines_afterGap,
        hv'.2] at hover
  · have hscan := agree_anySection (scans_congruent u) ⟨rfl, .refl⟩ hname n n
    rw [h] at hscan
    obtain ⟨s, rfl, -⟩ : ∃ s, u = s ++ d.rest ∧ Like z [] u (s ++ []) := by
      cases hscan with
      | some hx => exact hx.rest.2.like (.ends _ _ hd over_nil)
    refine ⟨s, d.rest, rfl, hd, fun v' z' hv' hz' m => ?_⟩
    obtain ⟨s', hs', hlike⟩ : ∃ s', s ++ d.rest = s' ++ d.rest ∧
        Like z z' (s ++ d.rest) (s' ++ v') := by
      cases hscan with
      | some hx => exact hx.rest.2.like (.ends _ _ hd hv')
    obtain rfl := List.append_cancel_right hs'
    have hagree := agree_anySection (like_congruent hz hz') hlike hname n m
    rw [h] at hagree
    generalize hy : (anySection ⟨s ++ v', m⟩).result = y at hagree
    cases hagree with
    | @some _ y hxy => exact ⟨y.1, y.2, rfl, hxy.value.symm, hxy.rest.over hd⟩

/-- The text is that of a section, with all its lines. -/
def Spells (s : List Char) (x : Section) : Prop :=
  ∃ y d, (anySection ⟨s, 0⟩).result = some (y, d) ∧ Silent d.rest ∧ y.value.bare = x

instance (s : List Char) (x : Section) : Decidable (Spells s x) :=
  match h : (anySection ⟨s, 0⟩).result with
  | none => .isFalse fun ⟨_, _, h', _⟩ => by simp [h] at h'
  | some (y, d) => decidable_of_iff (Silent d.rest ∧ y.value.bare = x)
    ⟨fun h' => ⟨y, d, h, h'⟩, fun ⟨_, _, h', hd⟩ => by
      cases h.symm.trans h'
      exact hd⟩

/-- The text of a section is read where it stands. -/
theorem Spells.exists_anySection {s : List Char} {x : Section} (h : Spells s x) (hv : Over v z)
    (hz : Closing z) (n : Nat) : ∃ y d, (anySection ⟨s ++ v, n⟩).result = some (y, d) ∧
      y.value.bare = x ∧ Over d.rest z := by
  obtain ⟨y, d, h, hd, rfl⟩ := h
  obtain ⟨s, w, rfl, hw, hread⟩ := exists_section_text h (silent_iff.1 hd) (.inl rfl)
  rw [List.append_assoc]
  exact hread (w ++ v) z (Silent.over_append hw.2 hv) hz n

/-- What is read as a section has the text of one. -/
theorem exists_spells {x : Placed Section} {d : Cursor}
    (h : (anySection ⟨u, n⟩).result = some (x, d)) (hd : Over d.rest z) (hz : Closing z) :
    ∃ s v, u = s ++ v ∧ Spells s x.value.bare ∧ Over v z := by
  obtain ⟨s, v, rfl, hv, hread⟩ := exists_section_text h hd hz
  obtain ⟨y, e, hy, hbare, he⟩ := hread [] [] over_nil (.inl rfl) 0
  rw [List.append_nil] at hy
  exact ⟨s, v, rfl, ⟨y, e, hy, he.2, hbare⟩, hv⟩

/-! ### Documents -/

/-- The text is made of these texts of sections, each of them after a break. -/
inductive MadeOf : List (List Char) → List Char → Prop
  | nil {f : List Char} : Silent f → MadeOf [] f
  | cons {b s u : List Char} {ss : List (List Char)} {x : Section} :
      SectionBreak b → Spells s x → MadeOf ss u → MadeOf (s :: ss) (b ++ (s ++ u))

theorem MadeOf.atEnd (h : MadeOf ss u) : AtEnd u := by
  cases h with
  | nil h => exact (silent_iff.1 h).1
  | cons hb _ _ => exact (hb.over _).1

theorem MadeOf.exists_spells (h : MadeOf ss u) : ∃ xs, List.Forall₂ Spells ss xs := by
  induction h with
  | nil => exact ⟨[], .nil⟩
  | cons _ hs _ ih =>
      obtain ⟨xs, hxs⟩ := ih
      exact ⟨_, .cons hs hxs⟩

/-- What is read is made of texts of sections. -/
theorem Reads.exists_madeOf (hu : AtEnd u) (h : Reads (afterLines u) xs) : ∃ ss, MadeOf ss u := by
  induction xs generalizing u with
  | nil => exact ⟨[], .nil h.eq_nil⟩
  | cons x xs ih =>
      generalize hz : afterLines u = z at h
      cases h with
      | cons _ n x d _ hx hd h =>
          obtain ⟨s, v, rfl, hs, hv⟩ := Notation.exists_spells hx ⟨hd, rfl⟩ h.closing
          rw [← hv.2] at h
          obtain ⟨ss, hss⟩ := ih hv.1 h
          have hne : afterLines u ≠ [] := hz ▸ ne_nil_of_result hx
          obtain ⟨b, hb, hu⟩ := (hu.atLineEnd hne).exists_sectionBreak hne
          rw [hu, hz]
          exact ⟨s :: ss, .cons hb hs hss⟩

/-- **The texts of sections are read one after the other.** -/
theorem MadeOf.reads (h : MadeOf ss u) (hxs : List.Forall₂ Spells ss xs) :
    Reads (afterLines u) xs := by
  induction h generalizing xs with
  | nil h =>
      cases hxs
      rw [h]
      exact .nil
  | @cons b s u ss _ hb _ hss ih =>
      cases hxs with
      | @cons _ x _ xs hs hxs =>
          have hreads := ih hxs
          obtain ⟨y, d, hy, rfl, hd⟩ := hs.exists_anySection ⟨hss.atEnd, rfl⟩ hreads.closing 0
          have hink := (isSectionHeading_of_result hy).isHeading.ink
          rw [(hb.over _).2, afterLines_of_ink hink]
          exact .cons _ 0 y d xs hy hd.1 (by rwa [hd.2])

end TapeMachine.Notation
