import TapeMachine.Proofs.Notation.Likeness

/-!
# Notation — Scanning

How far a text is code.  `Scans u v` says that the text `u` comes to `v` when it is read as code, so
that `v` is not inside of a symbol in quotes, a comment or a name.

* `Scans.like`: likeness goes back along that way.  What is put in the place of something like it
  leaves the whole text like it was.
* `scans_congruent`: the readers of sections go along it.
-/

namespace TapeMachine.Notation

open Reader Grammar

variable {z z' t u v w : List Char} {c : Char}

/-! ### The ends of lines -/

/-- A text is what is on its first line, and the rest. -/
theorem exists_eq_append_lineRest (u : List Char) :
    ∃ l, (∀ c ∈ l, ¬ isLineEnd c) ∧ u = l ++ lineRest u :=
  ⟨u.takeWhile (!isLineEnd ·), fun c hc => by simpa using List.mem_takeWhile_imp hc,
    List.takeWhile_append_dropWhile.symm⟩

theorem lineRest_append {l : List Char} (hl : ∀ c ∈ l, ¬ isLineEnd c) (v : List Char) :
    lineRest (l ++ v) = lineRest v :=
  List.dropWhile_append_of_pos fun c hc => by simpa using hl c hc

/-- At the end of a line, blanks and a comment are all that is left of it. -/
theorem AtEnd.lineRest_eq (h : AtEnd u) : lineRest u = afterGap u := by
  induction u with
  | nil => rfl
  | cons c u ih =>
      rcases solid_or (c :: u) with hsolid | ⟨d, v, hd, e⟩ | ⟨v, e⟩
      · rcases h with ⟨d, v, hd, e⟩ | e
        · rw [e, ← afterGap_of_solid hsolid, e, lineRest_cons_of_isLineEnd hd]
        · rw [afterGap_of_solid hsolid] at e
          cases e
      · obtain ⟨rfl, rfl⟩ := List.cons.inj e
        rw [lineRest_cons_of_not (not_isLineEnd_of_blank hd), afterGap_blank hd]
        exact ih ((atEnd_blank hd).1 h)
      · obtain ⟨rfl, rfl⟩ := List.cons.inj e
        exact lineRest_cons_of_not (by decide)

theorem atEnd_lineRest (u : List Char) : AtEnd (lineRest u) := by
  rcases lineRest_cases u with h | ⟨c, v, hc, h⟩
  · rw [h]
    exact .inr rfl
  · rw [h]
    exact .inl (atLineEnd_of_isLineEnd hc)

/-- What comes after a gap decides where the line has an end. -/
theorem Like.of_afterGap (h : Like z z' u v) (hu : AtEnd u) {u' v' : List Char}
    (hu' : afterGap u' = afterGap u) (hv' : afterGap v' = afterGap v) : Like z z' u' v' := by
  have hline {x y : List Char} (h : afterGap x = afterGap y) (hy : AtLineEnd y) : AtLineEnd x := by
    rwa [← atLineEnd_afterGap, h, atLineEnd_afterGap]
  have hend {x y : List Char} (h : afterGap x = afterGap y) (hy : AtEnd y) : AtEnd x := by
    rwa [← atEnd_afterGap, h, atEnd_afterGap]
  have hlines {x y : List Char} (h : afterGap x = afterGap y) : afterLines x = afterLines y := by
    rw [← afterLines_afterGap, h, afterLines_afterGap]
  induction h with
  | ends u v h h' =>
      exact .ends _ _ ⟨hend hu' h.1, (hlines hu').trans h.2⟩ ⟨hend hv' h'.1, (hlines hv').trans h'.2⟩
  | line u v h h' hname hlike _ =>
      rw [← hlines hu'] at hname hlike
      rw [← hlines hv'] at hlike
      exact .line _ _ (hline hu' h) (hline hv' h') hname hlike
  | name u v h h' hname hlike _ =>
      rw [← hlines hu', ← hlines hv'] at hname hlike
      exact .name _ _ (hline hu' h) (hline hv' h') hname hlike
  | char c u v hc _ ih =>
      rcases hc.cases with hblank | hink
      · rw [afterGap_blank hblank] at hu' hv'
        exact ih ((atEnd_blank hblank).1 hu) hu' hv'
      · exact absurd hu (not_atEnd_cons (by simp_all))
  | quoted c u v _ _ _ => exact absurd hu (not_atEnd_cons (by decide))

/-- The characters of a name at the end of a line are blanks. -/
theorem blanks_takeWhile (h : AtEnd u) : Blanks (u.takeWhile isNameChar) := by
  induction u with
  | nil => exact List.forall_mem_nil _
  | cons c u ih =>
      by_cases hc : isNameChar c
      · rw [List.takeWhile_cons_of_pos hc]
        by_cases hblank : c = ' ' ∨ c = '\t'
        · exact List.forall_mem_cons.2 ⟨hblank, ih ((atEnd_blank hblank).1 h)⟩
        · refine absurd h (not_atEnd_cons ?_)
          simp only [isNameChar, isLineEnd, Bool.and_eq_true, Bool.not_eq_true', bne_iff_ne,
            Bool.or_eq_false_iff, decide_eq_false_iff_not] at hc
          simp only [List.mem_cons, List.not_mem_nil, or_false, not_or]
          tauto
      · rw [List.takeWhile_cons_of_neg hc]
        exact List.forall_mem_nil _

/-- To a name the end of its line adds blanks, if anything. -/
theorem nameOf_append {l : List Char} (hl : ∀ c ∈ l, ¬ isLineEnd c) (hv : AtEnd v) :
    ∃ b, Blanks b ∧ nameOf (l ++ v) = nameOf l ++ b ∧ (nameOf l = [] → b = []) := by
  have hnil {u : List Char} (h : AtEnd u) : nameOf u = [] := by
    rw [nameOf]
    rcases h with ⟨c, w, hc, e⟩ | e
    · rw [e, List.takeWhile_cons_of_neg (by simp [isNameChar, hc])]
    · rw [e]
      rfl
  induction l with
  | nil => exact ⟨[], nofun, by rw [List.nil_append, hnil hv]; rfl, fun _ => rfl⟩
  | cons c l ih =>
      obtain ⟨hc, hl'⟩ := List.forall_mem_cons.1 hl
      rw [List.cons_append, nameOf, nameOf]
      rcases solid_or (c :: l) with hsolid | ⟨d, x, hd, e⟩ | ⟨x, e⟩
      · have hsolid' : Solid (c :: (l ++ v)) := hsolid
        have hname : isNameChar c := by
          simp [isNameChar, hc, (hsolid c rfl).2.2]
        rw [afterGap_of_solid hsolid, afterGap_of_solid hsolid', ← List.cons_append,
          List.takeWhile_append]
        split
        · next hlen =>
            refine ⟨v.takeWhile isNameChar, blanks_takeWhile hv, ?_, ?_⟩
            · rw [(List.takeWhile_prefix _).eq_of_length hlen]
            · rw [List.takeWhile_cons_of_pos hname]
              exact nofun
        · exact ⟨[], nofun, (List.append_nil _).symm, fun _ => rfl⟩
      · obtain ⟨rfl, -⟩ := List.cons.inj e
        rw [afterGap_blank hd, afterGap_blank hd]
        exact ih hl'
      · obtain ⟨rfl, -⟩ := List.cons.inj e
        have hline : lineRest l = [] := by
          rw [← List.append_nil l, lineRest_append hl']
          rfl
        refine ⟨[], nofun, ?_, fun _ => rfl⟩
        rw [afterGap_comment, afterGap_comment, lineRest_append hl', hline, hv.lineRest_eq]
        exact hnil hv

/-- The ends of a line do not change the name on it. -/
theorem sameName_append {l : List Char} (hl : ∀ c ∈ l, ¬ isLineEnd c) (hu : AtEnd u)
    (hv : AtEnd v) : (nameOf (l ++ u) = [] ↔ nameOf (l ++ v) = []) ∧
      trim (nameOf (l ++ u)) = trim (nameOf (l ++ v)) := by
  have hwhite {b : List Char} (hb : Blanks b) : ∀ c ∈ b, isWhiteSpace c := fun c hc => by
    rcases hb c hc with rfl | rfl <;> rfl
  obtain ⟨b, hb, hub, hb'⟩ := nameOf_append hl hu
  obtain ⟨d, hd, hvd, hd'⟩ := nameOf_append hl hv
  rw [hub, hvd, trim_append_right (hwhite hb), trim_append_right (hwhite hd), List.append_eq_nil_iff,
    List.append_eq_nil_iff]
  exact ⟨⟨fun h => ⟨h.1, hd' h.1⟩, fun h => ⟨h.1, hb' h.1⟩⟩, rfl⟩

theorem Blanks.not_isLineEnd {g : List Char} (hg : Blanks g) : ∀ c ∈ g, ¬ isLineEnd c :=
  fun c hc => not_isLineEnd_of_blank (hg c hc)

theorem afterLines_blanks {g : List Char} (hg : Blanks g) (u : List Char) :
    afterLines (g ++ u) = afterLines u := by
  induction g with
  | nil => rfl
  | cons c g ih =>
      obtain ⟨hc, hg⟩ := List.forall_mem_cons.1 hg
      rw [List.cons_append, afterLines_blank hc, ih hg]

theorem not_isLineEnd_nameWord : ∀ c ∈ "name".toList, ¬ isLineEnd c := by simp [isLineEnd]

/-- The line of a name is its heading and the name, and then the rest of it. -/
theorem IsNameLine.exists_eq (h : IsNameLine u) : ∃ g g' l, Blanks g ∧ Blanks g' ∧
    (∀ c ∈ l, ¬ isLineEnd c) ∧ u = g ++ ("name".toList ++ (g' ++ ':' :: (l ++ lineRest u))) := by
  obtain ⟨_, ⟨g, hg, rfl⟩, w, g', hg', rfl⟩ := h
  obtain ⟨l, hl, e⟩ := exists_eq_append_lineRest w
  refine ⟨g, g', l, hg, hg', hl, ?_⟩
  rw [lineRest_append hg.not_isLineEnd, lineRest_append not_isLineEnd_nameWord,
    lineRest_append hg'.not_isLineEnd, lineRest_cons_of_not (by decide), ← e]

/-- On the line of a name another end of the line leaves the name as it is. -/
theorem IsNameLine.linesLike (h : IsNameLine u) (hv : Like z z' (lineRest u) v) :
    ∃ x, u = x ++ lineRest u ∧ LinesLike z z' u (x ++ v) := by
  obtain ⟨g, g', l, hg, hg', hl, e⟩ := h.exists_eq
  have hend : AtEnd v := hv.atEnd (atEnd_lineRest u)
  have hlines (y : List Char) : afterLines (g ++ ("name".toList ++ (g' ++ ':' :: (l ++ y)))) =
      "name".toList ++ (g' ++ ':' :: (l ++ y)) := by
    rw [afterLines_blanks hg, afterLines_of_ink (IsName.ink ⟨_, g', hg', rfl⟩)]
  have hrest (y : List Char) : lineRest ("name".toList ++ (g' ++ ':' :: (l ++ y))) = lineRest y := by
    rw [lineRest_append not_isLineEnd_nameWord, lineRest_append hg'.not_isLineEnd,
      lineRest_cons_of_not (by decide), lineRest_append hl]
  refine ⟨g ++ ("name".toList ++ (g' ++ ':' :: l)), by simpa using e, ?_⟩
  have happend : g ++ ("name".toList ++ (g' ++ ':' :: l)) ++ v =
      g ++ ("name".toList ++ (g' ++ ':' :: (l ++ v))) := by simp
  rw [happend]
  have hu : afterLines u = "name".toList ++ (g' ++ ':' :: (l ++ lineRest u)) := by
    rw [← hlines, ← e]
  refine .name ?_ ?_
  · rw [hu, hlines]
    exact ⟨_, _, ⟨g', hg', rfl⟩, ⟨g', hg', rfl⟩, sameName_append hl (atEnd_lineRest u) hend⟩
  · rw [hu, hlines, hrest, hrest]
    refine hv.of_afterGap (atEnd_lineRest u) ?_ ?_
    · rw [(atEnd_lineRest u).lineRest_eq, afterGap_afterGap]
    · rw [hend.lineRest_eq, afterGap_afterGap]

/-! ### The way of the code -/

/-- Read as code, the text `u` comes to `v`. A comment, and the line of a name, is passed by up to
its end. -/
inductive Scans (u : List Char) : List Char → Prop
  | refl : Scans u u
  | char (c : Char) (v : List Char) : Scans u (c :: v) → IsCode c → Scans u v
  | quoted (c : Char) (v : List Char) : Scans u ('\'' :: c :: '\'' :: v) → c ≠ '\'' → Scans u v
  | comment (v : List Char) : Scans u ('#' :: v) → Scans u (lineRest v)
  | line (c : Char) (v : List Char) : Scans u (c :: v) → isLineEnd c → ¬ IsNameLine v → Scans u v
  | name (c : Char) (v : List Char) : Scans u (c :: v) → isLineEnd c → IsNameLine v →
      Scans u (lineRest v)

/-- **Likeness goes back along code**: what is put in the place of something like it leaves the
whole text like it was. -/
theorem Scans.like {v' : List Char} (h : Scans u v) (hv : Like z z' v v') :
    ∃ x, u = x ++ v ∧ Like z z' u (x ++ v') := by
  induction h generalizing v' with
  | refl => exact ⟨[], rfl, hv⟩
  | char c v _ hc ih =>
      obtain ⟨x, hx, hlike⟩ := ih (.char c v v' hc hv)
      exact ⟨x ++ [c], by simpa using hx, by simpa using hlike⟩
  | quoted c v _ hc ih =>
      obtain ⟨x, hx, hlike⟩ := ih (.quoted c v v' hc hv)
      exact ⟨x ++ ['\'', c, '\''], by simpa using hx, by simpa using hlike⟩
  | comment v _ ih =>
      obtain ⟨l, hl, e⟩ := exists_eq_append_lineRest v
      have hgap : afterGap ('#' :: (l ++ v')) = afterGap v' := by
        rw [afterGap_comment, lineRest_append hl, (hv.atEnd (atEnd_lineRest v)).lineRest_eq]
      have hlike : Like z z' ('#' :: v) ('#' :: (l ++ v')) := by
        refine hv.of_afterGap (atEnd_lineRest v) ?_ hgap
        rw [afterGap_comment, afterGap_of_solid (solid_lineRest v)]
      obtain ⟨x, hx, hlike⟩ := ih hlike
      refine ⟨x ++ '#' :: l, ?_, by simpa using hlike⟩
      rw [hx, List.append_assoc, List.cons_append, ← e]
  | line c v _ hc hname ih =>
      obtain ⟨x, hx, hlike⟩ := ih ((hv.linesLike hname).lineEnd hc hc)
      exact ⟨x ++ [c], by simpa using hx, by simpa using hlike⟩
  | name c v _ hc hname ih =>
      obtain ⟨y, hy, hlines⟩ := hname.linesLike hv
      obtain ⟨x, hx, hlike⟩ := ih (hlines.lineEnd hc hc)
      refine ⟨x ++ c :: y, ?_, by simpa using hlike⟩
      rw [hx, List.append_assoc, List.cons_append, ← hy]

/-! ### The readers of sections -/

theorem Scans.gap (h : Scans t u) : Scans t (afterGap u) := by
  induction u with
  | nil => exact h
  | cons c u ih =>
      rcases solid_or (c :: u) with hsolid | ⟨d, v, hd, e⟩ | ⟨v, e⟩
      · rwa [afterGap_of_solid hsolid]
      · obtain ⟨rfl, rfl⟩ := List.cons.inj e
        rw [afterGap_blank hd]
        exact ih (h.char c u (isCode_of_blank hd))
      · obtain ⟨rfl, rfl⟩ := List.cons.inj e
        exact h.comment u

theorem isNameLine_of_afterGap (h : IsName (afterGap u)) : IsNameLine u := by
  obtain ⟨c, v, hc, e⟩ := (isName_isSectionHeading h).isHeading.exists_cons
  refine ⟨afterGap u, ?_, h⟩
  rw [e]
  refine indented_of_afterGap e fun hend => ?_
  rcases isLineEnd_cases hend with rfl | rfl <;> exact absurd hc (by decide)

/-- After the end of a line the next line that is not empty is code, or the rest of it if it is that
of a name. -/
theorem Scans.lines (h : Scans t u) (hu : AtLineEnd u) :
    IsName (afterLines u) ∧ Scans t (lineRest (afterLines u)) ∨
      ¬ IsName (afterLines u) ∧ Scans t (afterLines u) := by
  induction hn : u.length using Nat.strong_induction_on generalizing u with
  | _ n ih =>
      subst hn
      obtain ⟨c, v, hc, e, e'⟩ := hu.exists_afterLines
      have hlen := length_afterGap_le u
      have hscan := h.gap
      rw [e] at hscan hlen
      rw [e']
      by_cases hname : IsNameLine v
      · obtain ⟨g, hg, hv, hname'⟩ := hname.exists_afterGap
        have hlines : afterLines v = afterGap v := by
          rw [← afterLines_afterGap, afterLines_of_ink hname'.ink]
        refine .inl ⟨by rwa [hlines], ?_⟩
        have hrest : lineRest (afterLines v) = lineRest v := by
          rw [hlines, ← lineRest_append hg.not_isLineEnd (afterGap v), ← hv]
        rw [hrest]
        exact hscan.name c v hc hname
      · have hscan' := hscan.line c v hc hname
        by_cases hv : AtLineEnd v
        · exact ih v.length hlen hscan' hv rfl
        · rw [afterLines_of_not hv]
          exact .inr ⟨fun h => hname (isNameLine_of_afterGap h), hscan'.gap⟩

/-- **The readers of sections go along the code** of a text. -/
theorem scans_congruent (t : List Char) : Congruent fun u v => u = v ∧ Scans t u where
  start := by
    rintro u _ ⟨rfl, h⟩
    by_cases hquoted : ∃ c v, c ≠ '\'' ∧ u = '\'' :: c :: '\'' :: v
    · obtain ⟨c, v, hc, rfl⟩ := hquoted
      exact .quoted c v v hc ⟨rfl, h.quoted c v hc⟩
    · by_cases hink : ∃ c v, IsInk c ∧ u = c :: v
      · obtain ⟨c, v, hc, rfl⟩ := hink
        refine .ink c v v hc ⟨rfl, h.char c v fun hmem => hc ?_⟩
        simp only [List.mem_cons, List.not_mem_nil, or_false] at hmem ⊢
        tauto
      · have hdull : Dull u := by
          refine ⟨fun c hc hc' => hink ⟨c, u.tail, hc', ?_⟩, hquoted⟩
          exact List.eq_cons_of_mem_head? hc
        exact .dull u u hdull hdull
  gap := by
    rintro u _ ⟨rfl, h⟩
    exact ⟨rfl, h.gap⟩
  lines := by
    rintro u _ ⟨rfl, h⟩
    by_cases hline : AtLineEnd u
    · rcases h.lines hline with ⟨hname, -⟩ | ⟨-, hscan⟩
      · have hclosing : Closing (afterLines u) := .inr (isName_isSectionHeading hname)
        exact .inr ⟨hclosing, hclosing⟩
      · exact .inl ⟨Iff.rfl, rfl, hscan⟩
    · rw [afterLines_of_not hline]
      exact .inl ⟨Iff.rfl, rfl, h.gap⟩

end TapeMachine.Notation
