import TapeMachine.Proofs.Notation.Layout

/-!
# Notation — Positions

Where in a text something may be put in without a change of what it says.  The text that is read is
code up to its end (`Reads.scans`), so that the end of each line is on the way of the code, or else
inside of a symbol in quotes (`Scans.through`).  What comes after that place may be replaced by
something like it (`Scans.replace`), and texts that are like each other are read the same
(`Like.reads`).
-/

namespace TapeMachine.Notation

open Reader Grammar

variable {g g' s t u v w x y z : List Char} {c d : Char} {xs : List Section}

/-! ### The ends of lines -/

/-- Blanks, and then a comment or nothing: what may stand at the end of a line. -/
inductive Trailer : List Char → Prop
  | nil : Trailer []
  | blank {c : Char} {g : List Char} : c = ' ' ∨ c = '\t' → Trailer g → Trailer (c :: g)
  | comment {l : List Char} : (∀ c ∈ l, ¬ isLineEnd c) → Trailer ('#' :: l)

theorem Trailer.not_isLineEnd (h : Trailer g) : ∀ c ∈ g, ¬ isLineEnd c := by
  induction h with
  | nil => exact nofun
  | blank hc _ ih => exact List.forall_mem_cons.2 ⟨not_isLineEnd_of_blank hc, ih⟩
  | comment hl => exact List.forall_mem_cons.2 ⟨by decide, hl⟩

theorem Trailer.append (h : Trailer g) (h' : Trailer g') : Trailer (g ++ g') := by
  induction h with
  | nil => exact h'
  | blank hc _ ih => exact .blank hc ih
  | comment hl => exact .comment (List.forall_mem_append.2 ⟨hl, h'.not_isLineEnd⟩)

theorem Trailer.of_append (h : Trailer (g ++ g')) : Trailer g := by
  induction g with
  | nil => exact .nil
  | cons c g ih =>
      cases h with
      | blank hc h => exact .blank hc (ih h)
      | comment hl => exact .comment (List.forall_mem_append.1 hl).1

theorem Trailer.afterGap_append (h : Trailer g) (hy : AtEnd y) : afterGap (g ++ y) = afterGap y := by
  induction h with
  | nil => rfl
  | blank hc _ ih => rw [List.cons_append, afterGap_blank hc, ih]
  | comment hl => rw [List.cons_append, afterGap_comment, lineRest_append hl, hy.lineRest_eq]

theorem Trailer.afterLines_append (h : Trailer g) (hy : AtEnd y) :
    afterLines (g ++ y) = afterLines y := by
  rw [← afterLines_afterGap, h.afterGap_append hy, afterLines_afterGap]

/-- A colon in a trailer belongs to its comment. -/
theorem Trailer.mem_of_colon {a : List Char} (h : Trailer (a ++ ':' :: w)) : '#' ∈ a := by
  induction a with
  | nil =>
      cases h with
      | blank hc _ => simp at hc
  | cons c a ih =>
      cases h with
      | blank _ h => exact List.mem_cons_of_mem c (ih h)
      | comment _ => exact List.mem_cons_self

/-- The line of a name has its colon, and so all of its heading, before the trailer. -/
theorem isNameLine_append (hg : Trailer g) : IsNameLine (v ++ g) ↔ IsNameLine v := by
  constructor
  · rintro ⟨_, ⟨b, hb, e⟩, w, b', hb', rfl⟩
    have hword : ∀ c ∈ "name".toList, c ≠ '#' := by simp
    have hp : ∀ c ∈ b ++ ("name".toList ++ b'), c ≠ '#' := by
      intro c hc
      simp only [List.mem_append] at hc
      rcases hc with hc | hc | hc
      · rcases hb c hc with rfl | rfl <;> decide
      · exact hword c hc
      · rcases hb' c hc with rfl | rfl <;> decide
    have e' : v ++ g = (b ++ ("name".toList ++ b')) ++ ':' :: w := by simpa using e
    rcases List.append_eq_append_iff.1 e' with ⟨a, hv, hga⟩ | ⟨a, hv, hga⟩
    · rw [hga] at hg
      refine absurd rfl (hp '#' ?_)
      rw [hv]
      exact List.mem_append_right v hg.mem_of_colon
    · cases a with
      | nil =>
          rw [List.nil_append] at hga
          rw [← hga] at hg
          cases hg with
          | blank hc _ => simp at hc
      | cons c a =>
          obtain ⟨rfl, -⟩ := List.cons.inj hga
          exact ⟨_, ⟨b, hb, by simpa using hv⟩, a, b', hb', rfl⟩
  · rintro ⟨_, ⟨b, hb, rfl⟩, w, hw⟩
    exact ⟨_, ⟨b, hb, List.append_assoc ..⟩, _, hw.append g⟩

/-- The text goes on with the end of a line, or not at all. -/
def AtBreak (y : List Char) : Prop := ∀ c ∈ y.head?, isLineEnd c

theorem atBreak_nil : AtBreak [] := nofun

theorem AtBreak.atEnd (h : AtBreak y) : AtEnd y := by
  cases y with
  | nil => exact .inr rfl
  | cons c y => exact .inl (atLineEnd_of_isLineEnd (h c rfl))

/-! ### Reading -/

/-- **Texts that are like each other are read the same.** -/
theorem Like.reads (h : Like [] [] u v) (hu : AtEnd u) (hr : Reads (afterLines u) xs) :
    Reads (afterLines v) xs := by
  induction xs generalizing u v with
  | nil =>
      rw [(h.over ⟨hu, hr.eq_nil⟩).2]
      exact .nil
  | cons s xs ih =>
      cases h.linesLike fun hname => hname.not_atEnd hu with
      | ends hnil hnil' => rwa [hnil', ← hnil]
      | line hname hlike =>
          generalize afterLines u = z at hr hname hlike
          cases hr with
          | cons _ n a d _ ha hd hr =>
              have hclosing : Closing [] := .inl rfl
              have hagree := agree_anySection (like_congruent hclosing hclosing) hlike hname n 0
              rw [ha] at hagree
              generalize hb : (anySection ⟨afterLines v, 0⟩).result = b at hagree
              cases hagree with
              | @some _ b hab =>
                  rw [hab.value]
                  exact .cons _ 0 b.1 b.2 xs hb (hab.rest.atEnd hd) (ih hab.rest hd hr)
      | name hname hlike =>
          generalize afterLines u = z at hr hname hlike
          obtain ⟨w, w', hw, hw', hnil, htrim⟩ := hname
          cases hr with
          | cons _ n a d _ ha hd hr =>
              obtain ⟨hne, hvalue, hover⟩ := name_of_result hw ha
              obtain ⟨b, e, hb, hvalue', hover'⟩ := exists_name hw' (fun h => hne (hnil.2 h)) 0
              have hbare : a.value.bare = b.value.bare := by
                rw [hvalue, hvalue']
                exact congrArg Section.name htrim
              rw [hbare]
              refine .cons _ 0 b e xs hb hover'.1 ?_
              rw [hover'.2]
              rw [hover.2] at hr
              exact ih hlike (atEnd_lineRest z) hr

/-- **The text that is read is code** up to its end. -/
theorem Reads.scans (hr : Reads (afterLines u) xs) (hu : AtEnd u) (hs : Scans t u) : Scans t [] := by
  induction xs generalizing u with
  | nil =>
      have hnil := hr.eq_nil
      by_cases hline : AtLineEnd u
      · rcases hs.lines hline with ⟨hname, -⟩ | ⟨-, hs⟩
        · rw [hnil] at hname
          obtain ⟨w, g, -, e⟩ := hname
          cases e
        · rwa [hnil] at hs
      · have hgap := hs.gap
        rwa [hu.resolve_left hline] at hgap
  | cons s xs ih =>
      generalize hz : afterLines u = z at hr
      cases hr with
      | cons _ n a d _ ha hd hr =>
          have hne : afterLines u ≠ [] := hz ▸ ne_nil_of_result ha
          rcases hs.lines (hu.atLineEnd hne) with ⟨⟨w, hw⟩, hs⟩ | ⟨hname, hs⟩ <;> rw [hz] at *
          · obtain ⟨-, -, hover⟩ := name_of_result hw ha
            rw [hover.2] at hr
            exact ih hr (atEnd_lineRest z) hs
          · have hscan := agree_anySection (scans_congruent t) ⟨rfl, hs⟩ hname n n
            rw [ha] at hscan
            cases hscan with
            | some h => exact ih hr hd h.rest.2

/-! ### Places on the way of the code -/

theorem Scans.suffix (h : Scans u v) : v <:+ u := by
  induction h with
  | refl => exact List.suffix_rfl
  | char c v _ _ ih => exact (List.suffix_cons c v).trans ih
  | quoted c v _ _ ih => exact ((List.suffix_append ['\'', c, '\''] v)).trans ih
  | comment v _ ih => exact (List.dropWhile_suffix _).trans ((List.suffix_cons '#' v).trans ih)
  | line c v _ _ _ ih => exact (List.suffix_cons c v).trans ih
  | name c v _ _ _ ih => exact (List.dropWhile_suffix _).trans ((List.suffix_cons c v).trans ih)

/-- The rest `y` of the text `s` starts inside of a symbol in quotes, before or after the symbol
itself. -/
def InQuotes (s y : List Char) : Prop :=
  ∃ c v, Scans s ('\'' :: c :: '\'' :: v) ∧ c ≠ '\'' ∧ (y = c :: '\'' :: v ∨ y = '\'' :: v)

/-- The next end of a line is where the line ends. -/
theorem AtBreak.eq_lineRest (hbreak : AtBreak y) (hy : y <:+ v)
    (hlen : (lineRest v).length ≤ y.length) : y = lineRest v := by
  induction v with
  | nil => exact List.eq_nil_of_suffix_nil hy
  | cons c v ih =>
      by_cases hc : isLineEnd c
      · rw [lineRest_cons_of_isLineEnd hc] at hlen ⊢
        exact hy.eq_of_length_le hlen
      · rw [lineRest_cons_of_not hc] at hlen ⊢
        rcases List.suffix_cons_iff.1 hy with rfl | hy
        · exact absurd (hbreak c rfl) hc
        · exact ih hy hlen

/-- **The end of a line is on the way of the code**, or inside of a symbol in quotes. -/
theorem Scans.through (h : Scans s v) (hy : y <:+ s) (hlen : v.length ≤ y.length)
    (hbreak : AtBreak y) : (Scans s y ∧ Scans y v) ∨ InQuotes s y := by
  have hsame {v : List Char} (h : Scans s v) (hlen : v.length = y.length) : y = v :=
    (List.suffix_of_suffix_length_le hy h.suffix hlen.ge).eq_of_length hlen.symm
  have hcons {c : Char} {v : List Char} (h : Scans s (c :: v)) (hlen : y.length ≤ v.length) :
      y <:+ v :=
    List.suffix_of_suffix_length_le hy ((List.suffix_cons c v).trans h.suffix) hlen
  induction h with
  | refl =>
      obtain rfl := hy.eq_of_length_le hlen
      exact .inl ⟨.refl, .refl⟩
  | char c v h hc ih =>
      rcases hlen.eq_or_lt with hlen | hlen
      · obtain rfl := hsame (h.char c v hc) hlen
        exact .inl ⟨h.char c y hc, .refl⟩
      · exact (ih hlen).imp_left fun ⟨hs, hv⟩ => ⟨hs, hv.char c v hc⟩
  | quoted c v h hc ih =>
      rcases hlen.eq_or_lt with hlen | hlen
      · obtain rfl := hsame (h.quoted c v hc) hlen
        exact .inl ⟨h.quoted c y hc, .refl⟩
      · by_cases hall : ('\'' :: c :: '\'' :: v).length ≤ y.length
        · exact (ih hall).imp_left fun ⟨hs, hv⟩ => ⟨hs, hv.quoted c v hc⟩
        · -- The rest starts between the first quote and the end of the second one.
          have hy' := hcons h (by simp only [List.length_cons] at hall ⊢; omega)
          refine .inr ⟨c, v, h, hc, ?_⟩
          rcases List.suffix_cons_iff.1 hy' with hy' | hy'
          · exact .inl hy'
          · refine .inr (hy'.eq_of_length_le ?_)
            simpa using hlen
  | comment v h ih =>
      by_cases hall : ('#' :: v).length ≤ y.length
      · exact (ih hall).imp_left fun ⟨hs, hv⟩ => ⟨hs, hv.comment v⟩
      · obtain rfl := hbreak.eq_lineRest (hcons h (Nat.le_of_lt_succ (Nat.lt_of_not_le hall))) hlen
        exact .inl ⟨h.comment v, .refl⟩
  | line c v h hc hname ih =>
      rcases hlen.eq_or_lt with hlen | hlen
      · obtain rfl := hsame (h.line c v hc hname) hlen
        exact .inl ⟨h.line c y hc hname, .refl⟩
      · exact (ih hlen).imp_left fun ⟨hs, hv⟩ => ⟨hs, hv.line c v hc hname⟩
  | name c v h hc hname ih =>
      by_cases hall : (c :: v).length ≤ y.length
      · exact (ih hall).imp_left fun ⟨hs, hv⟩ => ⟨hs, hv.name c v hc hname⟩
      · obtain rfl := hbreak.eq_lineRest (hcons h (Nat.le_of_lt_succ (Nat.lt_of_not_le hall))) hlen
        exact .inl ⟨h.name c v hc hname, .refl⟩

/-- The end of a line is on the way of the code to the end of the text. -/
theorem Scans.to_break (h : Scans (x ++ y) []) (hbreak : AtBreak y) (hy : ¬ InQuotes (x ++ y) y) :
    Scans (x ++ y) y ∧ Scans y [] :=
  (h.through (List.suffix_append x y) (Nat.zero_le _) hbreak).resolve_right hy

/-- A text that is code is like itself. -/
theorem Scans.like_self (h : Scans y []) : Like [] [] y y := by
  obtain ⟨x, hx, hlike⟩ := h.like (.ends [] [] over_nil over_nil)
  rwa [← hx] at hlike

theorem Scans.replace (h : Scans (x ++ y) y) (hlike : Like [] [] y z) :
    Like [] [] (x ++ y) (x ++ z) := by
  obtain ⟨x', hx', hlike⟩ := h.like hlike
  obtain rfl := List.append_cancel_right hx'
  exact hlike

theorem lineRest_append_of_ne (h : lineRest v ≠ []) : lineRest (v ++ g) = lineRest v ++ g := by
  obtain ⟨l, hl, e⟩ := exists_eq_append_lineRest v
  obtain ⟨c, w, hc, hw⟩ := (lineRest_cases v).resolve_left h
  rw [e, List.append_assoc, lineRest_append hl, lineRest_append hl, hw, List.cons_append,
    lineRest_cons_of_isLineEnd hc, lineRest_cons_of_isLineEnd hc]
  rfl

/-- What is on the way of the code stays there with a trailer at the end of the text. -/
theorem Scans.append_trailer (h : Scans u v) (hv : v ≠ []) (hg : Trailer g) :
    Scans (u ++ g) (v ++ g) := by
  induction h with
  | refl => exact .refl
  | char c v _ hc ih => exact (ih (List.cons_ne_nil _ _)).char c _ hc
  | quoted c v _ hc ih => exact (ih (List.cons_ne_nil _ _)).quoted c _ hc
  | comment v _ ih =>
      rw [← lineRest_append_of_ne hv]
      exact (ih (List.cons_ne_nil _ _)).comment _
  | line c v _ hc hname ih =>
      exact (ih (List.cons_ne_nil _ _)).line c _ hc (mt (isNameLine_append hg).1 hname)
  | name c v _ hc hname ih =>
      rw [← lineRest_append_of_ne hv]
      exact (ih (List.cons_ne_nil _ _)).name c _ hc ((isNameLine_append hg).2 hname)

theorem InQuotes.append_trailer (h : InQuotes s y) (hg : Trailer g) :
    InQuotes (s ++ g) (y ++ g) := by
  obtain ⟨c, v, hs, hc, hy⟩ := h
  refine ⟨c, v ++ g, hs.append_trailer (List.cons_ne_nil _ _) hg, hc, ?_⟩
  exact hy.imp (fun hy => by rw [hy]; rfl) fun hy => by rw [hy]; rfl

end TapeMachine.Notation
