import TapeMachine.Notation
import TapeMachine.Proofs.Notation.Drafts
import TapeMachine.Proofs.Notation.Scanning

/-!
# Notation — Outline

A text as the list of its sections, without their places.  `Reads u ss` says that from `u` on the
sections `ss` are read up to the end of the text, one after the other and with nothing but empty
lines between.

* `read_iff`: that is what the reader of documents does.
* `describe_eq_ok_iff`: the program that a text describes depends on the outline alone.
-/

namespace TapeMachine.Notation

open Reader Grammar

variable {u v w : List Char} {n : Nat}

/-! ### Sections wherever they stand -/

/-- The name is what comes after the colon, up to a comment. -/
theorem result_text (u : List Char) (n : Nat) : ∃ m, (text ⟨u, n⟩).result =
    if u.takeWhile isNameChar = [] then none
    else some (u.takeWhile isNameChar, ⟨u.dropWhile isNameChar, m⟩) := by
  have htext : text = named (takeWhile1 isNameChar) := rfl
  rw [htext, result_named, takeWhile1, result_bind]
  cases u with
  | nil => exact ⟨0, rfl⟩
  | cons c u =>
      by_cases hc : isNameChar c
      · obtain ⟨m, hm⟩ := skipWhile_eq isNameChar u (n + 1)
        refine ⟨m, ?_⟩
        rw [List.takeWhile_cons_of_pos hc, List.dropWhile_cons_of_pos hc]
        simp only [Reader.satisfying, hc, if_true, Option.bind_some, result_bind, Reader.takeWhile,
          hm, reduceCtorEq, if_false]
        rfl
      · refine ⟨0, ?_⟩
        rw [List.takeWhile_cons_of_neg hc]
        simp [Reader.satisfying, hc]

/-- At the heading of a name a name is read, and nothing else. -/
theorem result_anySection_of_name (h : Headed "name".toList u w) (n : Nat) :
    ∃ m, (anySection ⟨u, n⟩).result = if nameOf w = [] then none
      else some (⟨⟨n, m⟩, .name (nameOf w)⟩, ⟨(afterGap w).dropWhile isNameChar, m⟩) := by
  have hother {α : Type} (f : α → Section) {k : String} (q : Reader α) (hk : k ∈ keywords)
      (hne : k ≠ "name") : Fails (f <$> headed k q) u :=
    (h.fails_headed (s := "name") (by decide) hk hne).map
  have hothers : Fails (firstOf [
      Section.blank <$> headed "blank" symbol,
      Section.tapes <$> headed "tapes" tapeLists,
      (Section.tape <| ·.getD []) <$> headed "tape" (optional symbols),
      Section.heads <$> headed "heads" (bracketed (listOf index)),
      Section.head <$> headed "head" index,
      Section.finals <$> headed "final" finalStates,
      Section.maxSteps <$> headed "max_steps" number,
      Section.detectLoops <$> headed "detect_loops" boolean,
      Section.rules <$> headed "rules" blocks]) u := by
    refine fails_firstOf fun r hr => ?_
    fin_cases hr <;> exact hother _ _ (by decide) (by decide)
  have hname : ∃ j, (headed "name" text ⟨u, n⟩).result = (text ⟨afterGap w, j⟩).result := by
    obtain ⟨g, hg, rfl⟩ := h
    have hcolon : afterGap (g ++ ':' :: w) = ':' :: w := by
      rw [afterGap_blanks hg, afterGap_of_solid (solid_cons (by decide))]
    have hword : (literal "name" ⟨"name".toList ++ (g ++ ':' :: w), n⟩).result =
        some ((), ⟨g ++ ':' :: w, n + 4⟩) := rfl
    obtain ⟨m, hm⟩ := exists_next (literal ":") (g ++ ':' :: w) (n + 4)
    obtain ⟨j, hj⟩ := exists_next text w (m + 1)
    refine ⟨j, ?_⟩
    rw [headed, result_named, result_bind, hword, Option.bind_some, result_bind, hm, hcolon]
    exact hj
  obtain ⟨j, hj⟩ := hname
  obtain ⟨m, hm⟩ := result_text (afterGap w) j
  refine ⟨m, ?_⟩
  rw [anySection, result_placed, firstOf, result_orElse, hothers, result_map, hj, hm, nameOf]
  split <;> rfl

/-- What is read does not depend on how much text comes before, and some of the text is taken. -/
theorem exists_anySection {x : Placed Section} {c : Cursor}
    (h : (anySection ⟨u, n⟩).result = some (x, c)) (m : Nat) :
    ∃ y d, (anySection ⟨u, m⟩).result = some (y, d) ∧ y.value.bare = x.value.bare ∧
      d.rest = c.rest ∧ d.rest.length < u.length := by
  by_cases hname : IsName u
  · obtain ⟨w, hw⟩ := hname
    obtain ⟨j, hj⟩ := result_anySection_of_name hw n
    obtain ⟨k, hk⟩ := result_anySection_of_name hw m
    rw [h] at hj
    split at hj
    · cases hj
    · next hne =>
        cases hj
        rw [if_neg hne] at hk
        refine ⟨_, _, hk, rfl, rfl, ?_⟩
        obtain ⟨g, -, rfl⟩ := hw
        calc ((afterGap w).dropWhile isNameChar).length ≤ (afterGap w).length :=
              (List.dropWhile_sublist _).length_le
          _ ≤ w.length := length_afterGap_le w
          _ < ("name".toList ++ (g ++ ':' :: w)).length := by simp; omega
  · have hagree := agree_anySection (scans_congruent u) ⟨rfl, .refl⟩ hname n m
    rw [h] at hagree
    generalize hy : (anySection ⟨u, m⟩).result = y at hagree
    cases hagree with
    | @some _ y hxy => exact ⟨y.1, y.2, rfl, hxy.value.symm, hxy.rest.1.symm, hxy.right⟩

/-! ### Documents -/

/-- From `u` on the sections `ss` are read, up to the end of the text. -/
inductive Reads : List Char → List Section → Prop
  | nil : Reads [] []
  | cons (u : List Char) (n : Nat) (x : Placed Section) (c : Cursor) (ss : List Section) :
      (anySection ⟨u, n⟩).result = some (x, c) → AtEnd c.rest → Reads (afterLines c.rest) ss →
      Reads u (x.value.bare :: ss)

/-- A section, and what comes after it. -/
def sectionLine : Reader (Placed Section) := do
  let s ← anySection
  next (lineBreaks.orElse (ahead theEnd))
  return s

/-- A section that is read, and those after it. -/
theorem Reads.of_next {x : Placed Section} {d : Cursor} {ss : List Section}
    (h : (next sectionLine ⟨u, n⟩).result = some (x, d)) (hd : Reads (afterGap d.rest) ss) :
    Reads (afterGap u) (x.value.bare :: ss) := by
  obtain ⟨m, hm⟩ := exists_next sectionLine u n
  rw [hm, sectionLine, result_bind, Option.bind_eq_some_iff] at h
  obtain ⟨⟨y, c⟩, hy, h⟩ := h
  by_cases hc : AtEnd c.rest
  · obtain ⟨v, j, hv, hgap, -⟩ := hc.exists_break c.offset
    rw [result_bind, hv] at h
    cases h
    rw [hgap] at hd
    exact .cons _ m y c ss hy hc hd
  · rw [result_bind, fails_break hc c.offset] at h
    cases h

/-- The first section is read, and then those after it. -/
theorem Reads.exists_next {s : Section} {ss : List Section} (h : Reads (afterGap u) (s :: ss))
    (n : Nat) : ∃ x v m, (next sectionLine ⟨u, n⟩).result = some (x, ⟨v, m⟩) ∧ x.value.bare = s ∧
      Reads (afterGap v) ss ∧ v.length < u.length := by
  obtain ⟨m, hm⟩ := Notation.exists_next sectionLine u n
  generalize hz : afterGap u = z at h
  cases h with
  | cons _ j x c _ hx hc hss =>
      obtain ⟨y, d, hy, hbare, hrest, hlt⟩ := exists_anySection hx m
      rw [← hrest] at hc hss
      obtain ⟨v, l, hv, hgap, hlen⟩ := hc.exists_break d.offset
      refine ⟨y, v, l, ?_, hbare, by rwa [hgap], ?_⟩
      · rw [hm, hz, sectionLine, result_bind, hy, Option.bind_some, result_bind, hv]
        rfl
      · have := length_afterGap_le u
        rw [hz] at this
        omega

/-- At the end of the text there is no section. -/
theorem fails_next_sectionLine (h : afterGap u = []) (n : Nat) :
    (next sectionLine ⟨u, n⟩).result = none := by
  obtain ⟨m, hm⟩ := exists_next sectionLine u n
  rw [hm, h]
  exact fails_anySection_nil.bind m

/-- What a repetition of sections has read up to the end of the text. -/
theorem reads_of_repeatFrom {fuel : List Char} {done doc : Document} {k : Nat} {c : Cursor}
    (h : (repeatFrom (next sectionLine) done k fuel ⟨u, n⟩).result = some (doc, c))
    (hc : afterGap c.rest = []) :
    ∃ more, doc = done.reverse ++ more ∧ Reads (afterGap u) (more.map fun s => s.value.bare) := by
  have hnil {done : Document} {u : List Char} {n : Nat}
      (h : some (done.reverse, Cursor.mk u n) = some (doc, c)) :
      ∃ more, doc = done.reverse ++ more ∧ Reads (afterGap u) (more.map fun s => s.value.bare) := by
    cases h
    refine ⟨[], (List.append_nil _).symm, ?_⟩
    rw [hc]
    exact .nil
  induction fuel generalizing u done k n with
  | nil => exact hnil h
  | cons a fuel ih =>
      rw [result_repeatFrom] at h
      cases hx : (next sectionLine ⟨u, n⟩).result with
      | none =>
          rw [hx] at h
          exact hnil h
      | some x =>
          rw [hx] at h
          obtain ⟨more, rfl, hmore⟩ := ih h
          exact ⟨x.1 :: more, by simp, hmore.of_next hx⟩

/-- Sections that are there are read by a repetition. -/
theorem Reads.exists_repeatFrom {ss : List Section} (h : Reads (afterGap u) ss)
    {fuel : List Char} (hf : u.length < fuel.length) (done : Document) (k n : Nat) : ∃ more c,
      (repeatFrom (next sectionLine) done k fuel ⟨u, n⟩).result = some (done.reverse ++ more, c) ∧
        afterGap c.rest = [] ∧ more.map (fun s => s.value.bare) = ss := by
  induction ss generalizing u fuel done k n with
  | nil =>
      obtain ⟨a, fuel, rfl⟩ := List.exists_cons_of_length_pos (Nat.zero_lt_of_lt hf)
      generalize hz : afterGap u = z at h
      cases h
      refine ⟨[], ⟨u, n⟩, ?_, hz, rfl⟩
      rw [result_repeatFrom, fails_next_sectionLine hz, List.append_nil]
  | cons s ss ih =>
      obtain ⟨a, fuel, rfl⟩ := List.exists_cons_of_length_pos (Nat.zero_lt_of_lt hf)
      obtain ⟨x, v, m, hx, hbare, hss, hlt⟩ := h.exists_next n
      have hf' : v.length < fuel.length := lt_of_lt_of_le hlt (Nat.le_of_lt_succ hf)
      obtain ⟨more, c, hc, hend, hmore⟩ := ih hss hf' (x :: done)
        (max k (next sectionLine ⟨u, n⟩).furthest) m
      refine ⟨x :: more, c, ?_, hend, by rw [List.map_cons, hmore, hbare]⟩
      rw [result_repeatFrom, hx]
      simpa using hc

theorem exists_repeatFrom {α : Type} (p : Reader α) (done : List α) (k : Nat) (fuel : List Char)
    (c : Cursor) : ∃ x, (repeatFrom p done k fuel c).result = some x := by
  induction fuel generalizing done k c with
  | nil => exact ⟨_, rfl⟩
  | cons a fuel ih =>
      rw [result_repeatFrom]
      cases (p c).result with
      | none => exact ⟨_, rfl⟩
      | some x => exact ih _ _ _

/-- A construct is there not at all, or once and then again and again. -/
theorem exists_next_many {α : Type} (p : Reader α) (u : List Char) (n : Nat) :
    ∃ m, (next (many p) ⟨u, n⟩).result = match (next p ⟨u, n⟩).result with
      | none => some ([], ⟨afterGap u, m⟩)
      | some x => (repeated (next p) x.2).result.map fun y => (x.1 :: y.1, y.2) := by
  obtain ⟨m, hm⟩ := exists_gap u n
  refine ⟨m, ?_⟩
  have hp : (next p ⟨u, n⟩).result = (p ⟨afterGap u, m⟩).result := by
    rw [Grammar.next, result_bind, hm]
    rfl
  rw [hp, Grammar.next, result_bind, hm, Option.bind_some, many, result_orElse, result_bind]
  cases (p ⟨afterGap u, m⟩).result with
  | none => rfl
  | some x =>
      obtain ⟨y, hy⟩ := exists_repeatFrom (next p) [] 0 (' ' :: x.2.rest) x.2
      have hy' : (repeated (next p) x.2).result = some y := hy
      simp only [Option.bind_some, result_bind, hy', Option.map_some, result_pure, Option.some_or]

/-- The sections of the rest of a text, up to its end. -/
theorem reads_iff_next_many {ss : List Section} : Reads (afterGap u) ss ↔
    ∃ doc c, (next (many sectionLine) ⟨u, n⟩).result = some (doc, c) ∧ afterGap c.rest = [] ∧
      doc.map (fun s => s.value.bare) = ss := by
  obtain ⟨m, hm⟩ := exists_next_many sectionLine u n
  rw [hm]
  constructor
  · intro h
    cases ss with
    | nil =>
        generalize hz : afterGap u = z at h
        cases h
        rw [fails_next_sectionLine hz]
        exact ⟨[], _, rfl, rfl, rfl⟩
    | cons s ss =>
        obtain ⟨x, v, j, hx, hbare, hss, -⟩ := h.exists_next n
        have hf : v.length < (' ' :: v).length := Nat.lt_succ_self _
        obtain ⟨more, c, hc, hend, hmore⟩ := hss.exists_repeatFrom hf [] 0 j
        have hmany : (repeated (next sectionLine) ⟨v, j⟩).result = some (more, c) := hc
        refine ⟨x :: more, c, ?_, hend, by rw [List.map_cons, hmore, hbare]⟩
        simp only [hx, hmany, Option.map_some]
  · rintro ⟨doc, c, h, hend, rfl⟩
    cases hx : (next sectionLine ⟨u, n⟩).result with
    | none =>
        rw [hx] at h
        obtain ⟨rfl, rfl⟩ := Prod.mk.inj (Option.some.inj h)
        rw [afterGap_afterGap] at hend
        rw [hend]
        exact .nil
    | some x =>
        simp only [hx] at h
        obtain ⟨y, hy, e⟩ := Option.map_eq_some_iff.1 h
        obtain ⟨rfl, rfl⟩ := Prod.mk.inj e
        obtain ⟨more, hmore, hreads⟩ := reads_of_repeatFrom hy hend
        rw [List.reverse_nil, List.nil_append] at hmore
        rw [List.map_cons, hmore]
        exact hreads.of_next hx

/-- **The sections of a text are those that are read one after the other**, from the first line on
that is not empty. -/
theorem read_iff {t : List Char} {ss : List Section} :
    (∃ doc, Document.read t = .ok doc ∧ doc.map (fun s => s.value.bare) = ss) ↔
      Reads (afterLines t) ss := by
  obtain ⟨as, v, m, hv, hgap, -⟩ := exists_next_many_lineBreak t 0
  have hend (c : Cursor) : (∃ d, (next theEnd c).result = some ((), d)) ↔ afterGap c.rest = [] := by
    obtain ⟨j, hj⟩ := exists_next theEnd c.rest c.offset
    have hj : (next theEnd c).result = (theEnd ⟨afterGap c.rest, j⟩).result := hj
    rw [hj, theEnd, result_named, endOfText]
    cases afterGap c.rest with
    | nil => simp
    | cons a u => simp
  have hread (doc : Document) : Document.read t = .ok doc ↔
      ∃ c, (next (many sectionLine) ⟨v, m⟩).result = some (doc, c) ∧ afterGap c.rest = [] := by
    have hdocument : (document ⟨t, 0⟩).result = (next (many sectionLine) ⟨v, m⟩).result.bind
        fun x => (next theEnd x.2).result.map fun y => (x.1, y.2) := by
      rw [document, result_named, result_bind, hv, Option.bind_some, result_bind]
      refine congrArg _ (funext fun x => ?_)
      rw [result_bind]
      cases (next theEnd x.2).result with
      | none => rfl
      | some y => rfl
    have hsome : Document.read t = .ok doc ↔ ∃ c, (document ⟨t, 0⟩).result = some (doc, c) := by
      rw [Document.read]
      split
      · next h => simp [h]
      · next h => simp [h]
    rw [hsome, hdocument]
    constructor
    · rintro ⟨d, h⟩
      obtain ⟨⟨_, c⟩, hc, h⟩ := Option.bind_eq_some_iff.1 h
      obtain ⟨⟨⟨⟩, e⟩, he, h⟩ := Option.map_eq_some_iff.1 h
      cases h
      exact ⟨c, hc, (hend c).1 ⟨e, he⟩⟩
    · rintro ⟨c, hc, hnil⟩
      obtain ⟨d, hd⟩ := (hend c).2 hnil
      exact ⟨d, by rw [hc, Option.bind_some, hd]; rfl⟩
  rw [← hgap, reads_iff_next_many (n := m)]
  constructor
  · rintro ⟨doc, h, rfl⟩
    obtain ⟨c, hc, hnil⟩ := (hread doc).1 h
    exact ⟨doc, c, hc, hnil, rfl⟩
  · rintro ⟨doc, c, hc, hnil, rfl⟩
    exact ⟨doc, (hread doc).2 ⟨c, hc, hnil⟩, rfl⟩

/-! ### Programs -/

theorem Section.kind_bare (s : Section) : s.bare.kind = s.kind := by cases s <;> rfl

theorem sameValue_headPosition (x : Placed (List Char)) :
    SameValue (headPosition x) (headPosition (.bare x.value)) := fun i => by
  rw [headPosition_eq_ok_iff, headPosition_eq_ok_iff, Placed.value_bare]

theorem sameValue_stepCount (x : Placed (List Char)) :
    SameValue (stepCount x) (stepCount (.bare x.value)) := fun k => by
  rw [stepCount_eq_ok_iff, stepCount_eq_ok_iff, Placed.value_bare]

theorem sameValue_checkedRule (s : State) (a : Placed Action) :
    SameValue (Action.checkedRule s a) (Action.checkedRule s (.bare a.value)) := fun r => by
  rw [checkedRule_eq_ok_iff, checkedRule_eq_ok_iff, Placed.value_bare]

theorem sameValue_blockRules (bs : List (Placed Block)) (done : List (State × List Rule)) :
    SameValue (Block.rules done bs) (Block.rules done (bs.map fun b => .bare b.value.bare)) := by
  induction bs generalizing done with
  | nil => exact .refl _
  | cons b bs ih =>
      rw [List.map_cons, Block.rules, Block.rules]
      refine (sameValue_mapM (sameValue_checkedRule b.value.state) _).bind fun rs => ?_
      change SameValue (if b.value.state ∈ done.map Prod.fst then _ else _)
        (if b.value.state ∈ done.map Prod.fst then _ else _)
      split
      · exact sameValue_error _ _
      · exact ih _

theorem sameValue_addTapes (d : Draft) (i j : Span) (ws : List Word) :
    SameValue (d.addTapes i ws) (d.addTapes j ws) := fun d' => by
  rw [addTapes_eq_ok, addTapes_eq_ok]

theorem sameValue_addHeads (d : Draft) (i j : Span) (xs : List (Placed (List Char))) :
    SameValue (d.addHeads i xs) (d.addHeads j (xs.map fun x => .bare x.value)) := fun d' => by
  rw [addHeads_eq_ok, addHeads_eq_ok]
  exact and_congr_right fun _ => exists_congr fun is =>
    and_congr_left fun _ => sameValue_mapM sameValue_headPosition xs is

/-- It does not matter for a draft where a section stands, nor the white space around a name. -/
theorem sameValue_add (d : Draft) (s : Placed Section) :
    SameValue (d.add s) (d.add (.bare s.value.bare)) := by
  rw [Draft.add, Draft.add, Placed.value_bare, Section.kind_bare]
  split
  · exact sameValue_error _ _
  · cases s.value with
    | name t => exact fun _ => by rw [Section.bare, Draft.addContent, Draft.addContent, trim_trim]
    | blank _ | finals _ | detectLoops _ => exact .refl _
    | tape _ | tapes _ => exact sameValue_addTapes _ _ _ _
    | head x => exact sameValue_addHeads _ _ _ [x]
    | heads xs => exact sameValue_addHeads _ _ _ xs
    | maxSteps x => exact (sameValue_stepCount x).bind fun _ => .refl _
    | rules bs => exact (sameValue_blockRules bs []).bind fun _ => .refl _

/-- The draft of sections that stand anywhere. -/
def Draft.ofSections (ss : List Section) : Except (Placed Problem) Draft :=
  Draft.ofDocument (ss.map .bare)

/-- **What a text describes depends on its outline alone.** -/
theorem describe_eq_ok_iff {t : List Char} {p : Program} : describe t = .ok p ↔
    ∃ ss d, Reads (afterLines t) ss ∧ Draft.ofSections ss = .ok d ∧ d.program = .ok p := by
  have hdescribe : describe t = .ok p ↔ ∃ doc d, Document.read t = .ok doc ∧
      Draft.ofDocument doc = .ok d ∧ d.program = .ok p := by
    rw [describe]
    split
    · next h => simp [h]
    · next doc h =>
        split
        · next h' => simp [h, h']
        · next d h' =>
            split
            · next h'' => simp [h, h', h'']
            · next h'' => simp [h, h', h'']
  have hsame (doc : Document) : SameValue (Draft.ofDocument doc)
      (Draft.ofSections (doc.map fun s => s.value.bare)) := by
    rw [Draft.ofSections, List.map_map]
    exact sameValue_foldlM sameValue_add doc {}
  rw [hdescribe]
  constructor
  · rintro ⟨doc, d, hdoc, hd, hp⟩
    exact ⟨_, d, read_iff.1 ⟨doc, hdoc, rfl⟩, (hsame doc d).1 hd, hp⟩
  · rintro ⟨ss, d, hss, hd, hp⟩
    obtain ⟨doc, hdoc, rfl⟩ := read_iff.2 hss
    exact ⟨doc, d, hdoc, (hsame doc d).2 hd, hp⟩

end TapeMachine.Notation
