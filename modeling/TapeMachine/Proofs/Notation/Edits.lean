import TapeMachine.Proofs.Notation.Order
import TapeMachine.Proofs.Notation.Positions
import TapeMachine.Proofs.Notation.RoundTrip

/-!
# Notation — Edits

Comments, empty lines and the kinds of line breaks say nothing.  An `Edit` of a text puts blanks and
a comment at the end of a line, puts in a line of such, or breaks a line in another way, but not
inside of a symbol in quotes.  However often a text is edited, it gives the same program
(`Program.parse_edited`).

One edit leaves the sections that are read as they are (`Edit.reads`).  That the white space at the
ends of the text is not read has to be told apart, since what is edited may end with blanks: what is
kept by an edit (`Edited`) is that the text has a trailer behind the sections that are read.
-/

namespace TapeMachine

namespace Notation

open Reader Grammar

variable {e g s t t' u u' v x y z : List Char} {c : Char} {xs : List Section}

/-! ### One edit -/

/-- The ways in which a line is broken. -/
inductive IsLineBreak : List Char → Prop
  | lineFeed : IsLineBreak ['\n']
  | both : IsLineBreak ['\r', '\n']
  | carriageReturn : IsLineBreak ['\r']

theorem IsLineBreak.atBreak (h : IsLineBreak e) (y : List Char) : AtBreak (e ++ y) := by
  cases h <;> rintro _ ⟨⟩ <;> rfl

theorem IsLineBreak.atLineEnd (h : IsLineBreak e) (y : List Char) : AtLineEnd (e ++ y) := by
  cases h <;> exact atLineEnd_of_isLineEnd rfl

theorem IsLineBreak.afterLines_append (h : IsLineBreak e) (y : List Char) :
    afterLines (e ++ y) = afterLines y := by
  cases h <;> rfl

/-- The text before is empty, or ends with the end of a line. -/
def AtLineStart (x : List Char) : Prop := ∀ c ∈ x.getLast?, isLineEnd c

/-- A change of the text at a place that is not inside of a symbol in quotes.  Quotes in a name are
none, and the line of a name starts after the end of a line: so the text is taken with one in
front. -/
inductive Edit : List Char → List Char → Prop
  /-- Blanks and a comment at the end of a line, or at that of the text. -/
  | trailer (x g y : List Char) : Trailer g → AtBreak y → ¬ InQuotes ('\n' :: (x ++ y)) y →
      Edit (x ++ y) (x ++ (g ++ y))
  /-- A line of blanks and a comment in front of a line. -/
  | line (x g e y : List Char) : Trailer g → IsLineBreak e → AtLineStart x →
      ¬ InQuotes ('\n' :: (x ++ y)) y → Edit (x ++ y) (x ++ (g ++ (e ++ y)))
  /-- Another kind of line break. -/
  | lineBreak (x e e' y : List Char) : IsLineBreak e → IsLineBreak e' →
      ¬ InQuotes ('\n' :: (x ++ (e ++ y))) (e ++ y) → Edit (x ++ (e ++ y)) (x ++ (e' ++ y))

theorem Edit.of_eq (h : Edit u u') (hu : u = t) (hu' : u' = t') : Edit t t' := hu ▸ hu' ▸ h

theorem not_inQuotes (h : y.head? ≠ some '\'') (h' : y[1]? ≠ some '\'') : ¬ InQuotes s y := by
  rintro ⟨c, v, -, -, rfl | rfl⟩
  · exact h' rfl
  · exact h rfl

theorem AtLineStart.exists_lineEnd (h : AtLineStart x) :
    ∃ z c, isLineEnd c ∧ '\n' :: x = z ++ [c] := by
  rcases List.eq_nil_or_concat x with rfl | ⟨z, c, rfl⟩
  · exact ⟨[], '\n', rfl, rfl⟩
  · exact ⟨'\n' :: z, c, h c (by simp), by simp⟩

/-- An edited text is like what it was. -/
theorem Edit.like (h : Edit t t') (hs : Scans ('\n' :: t) []) :
    Like [] [] ('\n' :: t) ('\n' :: t') := by
  cases h with
  | trailer x g y hg hbreak hy =>
      obtain ⟨hsy, hyend⟩ := Scans.to_break (x := '\n' :: x) hs hbreak hy
      refine Scans.replace (x := '\n' :: x) hsy (hyend.like_self.of_afterGap hbreak.atEnd rfl ?_)
      exact hg.afterGap_append hbreak.atEnd
  | line x g e y hg he hstart hy =>
      obtain ⟨z, c, hc, hx⟩ := hstart.exists_lineEnd
      have happend (w : List Char) : '\n' :: (x ++ w) = z ++ c :: w := by
        rw [← List.cons_append, hx, List.append_assoc]
        rfl
      rw [happend] at hs hy ⊢
      rw [happend]
      have hquotes : ¬ InQuotes (z ++ c :: y) (c :: y) := by
        rintro ⟨d, v, hsd, hd, e | e⟩
        · exact hy ⟨d, v, hsd, hd, .inr (List.cons.inj e).2⟩
        · obtain ⟨rfl, -⟩ := List.cons.inj e
          exact absurd hc (by decide)
      obtain ⟨hsy, hyend⟩ := hs.to_break (by rintro _ ⟨⟩; exact hc) hquotes
      have hline (w : List Char) : AtLineEnd (c :: w) := atLineEnd_of_isLineEnd hc
      have hlines := hyend.like_self.linesLike fun hname => hname.not_atEnd (.inl (hline y))
      refine hsy.replace ((hlines.congr rfl ?_).like (hline y) (hline _))
      rw [afterLines_lineEnd hc, afterLines_lineEnd hc,
        hg.afterLines_append (.inl (he.atLineEnd y)), he.afterLines_append]
  | lineBreak x e e' y he he' hy =>
      obtain ⟨hsy, hyend⟩ := Scans.to_break (x := '\n' :: x) hs (he.atBreak y) hy
      have hlines := hyend.like_self.linesLike fun hname => hname.not_atEnd (.inl (he.atLineEnd y))
      refine Scans.replace (x := '\n' :: x) hsy
        ((hlines.congr rfl ?_).like (he.atLineEnd y) (he'.atLineEnd y))
      rw [he.afterLines_append, he'.afterLines_append]

/-- **An edit leaves the sections that are read as they are.** -/
theorem Edit.reads (h : Edit t t') (hr : Reads (afterLines t) xs) : Reads (afterLines t') xs := by
  have hend : AtEnd ('\n' :: t) := .inl (atLineEnd_of_isLineEnd rfl)
  rw [← afterLines_lineEnd (c := '\n') rfl] at hr ⊢
  exact (h.like (hr.scans hend .refl)).reads hend hr

/-! ### White space at the ends -/

/-- The first character that is not white space comes after blanks and line breaks. -/
inductive Opened : List Char → Prop
  | start {c : Char} {u : List Char} : isWhiteSpace c = false → Opened (c :: u)
  | blank {c : Char} {u : List Char} : c ∈ [' ', '\t', '\n', '\r'] → Opened u → Opened (c :: u)

theorem Opened.exists_eq (h : Opened u) : ∃ w c v, u = w ++ c :: v ∧ (∀ d ∈ w, isWhiteSpace d) ∧
    isWhiteSpace c = false ∧ afterLines u = afterLines (c :: v) := by
  induction h with
  | @start c u hc => exact ⟨[], c, u, rfl, nofun, hc, rfl⟩
  | @blank d u hd _ ih =>
      obtain ⟨w, c, v, rfl, hw, hc, e⟩ := ih
      simp only [List.mem_cons, List.not_mem_nil, or_false] at hd
      refine ⟨d :: w, c, v, rfl, List.forall_mem_cons.2 ⟨?_, hw⟩, hc, ?_⟩
      · rcases hd with rfl | rfl | rfl | rfl <;> rfl
      · rcases hd with rfl | rfl | rfl | rfl <;> exact e

theorem Opened.congr (h : Opened (x ++ y)) (hyz : Opened y → Opened z) : Opened (x ++ z) := by
  induction x with
  | nil => exact hyz h
  | cons c x ih =>
      cases h with
      | start hc => exact .start hc
      | blank hc h => exact .blank hc (ih h)

theorem Opened.trailer (h : Opened y) (hg : Trailer g) : Opened (g ++ y) := by
  induction hg with
  | nil => exact h
  | blank hc _ ih =>
      refine .blank ?_ ih
      rcases hc with rfl | rfl <;> decide
  | comment _ => exact .start rfl

theorem Opened.lineBreak (h : Opened y) (he : IsLineBreak e) : Opened (e ++ y) := by
  cases he with
  | lineFeed | carriageReturn => exact .blank (by decide) h
  | both => exact .blank (by decide) (.blank (by decide) h)

theorem Opened.of_lineBreak (h : Opened (e ++ y)) (he : IsLineBreak e) : Opened y := by
  have hcons {c : Char} {u : List Char} (h : Opened (c :: u)) (hc : isWhiteSpace c) : Opened u := by
    cases h with
    | start hc' => rw [hc] at hc'; cases hc'
    | blank _ h => exact h
  cases he with
  | lineFeed | carriageReturn => exact hcons h rfl
  | both => exact hcons (hcons h rfl) rfl

theorem Closed.of_append (h : Closed (x ++ y)) (hy : y ≠ []) : Closed y := by
  obtain ⟨w, c, e, hc⟩ := h
  obtain ⟨z, d, rfl⟩ := (List.eq_nil_or_concat y).resolve_left hy
  have hd : d = c := by
    have hlast := congrArg List.getLast? e
    simpa [← List.append_assoc] using hlast
  exact ⟨z, d, by simp, hd ▸ hc⟩

/-- A text of white space ends no text that is closed. -/
theorem Closed.ne_append (h : Closed u) (hy : y ≠ []) (hwhite : ∀ c ∈ y, isWhiteSpace c) :
    u ≠ x ++ y := by
  rintro rfl
  obtain ⟨w, c, rfl, hc⟩ := h.of_append hy
  rw [hwhite c (by simp)] at hc
  cases hc

/-- Without the white space at its ends, a closed text with a trailer is left with some trailer. -/
theorem exists_trim_append (hc : isWhiteSpace c = false) (hv : Closed (c :: v)) (hg : Trailer g) :
    ∃ g', Trailer g' ∧ trim (c :: v ++ g) = c :: v ++ g' := by
  obtain ⟨w, w', hw, hw', e⟩ := exists_eq_trim (c :: v ++ g)
  have hnil : w = [] := by
    cases w with
    | nil => rfl
    | cons d w =>
        obtain ⟨rfl, -⟩ := List.cons.inj e
        rw [hw c List.mem_cons_self] at hc
        cases hc
  rw [hnil, List.nil_append] at e
  rcases List.append_eq_append_iff.1 e with ⟨a, ha, hga⟩ | ⟨a, ha, hwa⟩
  · rw [hga] at hg
    exact ⟨a, hg.of_append, ha⟩
  · by_cases hne : a = []
    · refine ⟨[], .nil, ?_⟩
      rw [hne, List.append_nil] at ha
      rw [← ha, List.append_nil]
    · refine absurd ha (hv.ne_append hne fun d hd => hw' d ?_)
      rw [hwa]
      exact List.mem_append_left g hd

/-! ### Many edits -/

/-- The sections are read from the text, up to a trailer at its end. -/
def Edited (xs : List Section) (u : List Char) : Prop :=
  ∃ v g, u = v ++ g ∧ Trailer g ∧ Closed v ∧ Opened v ∧ Reads (afterLines v) xs

theorem edited_of_trim (ht : trim t = t) (hne : t ≠ []) (hr : Reads (afterLines t) xs) :
    Edited xs t := by
  obtain ⟨hhead, hlast⟩ := trim_eq_self_iff.1 ht
  refine ⟨t, [], (List.append_nil t).symm, .nil, ?_, ?_, hr⟩
  · obtain ⟨x, c, rfl⟩ := (List.eq_nil_or_concat t).resolve_left hne
    exact ⟨x, c, List.concat_eq_append, hlast c (by simp)⟩
  · obtain ⟨c, u, rfl⟩ := List.exists_cons_of_ne_nil hne
    exact .start (hhead c rfl)

/-- No line starts in the trailer, or right in front of it. -/
theorem not_atLineStart (hv : Closed v) (hg : Trailer g) : ¬ AtLineStart (v ++ g) := by
  intro hstart
  rcases List.eq_nil_or_concat g with rfl | ⟨g, c, rfl⟩
  · obtain ⟨x, c, rfl, hc⟩ := hv
    rcases isLineEnd_cases (hstart c (by simp)) with rfl | rfl <;> cases hc
  · exact hg.not_isLineEnd c (by simp) (hstart c (by simp [← List.append_assoc]))

/-- What comes after the start of a line is more than the trailer. -/
theorem AtLineStart.exists_split (hx : AtLineStart x) (hv : Closed v) (hg : Trailer g)
    (h : v ++ g = x ++ y) : ∃ z, z ≠ [] ∧ v = x ++ z ∧ y = z ++ g := by
  rcases List.append_eq_append_iff.1 h with ⟨a, rfl, rfl⟩ | ⟨a, rfl, rfl⟩
  · exact absurd hx (not_atLineStart hv hg.of_append)
  · refine ⟨a, ?_, rfl, rfl⟩
    rintro rfl
    rw [List.append_nil] at hv
    exact not_atLineStart hv .nil (by rwa [List.append_nil])

theorem IsLineBreak.atLineStart (h : IsLineBreak e) (x : List Char) : AtLineStart (x ++ e) := by
  cases h <;> simp [AtLineStart, isLineEnd]

/-- An edit in front of the trailer leaves it where it is. -/
theorem edited_of_edit {a b : List Char} (hz : z ≠ []) (hg : Trailer g)
    (hclosed : Closed (x ++ (a ++ z))) (hopened : Opened (x ++ (a ++ z)))
    (hr : Reads (afterLines (x ++ (a ++ z))) xs) (he : Edit (x ++ (a ++ z)) (x ++ (b ++ z)))
    (hab : Opened (a ++ z) → Opened (b ++ z)) : Edited xs (x ++ (b ++ (z ++ g))) := by
  have hz' : Closed z := (hclosed.of_append (by simp [hz])).of_append hz
  exact ⟨x ++ (b ++ z), g, by simp, hg, (hz'.append b).append x, hopened.congr hab, he.reads hr⟩

/-- **An edit keeps the sections and the trailer apart.** -/
theorem Edited.edit (h : Edited xs u) (he : Edit u u') : Edited xs u' := by
  obtain ⟨v, g, rfl, hg, hclosed, hopened, hr⟩ := h
  -- A quote around the rest of the sections would be one around what comes after it as well.
  have hquotes {x z : List Char} (hv : v = x ++ z) (h : ¬ InQuotes ('\n' :: (v ++ g)) (z ++ g)) :
      ¬ InQuotes ('\n' :: (x ++ z)) z := fun hz => h (hv ▸ hz.append_trailer hg)
  generalize hu : v ++ g = u at he
  cases he with
  | trailer x g' y hg' hbreak hy =>
      cases y with
      | nil =>
          rw [List.append_nil] at hu
          exact ⟨v, g ++ g', by simp [← hu], hg.append hg', hclosed, hopened, hr⟩
      | cons c y =>
          have hstart : AtLineStart (x ++ [c]) := by simpa [AtLineStart] using hbreak c rfl
          obtain ⟨z, -, hv, rfl⟩ := hstart.exists_split hclosed hg (by simpa using hu)
          have hv : v = x ++ (c :: z) := by simpa using hv
          rw [← hu] at hy
          have hedit := Edit.trailer x g' (c :: z) hg' hbreak (hquotes hv hy)
          rw [hv] at hclosed hopened hr
          exact edited_of_edit (a := []) (List.cons_ne_nil c z) hg hclosed hopened hr hedit
            fun h => h.trailer hg'
  | line x g' e y hg' he hstart hy =>
      obtain ⟨z, hz, hv, rfl⟩ := hstart.exists_split hclosed hg hu
      rw [← hu] at hy
      have hedit := Edit.line x g' e z hg' he hstart (hquotes hv hy)
      rw [← List.append_assoc g'] at hedit ⊢
      rw [hv] at hclosed hopened hr
      refine edited_of_edit (a := []) hz hg hclosed hopened hr hedit fun h => ?_
      rw [List.append_assoc]
      exact (h.lineBreak he).trailer hg'
  | lineBreak x e e' y he he' hy =>
      rw [← List.append_assoc] at hu
      obtain ⟨z, hz, hv, rfl⟩ := (he.atLineStart x).exists_split hclosed hg hu
      rw [List.append_assoc] at hv
      have hy : ¬ InQuotes ('\n' :: (v ++ g)) (e ++ z ++ g) := by
        rw [hu]
        simpa using hy
      have hedit := Edit.lineBreak x e e' z he he' (hquotes hv hy)
      rw [hv] at hclosed hopened hr
      exact edited_of_edit hz hg hclosed hopened hr hedit fun h => (h.of_lineBreak he).lineBreak he'

theorem Edited.edits (h : Edited xs u) (hu : Relation.ReflTransGen Edit u u') : Edited xs u' := by
  induction hu with
  | refl => exact h
  | tail _ he ih => exact ih.edit he

/-- The white space at the ends of the text is none of the sections. -/
theorem Edited.reads_trim (h : Edited xs u) : Reads (afterLines (trim u)) xs := by
  obtain ⟨v, g, rfl, hg, hclosed, hopened, hr⟩ := h
  obtain ⟨w, c, y, rfl, hw, hc, e⟩ := hopened.exists_eq
  obtain ⟨g', hg', ht⟩ := exists_trim_append hc (hclosed.of_append (List.cons_ne_nil c y)) hg
  rw [List.append_assoc, trim_append hw, ht]
  rw [e, ← List.append_nil (c :: y)] at hr
  have hedit := Edit.trailer (c :: y) g' [] hg' atBreak_nil (not_inQuotes (by decide) (by decide))
  have hreads := hedit.reads hr
  rwa [List.append_nil] at hreads

end Notation

namespace Program

open Notation

variable {t t' : List Char} {p : Program}

/-- **Comments, empty lines and the kinds of line breaks say nothing.**  An accepted text without
white space at its ends gives the same program after any number of edits. -/
theorem parse_edited (ht : trim t = t) (h : parse t = .ok p)
    (hedits : Relation.ReflTransGen Edit t t') : parse t' = .ok p := by
  obtain ⟨hdescribe, hcheck⟩ := parse_eq_ok_iff.1 h
  obtain ⟨xs, d, hxs, hd, hp⟩ := describe_eq_ok_iff.1 hdescribe
  have hne : t ≠ [] := by
    rintro rfl
    cases h
  rw [ht] at hxs
  have hreads := ((edited_of_trim ht hne hxs).edits hedits).reads_trim
  exact parse_eq_ok_iff.2 ⟨describe_eq_ok_iff.2 ⟨xs, d, hreads, hd, hp⟩, hcheck⟩

end Program

/-- A text with a line feed on the tape. -/
def lineFeedText : List Char := "name: n\ntape: '\n'a\nrules:\n  q0:".toList

/-- The program of `lineFeedText`. -/
def lineFeed : Program where
  name := "n"
  initial := "q0"
  finals := .ofList ["q0"]
  blank := '_'
  tapes := [['\n', 'a']]
  heads := [0]
  tapeCount := 1
  rules := []
  maxSteps := 1000
  detectLoops := true

namespace Program

open Notation Grammar

/-- A line is put in, another one is ended with a carriage return, and the text with a comment. -/
theorem parse_edited_lineFeed : parse lineFeedText = .ok lineFeed ∧
    parse "name: n\n # c\r\ntape: '\n'a\rrules:\n  q0:\t#\u00a0".toList =
      .ok lineFeed := by
  have hparse : parse lineFeedText = .ok lineFeed := by decide +kernel
  have hline : Edit lineFeedText "name: n\n # c\r\ntape: '\n'a\nrules:\n  q0:".toList :=
    (Edit.line "name: n\n".toList [' ', '#', ' ', 'c'] _ "tape: '\n'a\nrules:\n  q0:".toList
      (.blank (.inl rfl) (.comment (by simp [isLineEnd]))) .both (by simp [AtLineStart, isLineEnd])
      (not_inQuotes (by decide +kernel) (by decide +kernel))).of_eq (by decide +kernel)
      (by decide +kernel)
  have hbreak : Edit "name: n\n # c\r\ntape: '\n'a\nrules:\n  q0:".toList
      "name: n\n # c\r\ntape: '\n'a\rrules:\n  q0:".toList :=
    (Edit.lineBreak "name: n\n # c\r\ntape: '\n'a".toList _ _ "rules:\n  q0:".toList
      .lineFeed .carriageReturn (not_inQuotes (by decide +kernel) (by decide +kernel))).of_eq
      (by decide +kernel) (by decide +kernel)
  have htrailer : Edit "name: n\n # c\r\ntape: '\n'a\rrules:\n  q0:".toList
      "name: n\n # c\r\ntape: '\n'a\rrules:\n  q0:\t#\u00a0".toList :=
    (Edit.trailer "name: n\n # c\r\ntape: '\n'a\rrules:\n  q0:".toList ['\t', '#', '\u00a0'] []
      (.blank (.inr rfl) (.comment (by simp [isLineEnd]))) atBreak_nil
      (not_inQuotes (by decide) (by decide))).of_eq (by decide +kernel) (by decide +kernel)
  exact ⟨hparse, parse_edited (by decide +kernel) hparse
    (((Relation.ReflTransGen.single hline).tail hbreak).tail htrailer)⟩

end Program

end TapeMachine
