import TapeMachine.Proofs.Notation.Accepted
import TapeMachine.Proofs.Notation.Layout
import TapeMachine.Proofs.Notation.Merging

/-!
# Notation — Order

The sections of a text may come in any order: a text made of the same texts of sections as one that
is accepted gives the same program (`Program.parse_eq_of_perm`).

What has to be made of the sections is the text without the white space at its ends.  White space of
other kinds than blanks and line breaks is that of symbols too, and taken from the last section it
changes what that section says (`Program.parse_ne_of_perm`).
-/

namespace TapeMachine

namespace Notation

variable {t t' u : List Char} {ss ss' : List (List Char)} {xs ys : List Section} {p : Program}

/-- What is read is read once. -/
theorem Reads.unique (h : Reads (afterLines t) xs) (h' : Reads (afterLines t) ys) : xs = ys := by
  obtain ⟨doc, hdoc, rfl⟩ := read_iff.2 h
  obtain ⟨doc', hdoc', rfl⟩ := read_iff.2 h'
  rw [hdoc] at hdoc'
  cases hdoc'
  rfl

/-- A text is read section by section, as if a line break stood in front. -/
theorem MadeOf.reads_text (h : MadeOf ss ('\n' :: t)) (hxs : List.Forall₂ Spells ss xs) :
    Reads (afterLines t) xs := by
  have hreads := h.reads hxs
  rwa [afterLines_lineEnd rfl] at hreads

/-- What a text describes does not depend on the order of its sections. -/
theorem describe_eq_of_perm (h : describe t = .ok p) (ht : MadeOf ss ('\n' :: t))
    (hss : ss.Perm ss') (ht' : MadeOf ss' ('\n' :: t')) : describe t' = .ok p := by
  obtain ⟨xs, d, hxs, hd, hp⟩ := describe_eq_ok_iff.1 h
  obtain ⟨ys, hys⟩ := ht.exists_spells
  obtain rfl := hxs.unique (ht.reads_text hys)
  obtain ⟨zs, hzs, hperm⟩ := List.perm_comp_forall₂ hss.symm hys
  obtain ⟨d', hd', hp'⟩ := exists_ofSections_of_perm hperm.symm hd
  exact describe_eq_ok_iff.2 ⟨zs, d', ht'.reads_text hzs, hd', hp'.trans hp⟩

/-- What is described is made of sections. -/
theorem exists_madeOf_of_describe (h : describe t = .ok p) : ∃ ss, MadeOf ss ('\n' :: t) := by
  obtain ⟨xs, -, hxs, -, -⟩ := describe_eq_ok_iff.1 h
  rw [← afterLines_lineEnd (c := '\n') rfl] at hxs
  exact hxs.exists_madeOf (.inl (atLineEnd_of_isLineEnd rfl))

end Notation

namespace Program

open Notation

variable {t : List Char} {p : Program}

theorem parse_eq_ok_iff : parse t = .ok p ↔ describe (trim t) = .ok p ∧ p.check = .ok () := by
  constructor
  · exact describe_of_parse
  · rintro ⟨h, hcheck⟩
    rw [parse, h]
    change (p.check.mapError Error.structural >>= fun _ => pure p) = _
    rw [hcheck]
    rfl

/-- **The order of the sections does not count.**  An accepted text is made of the texts of
sections, and every text that is made of the same ones, in whatever order and with whatever line
breaks, blanks and comments between, gives the same program. -/
theorem parse_eq_of_perm (h : parse t = .ok p) : (∃ ss, MadeOf ss ('\n' :: trim t)) ∧
    ∀ ss ss' t', MadeOf ss ('\n' :: trim t) → ss.Perm ss' → MadeOf ss' ('\n' :: trim t') →
      parse t' = .ok p := by
  obtain ⟨hdescribe, hcheck⟩ := parse_eq_ok_iff.1 h
  refine ⟨exists_madeOf_of_describe hdescribe, fun ss ss' t' ht hss ht' => ?_⟩
  exact parse_eq_ok_iff.2 ⟨describe_eq_of_perm hdescribe ht hss ht', hcheck⟩

end Program

namespace Notation

/-- The text of a section that gives a name. -/
def nameSection : List Char := "name: n".toList

/-- The text of a section of a tape, the last symbol of which is white space. -/
def spacedSection : List Char := "tape: a\u00a0".toList

/-- The text of a section of rules, with a state that halts. -/
def haltSection : List Char := "rules:\n  q0:".toList

theorem spells_nameSection : Spells nameSection (.name ['n']) := by decide +kernel

theorem spells_spacedSection : Spells spacedSection (.tape ['a', '\u00a0']) := by decide +kernel

theorem spells_haltSection : Spells haltSection (.rules [.bare ⟨"q0", []⟩]) := by decide +kernel

theorem sectionBreak_newline : SectionBreak ['\n'] := ⟨[], '\n', [], rfl, rfl, nofun, rfl⟩

/-- The sections in an order in which the white space is not at the end. -/
def spacedText : List Char := "name: n\ntape: a\u00a0\nrules:\n  q0:".toList

theorem madeOf_spacedText :
    MadeOf [nameSection, spacedSection, haltSection] ('\n' :: trim spacedText) := by
  have htext : '\n' :: trim spacedText = ['\n'] ++ (nameSection ++ (['\n'] ++ (spacedSection ++
      (['\n'] ++ (haltSection ++ []))))) := by decide +kernel
  rw [htext]
  exact .cons sectionBreak_newline spells_nameSection <|
    .cons sectionBreak_newline spells_spacedSection <|
    .cons sectionBreak_newline spells_haltSection (.nil rfl)

end Notation

/-- The program of `spacedText`. -/
def spaced : Program where
  name := "n"
  initial := "q0"
  finals := .ofList ["q0"]
  blank := '_'
  tapes := [['a', '\u00a0']]
  heads := [0]
  tapeCount := 1
  rules := []
  maxSteps := 1000
  detectLoops := true

namespace Program

open Notation

/-- The same sections after a comment and with an empty line between. -/
theorem parse_eq_of_perm_spaced :
    parse "# c\n tape: a\u00a0\r\n\n\trules:\n  q0:\rname: n".toList = .ok spaced := by
  have hparse : parse spacedText = .ok spaced := by decide +kernel
  refine (parse_eq_of_perm hparse).2 _ [spacedSection, haltSection, nameSection] _
    madeOf_spacedText (by decide +kernel) ?_
  have htext : '\n' :: trim "# c\n tape: a\u00a0\r\n\n\trules:\n  q0:\rname: n".toList =
      ("\n# c".toList ++ '\n' :: [' ']) ++ (spacedSection ++ (("\r\n".toList ++ '\n' :: ['\t']) ++
        (haltSection ++ (['\r'] ++ (nameSection ++ []))))) := by decide +kernel
  rw [htext]
  refine .cons ⟨_, '\n', [' '], by decide +kernel, rfl, by simp [Blanks], rfl⟩ spells_spacedSection <|
    .cons ⟨_, '\n', ['\t'], by decide +kernel, rfl, by simp [Blanks], rfl⟩ spells_haltSection <|
    .cons ⟨[], '\r', [], rfl, rfl, nofun, rfl⟩ spells_nameSection (.nil rfl)

/-- The sections of `spacedText` in an order in which the white space is at the end. -/
def spacedLastText : List Char := "name: n\nrules:\n  q0:\ntape: a\u00a0".toList

/-- The white space at the end of a text is taken from the last section, though it is a symbol
there: of two texts made of the same sections one is read otherwise than the other. -/
theorem parse_ne_of_perm : parse spacedText = .ok spaced ∧
    MadeOf [nameSection, spacedSection, haltSection] ('\n' :: spacedText) ∧
    [nameSection, spacedSection, haltSection].Perm [nameSection, haltSection, spacedSection] ∧
    MadeOf [nameSection, haltSection, spacedSection] ('\n' :: spacedLastText) ∧
    parse spacedLastText = .ok { spaced with tapes := [['a']] } ∧
    parse spacedLastText ≠ parse spacedText := by
  have htrim : trim spacedText = spacedText := by decide +kernel
  have htext : '\n' :: spacedLastText = ['\n'] ++ (nameSection ++ (['\n'] ++ (haltSection ++
      (['\n'] ++ (spacedSection ++ []))))) := by decide +kernel
  refine ⟨by decide +kernel, ?_, by decide +kernel, ?_, by decide +kernel, by decide +kernel⟩
  · rw [← htrim]
    exact madeOf_spacedText
  · rw [htext]
    exact .cons sectionBreak_newline spells_nameSection <|
      .cons sectionBreak_newline spells_haltSection <|
      .cons sectionBreak_newline spells_spacedSection (.nil rfl)

end Program

end TapeMachine
