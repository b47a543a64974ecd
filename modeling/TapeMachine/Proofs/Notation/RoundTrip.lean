import TapeMachine.Notation
import TapeMachine.Proofs.Notation.Drafts
import TapeMachine.Proofs.Notation.Writing

/-!
# Notation — Reading back

Every program that can be written can be read back: it has a text, and from each of its texts
`Program.parse` gets the program (`Program.reads_back`).

What is read is the text without the white space at its ends.  That this takes nothing from the last
section is because no section ends with white space (`SectionText.closed`).
-/

namespace TapeMachine

namespace Notation

variable {α : Type} {p : Program} {t u v : List Char}

/-! ### Ends of texts -/

/-- A text with nothing white at its end. -/
def Closed (t : List Char) : Prop := ∃ x c, t = x ++ [c] ∧ isWhiteSpace c = false

theorem Closed.append (h : Closed t) (u : List Char) : Closed (u ++ t) := by
  obtain ⟨x, c, rfl, hc⟩ := h
  exact ⟨u ++ x, c, (List.append_assoc ..).symm, hc⟩

theorem closed_of_forall (ht : t ≠ []) (hall : ∀ c ∈ t, isWhiteSpace c = false) : Closed t :=
  ⟨t.dropLast, t.getLast ht, (List.dropLast_append_getLast ht).symm, hall _ (List.getLast_mem ht)⟩

theorem closed_led {lead : List Char → Prop} {item : α → List Char → Prop} {as : List α}
    (h : Led lead item as u) (hitem : ∀ a ∈ as, ∀ t, item a t → Closed t) (hv : Closed v) :
    Closed (v ++ u) := by
  induction h generalizing v with
  | nil => simpa using hv
  | @cons a g t as u _ ht _ ih =>
      obtain ⟨ha, hitem⟩ := List.forall_mem_cons.1 hitem
      have hv : Closed (v ++ (g ++ t)) := ((ha t ht).append g).append v
      simpa using ih hitem hv

theorem closed_separated {between : List Char → Prop} {item : α → List Char → Prop} {as : List α}
    (h : Separated between item as u) (hitem : ∀ a ∈ as, ∀ t, item a t → Closed t) : Closed u := by
  cases h with
  | cons ht hu =>
      obtain ⟨ha, hitem⟩ := List.forall_mem_cons.1 hitem
      exact closed_led hu hitem (ha _ ht)

theorem Headed.closed {s : List Char} (h : Headed s t u) (hu : Closed u) : Closed t := by
  obtain ⟨g, -, rfl⟩ := h
  exact ((hu.append [':']).append g).append s

theorem Headed.closed_nil {s : List Char} (h : Headed s t []) : Closed t := by
  obtain ⟨g, -, rfl⟩ := h
  exact ⟨s ++ g, ':', by simp, rfl⟩

theorem Headed.closed_led {lead : List Char → Prop} {item : α → List Char → Prop} {as : List α}
    {s : List Char} (h : Headed s t u) (hu : Led lead item as u)
    (hitem : ∀ a ∈ as, ∀ t, item a t → Closed t) : Closed t := by
  obtain ⟨g, hg, rfl⟩ := h
  have hcolon : Closed (s ++ (g ++ [':'])) := Headed.closed_nil ⟨g, hg, rfl⟩
  simpa using Notation.closed_led hu hitem hcolon

theorem Indented.closed (h : Indented u v) (hv : Closed v) : Closed u := by
  obtain ⟨g, -, rfl⟩ := h
  exact hv.append g

theorem Bracketed.closed {content : List Char → Prop} (h : Bracketed content t) : Closed t := by
  obtain ⟨g, x, g', -, -, -, rfl⟩ := h
  exact ⟨'[' :: (g ++ (x ++ g')), ']', by simp, rfl⟩

theorem SymbolText.closed {s : Symbol} (h : SymbolText s t) : Closed t := by
  cases h with
  | quoted => exact ⟨['\'', s], '\'', rfl, rfl⟩
  | plain _ hs => exact ⟨[], s, rfl, hs⟩

theorem StateText.closed {s : State} (h : StateText s t) : Closed t :=
  closed_of_forall h.1.1 fun c hc => (h.1.2 c hc).isWhiteSpace_eq

theorem CountText.closed {n : Nat} (h : CountText n t) : Closed t := by
  refine closed_of_forall h.1 fun c hc => IsStateChar.isWhiteSpace_eq (.inl ?_)
  simp [Char.isAlphanum, h.2.1 c hc]

theorem PositionText.closed {i : Int} (h : PositionText i t) : Closed t := by
  cases h with
  | positive h => exact h.closed
  | negative h => exact h.closed.append ['-']

theorem RuleText.closed {blank : Symbol} {r : Rule} (h : RuleText blank r t) : Closed t := by
  rcases h with ⟨-, -, -, -, -, hn⟩ | ⟨-, -, -, -, -, hn⟩ <;>
    exact ((((hn.closed.append _).append _).append _).append _).append _

theorem BlockText.closed {blank : Symbol} {b : State × List Rule} (h : BlockText blank b t) :
    Closed t := by
  obtain ⟨u, ht, hu⟩ := h
  exact ht.closed_led hu fun _ _ _ h => h.closed

theorem SectionText.closed {k : Kind} (hp : p.Notable) (h : SectionText p k t) : Closed t := by
  have hmarked : ∀ s t, MarkedText p.blank s t → Closed t := by
    rintro s t (h | ⟨-, h⟩) <;> exact h.closed
  cases h with
  | name h hu =>
      -- Only of the name it is an assumption, and not the notation, that it does not end white.
      have hlast := (trim_eq_self_iff.1 hp.trim_name).2
      refine h.closed (hu.closed ⟨_, _, (List.dropLast_append_getLast hp.name_ne).symm, ?_⟩)
      exact hlast _ (List.getLast?_eq_some_getLast hp.name_ne)
  | blank h hu hs => exact h.closed (hu.closed hs.closed)
  | tape h hu _ hss => exact h.closed (hu.closed (closed_separated hss fun s _ => hmarked s))
  | emptyTape h => exact h.closed_nil
  | tapes h hu => exact h.closed_led hu fun _ _ _ h => h.closed
  | head h hu _ hx => exact h.closed (hu.closed hx.closed)
  | heads h hu hx => exact h.closed (hu.closed hx.closed)
  | finals h hu _ hx => exact h.closed (hu.closed hx.closed)
  | maxSteps h hu hx => exact h.closed (hu.closed hx.closed)
  | detectLoops h hu =>
      refine h.closed (hu.closed ?_)
      cases p.detectLoops
      · exact ⟨['f', 'a', 'l', 's'], 'e', rfl, rfl⟩
      · exact ⟨['t', 'r', 'u'], 'e', rfl, rfl⟩
  | rules h _ hu => exact h.closed_led hu fun _ _ _ h => h.closed

/-- Trimming a text of a program leaves its sections. -/
theorem trim_sections {ks : List Kind} {w w' : List Char} (hp : p.Notable)
    (hu : Separated LineEnd (SectionText p) ks u) (hw : ∀ c ∈ w, isWhiteSpace c)
    (hw' : ∀ c ∈ w', isWhiteSpace c) : trim (w ++ (u ++ w')) = u := by
  have hclosed : Closed u := closed_separated hu fun k _ t ht => ht.closed hp
  rw [trim_append_append hw hw', trim_eq_self_iff]
  constructor
  · cases hu with
    | @cons k t ks u ht _ =>
        obtain ⟨c, v, hc, e⟩ := (ht.isSectionHeading (v := u)).isHeading.exists_cons
        rw [e]
        rintro _ ⟨⟩
        exact hc.isWhiteSpace_eq
  · obtain ⟨x, c, rfl, hc⟩ := hclosed
    rw [List.getLast?_append]
    rintro _ ⟨⟩
    exact hc

end Notation

namespace Program

open Notation

variable {p : Program}

theorem parse_eq_ok {t : List Char} (hp : p.Notable) (hwf : p.WellFormed) (ht : ProgramText p t) :
    parse t = .ok p := by
  obtain ⟨ks, w, u, w', hks, hu, hw, hw', rfl⟩ := ht
  have htapes : p.tapes ≠ [] := by
    intro h
    have hlength := hwf.tapes_length
    rw [h] at hlength
    exact hwf.tapeCount_pos.ne hlength
  obtain ⟨doc, hread, hdoc⟩ := exists_read hp htapes hu
  obtain ⟨d, hdraft, hd⟩ := exists_draft hp hwf hks hdoc
  have hdescribe : describe u = .ok p := by
    rw [describe, hread]
    simp only [hdraft, Draft.program_eq_ok hd hp hwf]
  rw [parse, trim_sections hp hu hw hw', hdescribe]
  change (p.check.mapError Error.structural >>= fun _ => .ok p) = .ok p
  rw [check_eq_ok_iff.2 hwf]
  rfl

/-- **The notation reads back what is written in it.**  A notable program without defects has a
text, and each of its texts, whatever the order of the sections and however symbols, rules and line
breaks are written, is read as the program. -/
theorem reads_back (p : Program) (hcheck : p.check = .ok ()) (hp : p.Notable) :
    (∃ t, ProgramText p t) ∧ ∀ t, ProgramText p t → parse t = .ok p := by
  have hwf : p.WellFormed := check_eq_ok_iff.1 hcheck
  exact ⟨exists_programText hp hwf, fun t ht => parse_eq_ok hp hwf ht⟩

end Program

/-- Signs of the notation on its tapes, a blank that is none of its marks, and a state without rules
between others. -/
def signs : Program where
  name := "Signs: of the notation"
  initial := "tapes2"
  finals := .ofList ["name", "q"]
  blank := ' '
  tapes := [['#', ',', '['], []]
  heads := [0, -3]
  tapeCount := 2
  rules := [
    ⟨"tapes2", ['#', ' '], ['\n', ']'], [.right, .stay], "tapes2"⟩,
    ⟨"tapes2", [',', ' '], [',', ' '], [.left, .right], "q"⟩,
    ⟨"q", ['-', '>'], ['>', '-'], [.stay, .stay], "name"⟩]
  maxSteps := 10
  detectLoops := false

theorem signs_notable : signs.Notable where
  name_ne := by decide
  trim_name := by decide
  name_line := by simp [signs]
  isStateName := by
    change ∀ s ∈ signs.states.toList, _
    decide
  initial_not_mem := by decide
  state_not_mem := by decide
  blank_ne := by decide
  ne_quote := by simp [signs, Program.symbols]
  eq_blankMark := by decide
  grouped := by decide
  initial_first := by decide
  heads_range := by decide
  maxSteps_le := by decide

theorem Program.reads_back_signs : signs.check = .ok () ∧ signs.Notable ∧
    (∃ t, Notation.ProgramText signs t) ∧
      ∀ t, Notation.ProgramText signs t → Program.parse t = .ok signs :=
  ⟨rfl, signs_notable, reads_back signs rfl signs_notable⟩

end TapeMachine
