import TapeMachine.Notation.Document
import TapeMachine.Notation.Meaning
import TapeMachine.Proofs.Program.Names
import Mathlib.Tactic

/-!
# Notation — Spelling

How programs are written, told without a reader: relations between the parts of a program and the
texts that stand for them.  `ProgramText p t` says that the text `t` writes the program `p`: one
section for each part, in any order and with line breaks between.  A part may be written in many
ways: blanks and tabs stand around every colon, comma, arrow and bracket, a symbol has quotes or
not, the blank may be written as an underscore, an action on one tape has brackets or not, and what
is written may be left out where it is what was read.

`Program.Notable` says which programs can be written at all.
-/

namespace TapeMachine

namespace Notation

variable {α : Type}

/-! ### Blanks and line breaks -/

/-- Blanks and tabs. -/
def Blanks (g : List Char) : Prop := ∀ c ∈ g, c = ' ' ∨ c = '\t'

/-- A line break or more, with blanks and tabs around. -/
def LineEnd (g : List Char) : Prop :=
  (∀ c ∈ g, c ∈ [' ', '\t', '\n', '\r']) ∧ ∃ c ∈ g, c = '\n' ∨ c = '\r'

/-- The text `v` with blanks in front. -/
def Indented (u v : List Char) : Prop := ∃ g, Blanks g ∧ u = g ++ v

theorem Indented.refl (u : List Char) : Indented u u := ⟨[], nofun, rfl⟩

/-- A word, a colon and what is left. -/
def Headed (word u v : List Char) : Prop := ∃ g, Blanks g ∧ u = word ++ (g ++ ':' :: v)

/-- A comma between two items. -/
def Comma (g : List Char) : Prop := ∃ u v, Blanks u ∧ Blanks v ∧ g = u ++ ',' :: v

/-! ### Lists -/

/-- Items, each of them with something in front. -/
inductive Led (lead : List Char → Prop) (item : α → List Char → Prop) : List α → List Char → Prop
  | nil : Led lead item [] []
  | cons {a g t as u} :
      lead g → item a t → Led lead item as u → Led lead item (a :: as) (g ++ (t ++ u))

/-- Items, one at least, with something between. -/
inductive Separated (between : List Char → Prop) (item : α → List Char → Prop) :
    List α → List Char → Prop
  | cons {a t as u} : item a t → Led between item as u → Separated between item (a :: as) (t ++ u)

/-- A construct in square brackets. -/
def Bracketed (content : List Char → Prop) (t : List Char) : Prop :=
  ∃ g u g', Blanks g ∧ content u ∧ Blanks g' ∧ t = '[' :: (g ++ (u ++ (g' ++ [']'])))

/-- Items in square brackets, with commas between. -/
def ListText (item : α → List Char → Prop) (as : List α) : List Char → Prop :=
  Bracketed (Separated Comma item as)

/-! ### Symbols, states and numbers -/

/-- A symbol: any but the quote between quotes, and by itself if it is neither white nor a sign of
the notation. -/
inductive SymbolText (s : Symbol) : List Char → Prop
  | quoted : s ≠ '\'' → SymbolText s ['\'', s, '\'']
  | plain : s ∉ [',', '[', ']', '\'', '#'] → isWhiteSpace s = false → SymbolText s [s]

/-- A symbol on a tape or in a rule, where an underscore stands for the blank. -/
def MarkedText (blank s : Symbol) (t : List Char) : Prop :=
  SymbolText s t ∨ s = blank ∧ SymbolText blankMark t

/-- A character of the name of a state. -/
def IsStateChar (c : Char) : Prop := c.isAlphanum ∨ c = '_'

/-- The name of a state. -/
def IsStateName (w : List Char) : Prop := w ≠ [] ∧ ∀ c ∈ w, IsStateChar c

/-- The words that start a section. -/
def keywords : List String :=
  ["name", "blank", "tapes", "tape", "heads", "head", "final", "max_steps", "detect_loops", "rules"]

/-- A state is written by its name. -/
def StateText (s : State) (t : List Char) : Prop := IsStateName t ∧ t = s.toList

/-- A count, by decimal digits. -/
def CountText (n : Nat) (t : List Char) : Prop :=
  t ≠ [] ∧ (∀ c ∈ t, c.isDigit) ∧ Nat.ofDigitChars 10 t 0 = n

/-- A position, by decimal digits and maybe a minus. -/
inductive PositionText : Int → List Char → Prop
  | positive {n t} : CountText n t → PositionText n t
  | negative {n t} : CountText n t → PositionText (-n) ('-' :: t)

/-- A move, by its letter or by a sign. -/
inductive MoveText : Move → List Char → Prop
  | left {c} : c ∈ ['L', '<'] → MoveText .left [c]
  | right {c} : c ∈ ['R', '>'] → MoveText .right [c]
  | stay {c} : c ∈ ['N', 'S', '-'] → MoveText .stay [c]

/-! ### Rules -/

/-- What is written, after what is read: an arrow, or nothing if both are the same. -/
inductive ArrowText (item : α → List Char → Prop) (a : α) : α → List Char → Prop
  | kept : ArrowText item a a []
  | written {b g u v} : Blanks g → Indented u v → item b v →
      ArrowText item a b (g ++ '-' :: '>' :: u)

/-- A rule in the block of its state: what is read, what is written, the moves and the next
state. -/
inductive ActionText (word : Word → List Char → Prop) (moves : List Move → List Char → Prop)
    (r : Rule) : List Char → Prop
  | intro {t u g m g' n} : word r.read t → ArrowText word r.read r.write u → Comma g →
      moves r.moves m → Comma g' → StateText r.next n →
      ActionText word moves r (t ++ (u ++ (g ++ (m ++ (g' ++ n)))))

/-- One item by itself. -/
def Alone (item : α → List Char → Prop) (as : List α) (t : List Char) : Prop :=
  ∃ a, as = [a] ∧ item a t

/-- A rule, with brackets around its symbols and moves or, on one tape, without. -/
def RuleText (blank : Symbol) (r : Rule) (t : List Char) : Prop :=
  ActionText (Alone (MarkedText blank)) (Alone MoveText) r t ∨
    ActionText (ListText (MarkedText blank)) (ListText MoveText) r t

/-- A state and its rules, each on a line of its own. -/
def BlockText (blank : Symbol) (b : State × List Rule) (t : List Char) : Prop :=
  ∃ u, Headed b.1.toList t u ∧ Led LineEnd (RuleText blank) b.2 u

/-- Equal states stand together: a state that is not followed by itself does not come again. -/
def Grouped : List State → Prop
  | [] => True
  | s :: ss => (ss.head? = some s ∨ s ∉ ss) ∧ Grouped ss

instance decidableGrouped : (ss : List State) → Decidable (Grouped ss)
  | [] => .isTrue trivial
  | _ :: ss =>
    haveI := decidableGrouped ss
    inferInstanceAs (Decidable (_ ∧ _))

/-- The rules of a program by their states, that of the initial state first.  A state without rules
may be among them. -/
structure Blocks (p : Program) (bs : List (State × List Rule)) : Prop where
  initial : bs.head?.map Prod.fst = some p.initial
  nodup : (bs.map Prod.fst).Nodup
  state_eq : ∀ b ∈ bs, ∀ r ∈ b.2, r.state = b.1
  rules_eq : bs.flatMap Prod.snd = p.rules
  isStateName : ∀ b ∈ bs, IsStateName b.1.toList
  not_mem_keywords : ∀ b ∈ bs, b.1 ∉ keywords

/-! ### Sections and programs -/

/-- What a tape holds, which may be nothing. -/
def ContentText (blank : Symbol) (w : Word) (t : List Char) : Prop :=
  w = [] ∧ t = [] ∨ Separated Comma (MarkedText blank) w t

/-- The section of a kind: its keyword, a colon and a part of the program. -/
inductive SectionText (p : Program) : Kind → List Char → Prop
  | name {t u} : Headed "name".toList t u → Indented u p.name.toList → SectionText p .name t
  | blank {t u v} : Headed "blank".toList t u → Indented u v → SymbolText p.blank v →
      SectionText p .blank t
  | tape {w t u v} : Headed "tape".toList t u → Indented u v → p.tapes = [w] →
      Separated Comma (MarkedText p.blank) w v → SectionText p .tape t
  | emptyTape {t} : Headed "tape".toList t [] → p.tapes = [[]] → SectionText p .tape t
  | tapes {t u} : Headed "tapes".toList t u →
      Led LineEnd (fun w => Bracketed (ContentText p.blank w)) p.tapes u → SectionText p .tapes t
  | head {i t u v} : Headed "head".toList t u → Indented u v → p.heads = [i] → PositionText i v →
      SectionText p .head t
  | heads {t u v} : Headed "heads".toList t u → Indented u v → ListText PositionText p.heads v →
      SectionText p .heads t
  | finals {ss t u v} : Headed "final".toList t u → Indented u v → (∀ s, s ∈ ss ↔ s ∈ p.finals) →
      ListText StateText ss v → SectionText p .finals t
  | maxSteps {t u v} : Headed "max_steps".toList t u → Indented u v → CountText p.maxSteps v →
      SectionText p .maxSteps t
  | detectLoops {t u} : Headed "detect_loops".toList t u →
      Indented u (toString p.detectLoops).toList → SectionText p .detectLoops t
  | rules {bs t u} : Headed "rules".toList t u → Blocks p bs → Led LineEnd (BlockText p.blank) bs u →
      SectionText p .rules t

/-- The kinds of the sections of a program, each part of it once. -/
def IsComplete (kinds : List Kind) : Prop :=
  ∃ k ∈ [Kind.tape, .tapes], ∃ k' ∈ [Kind.head, .heads],
    kinds.Perm [.name, .blank, k, k', .finals, .maxSteps, .detectLoops, .rules]

/-- A text that writes a program: its sections in any order, with line breaks between and white
space around. -/
def ProgramText (p : Program) (t : List Char) : Prop :=
  ∃ kinds w u w', IsComplete kinds ∧ Separated LineEnd (SectionText p) kinds u ∧
    (∀ c ∈ w, isWhiteSpace c) ∧ (∀ c ∈ w', isWhiteSpace c) ∧ t = w ++ (u ++ w')

end Notation

namespace Program

/-- The programs that can be written: no part of them would be taken for a part of the notation. -/
structure Notable (p : Program) : Prop where
  name_ne : p.name.toList ≠ []
  trim_name : trim p.name.toList = p.name.toList
  name_line : ∀ c ∈ p.name.toList, c ∉ ['#', '\n', '\r']
  isStateName : ∀ s ∈ p.states, Notation.IsStateName s.toList
  initial_not_mem : p.initial ∉ Notation.keywords
  state_not_mem : ∀ r ∈ p.rules, r.state ∉ Notation.keywords
  blank_ne : p.blank ≠ '\''
  ne_quote : ∀ s ∈ p.symbols, s ≠ '\''
  /-- An underscore is the blank. -/
  eq_blankMark : Notation.blankMark ∈ p.symbols → p.blank = Notation.blankMark
  /-- The rules of a state stand together. -/
  grouped : Notation.Grouped (p.rules.map Rule.state)
  /-- The rules of the initial state come first. -/
  initial_first : ∀ r ∈ p.rules, r.state = p.initial →
    p.rules.head?.map Rule.state = some p.initial
  /-- The heads stand at positions that there are. -/
  heads_range : ∀ i ∈ p.heads, leastPosition ≤ i ∧ i ≤ greatestPosition
  /-- The budget is a count that there is. -/
  maxSteps_le : p.maxSteps ≤ greatestCount

end Program

end TapeMachine
