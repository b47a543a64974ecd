import TapeMachine.Notation
import TapeMachine.Proofs.Notation.Faults
import TapeMachine.Proofs.Notation.Places

/-!
# Notation — Verdict

What becomes of a text that matches the grammar (`Program.parse_of_read`).  The first fault in the
order of the document is reported at its place; without a fault, the first thing that the document
lacks; and a document that lacks nothing describes one program, of which the check has the last
word.
-/

namespace TapeMachine

namespace Notation

variable {d : Draft} {doc : Document} {p q : Program} {m : Missing}

/-- The blocks of rules, in the order of the text. -/
def Document.blocks (doc : Document) : List (Placed Block) := (doc.tells Section.blocks?).getD []

/-- The states of the blocks without actions. -/
def Document.idleStates (doc : Document) : List State :=
  (doc.blocks.filter (·.value.actions.isEmpty)).map (·.value.state)

/-- What is the first thing that the document lacks. -/
inductive Document.Lacks (doc : Document) : Missing → Prop
  | name : .name ∉ doc.parts → doc.Lacks .name
  | tapes : .name ∈ doc.parts → .tapes ∉ doc.parts → doc.Lacks .tapes
  | rules : .name ∈ doc.parts → .tapes ∈ doc.parts → .rules ∉ doc.parts → doc.Lacks .rules
  | states : .name ∈ doc.parts → .tapes ∈ doc.parts → .rules ∈ doc.parts → doc.blocks = [] →
      doc.Lacks .states

/-- The rule that an action means in the block of a state: what is not written is what is read, and
the mark of the blank stands for the blank. -/
def Action.meaning (blank : Symbol) (state : State) (a : Action) : Rule where
  state := state
  read := a.read.map (resolve blank)
  write := (a.write.getD a.read).map (resolve blank)
  moves := a.moves
  next := a.next

/-- The program is the one that the sections of the document tell, with defaults for what they do
not tell. -/
structure Document.Describes (doc : Document) (p : Program) : Prop where
  name : doc.tells Section.name? = some p.name.toList
  blank : p.blank = (doc.tells Section.blank?).getD defaultBlank
  tapes : ∃ ws, doc.tells Section.tapes? = some ws ∧ p.tapes = ws.map (·.map (resolve p.blank))
  tapeCount : p.tapeCount = p.tapes.length
  heads : p.heads = (doc.tells Section.heads?).getD (p.tapes.map fun _ => 0)
  initial : doc.blocks.head?.map (·.value.state) = some p.initial
  rules : p.rules = doc.blocks.flatMap fun b =>
    b.value.actions.map (·.value.meaning p.blank b.value.state)
  finals : ∀ s, s ∈ p.finals ↔ s ∈ (doc.tells Section.finals?).getD doc.idleStates
  maxSteps : p.maxSteps = (doc.tells Section.maxSteps?).getD defaultMaxSteps
  detectLoops : p.detectLoops = (doc.tells Section.detectLoops?).getD true

/-- A document describes one program at most. -/
theorem Document.Describes.unique (h : doc.Describes p) (h' : doc.Describes q) : p = q := by
  have hname : p.name = q.name :=
    String.toList_inj.1 (Option.some.inj (h.name.symm.trans h'.name))
  have hinitial : p.initial = q.initial := Option.some.inj (h.initial.symm.trans h'.initial)
  have hblank : p.blank = q.blank := h.blank.trans h'.blank.symm
  have htapes : p.tapes = q.tapes := by
    obtain ⟨ws, hws, e⟩ := h.tapes
    obtain ⟨ws', hws', e'⟩ := h'.tapes
    rw [e, e', hblank, Option.some.inj (hws.symm.trans hws')]
  have hcount : p.tapeCount = q.tapeCount := by rw [h.tapeCount, h'.tapeCount, htapes]
  have hheads : p.heads = q.heads := by rw [h.heads, h'.heads, htapes]
  have hrules : p.rules = q.rules := by rw [h.rules, h'.rules, hblank]
  have hfinals : p.finals = q.finals := StateSet.ext_mem fun s => by rw [h.finals, h'.finals]
  have hmax : p.maxSteps = q.maxSteps := h.maxSteps.trans h'.maxSteps.symm
  have hloops : p.detectLoops = q.detectLoops := h.detectLoops.trans h'.detectLoops.symm
  cases p
  cases q
  simp_all

/-- A count that stands in a text has no sign. -/
theorem counted_of_stands {t : List Char} {s : Section} (h : s.Stands t) : s.Counted := by
  rintro n rfl
  exact Stands.value_nonneg h

/-! ### The program of a draft -/

/-- The rules kept of blocks, resolved, are what the actions mean. -/
theorem rules_of_kept (blank : Symbol) (bs : List (Placed Block)) :
    ((bs.map Block.kept).flatMap Prod.snd).map (resolveRule blank) =
      bs.flatMap fun b => b.value.actions.map (·.value.meaning blank b.value.state) := by
  rw [List.flatMap_map, List.map_flatMap]
  refine congrArg (bs.flatMap ·) (funext fun b => ?_)
  rw [Block.kept, List.map_map]
  rfl

theorem idle_of_kept (bs : List (Placed Block)) :
    ((bs.map Block.kept).filter (·.2.isEmpty)).map Prod.fst =
      (bs.filter (·.value.actions.isEmpty)).map (·.value.state) := by
  rw [List.filter_map, List.map_map]
  refine congrArg₂ _ rfl (List.filter_congr fun b _ => ?_)
  exact List.isEmpty_map

namespace Draft.Keeps

theorem blocks_eq_some (h : d.Keeps doc) {ys : List (State × List Rule)} :
    d.blocks = some ys ↔ .rules ∈ doc.parts ∧ doc.blocks.map Block.kept = ys := by
  rw [h.blocks, ← TellsOf.blocks.isSome_tells, Document.blocks]
  cases doc.tells Section.blocks? <;> simp

/-- What a draft has no program for is what the document lacks. -/
theorem program_eq_error_iff (h : d.Keeps doc) : d.program = .error m ↔ doc.Lacks m := by
  have hname : .name ∈ doc.parts ↔ d.name ≠ none := by
    rw [← TellsOf.name.isSome_tells, ← h.name, Option.isSome_iff_ne_none]
  have htapes : .tapes ∈ doc.parts ↔ d.tapes ≠ none := by
    rw [← TellsOf.tapes.isSome_tells, ← h.tapes, Option.isSome_iff_ne_none]
  have hrules : .rules ∈ doc.parts ↔ d.blocks ≠ none := by
    rw [← TellsOf.blocks.isSome_tells, h.blocks, Option.isSome_iff_ne_none, ne_eq, ne_eq,
      Option.map_eq_none_iff]
  have hstates : .rules ∈ doc.parts ∧ doc.blocks = [] ↔ d.blocks = some [] := by
    rw [h.blocks_eq_some, List.map_eq_nil_iff]
  constructor
  · intro e
    rw [Draft.program] at e
    split at e <;> cases e
    · next hn => exact .name fun hmem => hname.1 hmem hn
    · next ht hn => exact .tapes (hname.2 hn) fun hmem => htapes.1 hmem ht
    · next hr hn ht => exact .rules (hname.2 hn) (htapes.2 ht) fun hmem => hrules.1 hmem hr
    · next hs hn ht =>
        obtain ⟨hr, hs⟩ := hstates.2 hs
        exact .states (hname.2 hn) (htapes.2 ht) hr hs
  · rw [Draft.program]
    rintro (hn | ⟨hn, ht⟩ | ⟨hn, ht, hr⟩ | ⟨hn, ht, hr, hs⟩)
    · rw [not_ne_iff.1 (mt hname.2 hn)]
    · obtain ⟨t, hn⟩ := Option.ne_none_iff_exists'.1 (hname.1 hn)
      rw [hn, not_ne_iff.1 (mt htapes.2 ht)]
    · obtain ⟨t, hn⟩ := Option.ne_none_iff_exists'.1 (hname.1 hn)
      obtain ⟨ws, ht⟩ := Option.ne_none_iff_exists'.1 (htapes.1 ht)
      rw [hn, ht, not_ne_iff.1 (mt hrules.2 hr)]
    · obtain ⟨t, hn⟩ := Option.ne_none_iff_exists'.1 (hname.1 hn)
      obtain ⟨ws, ht⟩ := Option.ne_none_iff_exists'.1 (htapes.1 ht)
      rw [hn, ht, hstates.1 ⟨hr, hs⟩]

/-- The program of a draft is the one that the document describes. -/
theorem describes (h : d.Keeps doc) (hp : d.program = .ok p) : doc.Describes p := by
  rw [Draft.program] at hp
  split at hp
  · cases hp
  · cases hp
  · cases hp
  · cases hp
  · next t ws s rs more hname htapes hblocks =>
      cases hp
      have hkept := (h.blocks_eq_some.1 hblocks).2
      rw [← hkept, idle_of_kept]
      constructor
      case name => rw [← h.name, hname, String.toList_ofList]
      case blank => rw [h.blank]
      case tapes => exact ⟨ws, h.tapes ▸ htapes, rfl⟩
      case tapeCount => exact (List.length_map _).symm
      case heads =>
        rw [h.heads, List.map_map]
        rfl
      case initial =>
        obtain ⟨b, bs, hbs, hb, -⟩ := List.map_eq_cons_iff.1 hkept
        rw [hbs, List.head?_cons, Option.map_some]
        exact congrArg (fun y => some y.1) hb
      case rules => exact rules_of_kept _ _
      case finals => exact fun x => by rw [StateSet.mem_ofList, h.finals]; rfl
      case maxSteps => rw [h.maxSteps]
      case detectLoops => rw [h.detectLoops]

end Draft.Keeps

/-! ### Texts -/

section

variable {t : List Char} {problem : Placed Problem}

/-- The first fault of a document is that of its draft. -/
theorem ofDocument_of_read (h : Document.read t = .ok doc) :
    Draft.ofDocument doc = .error problem ↔ FirstFault Section.Fault doc problem :=
  ofDocument_eq_error_iff fun s hs => counted_of_stands (stands_of_read h s hs).2

theorem describe_of_firstFault (h : Document.read t = .ok doc)
    (hfault : FirstFault Section.Fault doc problem) :
    describe t = .error (.unreadable (.ofSpan t problem.span) problem.value) := by
  have hd := (ofDocument_of_read h).2 hfault
  rw [describe, h]
  simp only [hd]

/-- A document without faults has a draft, which keeps what it tells. -/
theorem exists_draft_of_read (h : Document.read t = .ok doc)
    (hnone : ∀ problem, ¬ FirstFault Section.Fault doc problem) :
    ∃ d, Draft.ofDocument doc = .ok d ∧ d.Keeps doc := by
  cases hd : Draft.ofDocument doc with
  | error problem => exact absurd ((ofDocument_of_read h).1 hd) (hnone problem)
  | ok d => exact ⟨d, rfl, keeps_of_ofDocument hd⟩

theorem describe_of_lacks (h : Document.read t = .ok doc)
    (hnone : ∀ problem, ¬ FirstFault Section.Fault doc problem) (hm : doc.Lacks m) :
    describe t = .error (.invalid (.missing m)) := by
  obtain ⟨d, hd, hkeeps⟩ := exists_draft_of_read h hnone
  have hp := hkeeps.program_eq_error_iff.2 hm
  rw [describe, h]
  simp only [hd, hp]

theorem exists_describe (h : Document.read t = .ok doc)
    (hnone : ∀ problem, ¬ FirstFault Section.Fault doc problem) (hall : ∀ m, ¬ doc.Lacks m) :
    ∃ p, describe t = .ok p ∧ doc.Describes p := by
  obtain ⟨d, hd, hkeeps⟩ := exists_draft_of_read h hnone
  cases hp : d.program with
  | error m => exact absurd (hkeeps.program_eq_error_iff.1 hp) (hall m)
  | ok p =>
      refine ⟨p, ?_, hkeeps.describes hp⟩
      rw [describe, h]
      simp only [hd, hp]

end

end Notation

namespace Program

open Notation

variable {text : List Char} {doc : Document} {p : Program}

theorem parse_of_describe_error {e : Error} (h : describe (trim text) = .error e) :
    parse text = .error e := by
  rw [parse, h]
  rfl

/-- The check has the last word. -/
theorem parse_of_describe (h : describe (trim text) = .ok p) :
    (p.check = .ok () → parse text = .ok p) ∧
      ∀ d, p.check = .error d → parse text = .error (.structural d) := by
  rw [parse, h]
  constructor
  · intro hcheck
    simp only [bind, Except.bind, hcheck]
    rfl
  · intro d hcheck
    simp only [bind, Except.bind, hcheck]
    rfl

/-- **The verdict on a text that matches the grammar.**  What an error can point at stands in the
text where it is said to stand.  The first fault of a section, in the order of the document, is
reported there, by the lines and columns where it starts and ends.  Without one, what the document
lacks first is reported; and a document that lacks nothing describes one program, which is the
result if the check finds no defect in it. -/
theorem parse_of_read (h : Document.read (trim text) = .ok doc) :
    doc.Stands (trim text) ∧
    (∀ problem, FirstFault Section.Fault doc problem →
      parse text = .error (.unreadable (.ofSpan (trim text) problem.span) problem.value)) ∧
    ((∀ problem, ¬ FirstFault Section.Fault doc problem) →
      (∀ m, doc.Lacks m → parse text = .error (.invalid (.missing m))) ∧
      ((∀ m, ¬ doc.Lacks m) → ∃ p, doc.Describes p ∧ (∀ q, doc.Describes q → q = p) ∧
        (p.check = .ok () → parse text = .ok p) ∧
        ∀ d, p.check = .error d → parse text = .error (.structural d))) := by
  refine ⟨stands_of_read h, fun problem hproblem => ?_,
    fun hnone => ⟨fun m hm => ?_, fun hall => ?_⟩⟩
  · exact parse_of_describe_error (describe_of_firstFault h hproblem)
  · exact parse_of_describe_error (describe_of_lacks h hnone hm)
  · obtain ⟨p, hp, hdescribes⟩ := exists_describe h hnone hall
    exact ⟨p, hdescribes, fun q hq => hq.unique hdescribes, parse_of_describe hp⟩

end Program

/-- A text with a second block for a state, in it an action with lists of different lengths, and
then a second name. -/
def twiceText : List Char :=
  "name: n\nrules:\n  a:\n  a:\n    [0, 1], [R], b\nname: m".toList

/-- The sections of `twiceText`. -/
def twiceDocument : Notation.Document :=
  [⟨⟨0, 7⟩, .name ['n']⟩,
    ⟨⟨8, 43⟩, .rules [⟨⟨17, 19⟩, "a", []⟩,
      ⟨⟨22, 43⟩, "a", [⟨⟨29, 43⟩, ['0', '1'], none, [.right], "b"⟩]⟩]⟩,
    ⟨⟨44, 51⟩, .name ['m']⟩]

namespace Program

open Notation

/-- The action is reported, from its first bracket to its last letter, not its block and not the
second name. -/
theorem parse_of_read_twice : Document.read (trim twiceText) = .ok twiceDocument ∧
    FirstFault Section.Fault twiceDocument ⟨⟨29, 43⟩, .unevenAction 2 2 1⟩ ∧
    parse twiceText = .error (.unreadable ⟨⟨5, 5⟩, some ⟨5, 19⟩⟩ (.unevenAction 2 2 1)) := by
  have hread : Document.read (trim twiceText) = .ok twiceDocument := by decide +kernel
  have hfault : FirstFault Section.Fault twiceDocument ⟨⟨29, 43⟩, .unevenAction 2 2 1⟩ :=
    (ofDocument_of_read hread).1 rfl
  have hplace : Extent.ofSpan (trim twiceText) ⟨29, 43⟩ = ⟨⟨5, 5⟩, some ⟨5, 19⟩⟩ := by
    decide +kernel
  refine ⟨hread, hfault, ?_⟩
  rw [(parse_of_read hread).2.1 _ hfault, hplace]

end Program

end TapeMachine
