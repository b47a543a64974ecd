import TapeMachine.Proofs.Notation.Merging

/-!
# Notation — Faults

What is wrong with a document, section by section, and which problem is reported: that of the first
section at fault (`ofDocument_eq_error_iff`).  Where nothing is wrong, the draft keeps what each of
the sections says (`keeps_of_ofDocument`).

Both are read off one step.  A section is judged by the sections before it alone (`Section.Fault`),
and all that a draft knows of those is which kinds there are and what they say (`Draft.Keeps`).
-/

namespace TapeMachine.Notation

variable {α β : Type} {d d' e : Draft} {doc before : Document} {s : Section} {x : Placed Section}
  {problem : Placed Problem}

/-! ### What a document says -/

/-- The name of a section of this kind, without the white space around it. -/
def Section.name? : Section → Option (List Char)
  | .name text => some (trim text)
  | _ => none

def Section.blank? : Section → Option Symbol
  | .blank symbol => some symbol
  | _ => none

/-- The contents of the tapes, in one of two notations. -/
def Section.tapes? : Section → Option (List Word)
  | .tape content => some [content]
  | .tapes contents => some contents
  | _ => none

/-- Where the heads start, in one of two notations. -/
def Section.heads? : Section → Option (List Int)
  | .head position => some [Numeral.value position.value]
  | .heads positions => some (positions.map (Numeral.value ·.value))
  | _ => none

def Section.finals? : Section → Option (List State)
  | .finals states => some states
  | _ => none

def Section.maxSteps? : Section → Option Nat
  | .maxSteps count => some (Numeral.value count.value).toNat
  | _ => none

def Section.detectLoops? : Section → Option Bool
  | .detectLoops value => some value
  | _ => none

def Section.blocks? : Section → Option (List (Placed Block))
  | .rules blocks => some blocks
  | _ => none

/-- A part of the program as the first section tells it that has to do with it. -/
def Document.tells (doc : Document) (part? : Section → Option α) : Option α :=
  doc.findSome? (part? ·.value)

/-- The kinds of the sections. -/
def Document.kinds (doc : Document) : List Kind := doc.map (·.value.kind)

/-- What the sections are about. -/
def Document.parts (doc : Document) : List Kind := doc.map (·.value.kind.part)

/-- The sections that are about `k` tell this part of the program. -/
inductive TellsOf : {α : Type} → (Section → Option α) → (k : Kind) → Prop
  | name : TellsOf Section.name? .name
  | blank : TellsOf Section.blank? .blank
  | tapes : TellsOf Section.tapes? .tapes
  | heads : TellsOf Section.heads? .heads
  | finals : TellsOf Section.finals? .finals
  | maxSteps : TellsOf Section.maxSteps? .maxSteps
  | detectLoops : TellsOf Section.detectLoops? .detectLoops
  | blocks : TellsOf Section.blocks? .rules

section

variable {part? : Section → Option α} {k : Kind}

theorem tells_append : (doc ++ before).tells part? = (doc.tells part?).or (before.tells part?) :=
  List.findSome?_append

/-- Those sections tell it, and no others. -/
theorem TellsOf.isSome_iff (h : TellsOf part? k) (s : Section) :
    (part? s).isSome ↔ s.kind.part = k := by
  cases h <;> cases s <;>
    simp [Section.name?, Section.blank?, Section.tapes?, Section.heads?, Section.finals?,
      Section.maxSteps?, Section.detectLoops?, Section.blocks?, Section.kind, Kind.part]

theorem TellsOf.isSome_tells (h : TellsOf part? k) : (doc.tells part?).isSome ↔ k ∈ doc.parts := by
  rw [Document.tells, List.findSome?_isSome_iff, Document.parts, List.mem_map]
  exact exists_congr fun x => and_congr_right fun _ => h.isSome_iff x.value

/-- A section about something new tells what was not told, so that it may as well come first. -/
theorem TellsOf.tells_concat (h : TellsOf part? k) (hx : x.value.kind.part ∉ doc.parts) :
    Document.tells (doc ++ [x]) part? = (Document.tells [x] part?).or (doc.tells part?) := by
  rw [tells_append]
  by_cases hk : x.value.kind.part = k
  · have hnone : doc.tells part? = none := by
      rw [← Option.not_isSome_iff_eq_none, h.isSome_tells]
      exact hk ▸ hx
    rw [hnone, Option.none_or, Option.or_none]
  · have hnone : Document.tells [x] part? = none := by
      rw [← Option.not_isSome_iff_eq_none, h.isSome_tells]
      simpa [Document.parts] using Ne.symm hk
    rw [hnone, Option.none_or, Option.or_none]

end

/-! ### Faults -/

/-- The numeral writes an integer that lies beyond the range, on this side of it. -/
inductive BeyondRange (low high : Int) (digits : List Char) : NumeralFault → Prop
  | large : high < Numeral.value digits → BeyondRange low high digits .tooLarge
  | small : Numeral.value digits < low → BeyondRange low high digits .tooSmall

/-- The numeral of a head is no position. -/
def HeadFault (n : Placed (List Char)) (problem : Placed Problem) : Prop :=
  ∃ fault, BeyondRange leastPosition greatestPosition n.value fault ∧
    problem = ⟨n.span, .badHead fault⟩

/-- The numeral of a count is no count. -/
def CountFault (n : Placed (List Char)) (problem : Placed Problem) : Prop :=
  greatestCount < Numeral.value n.value ∧ problem = ⟨n.span, .badCount .tooLarge⟩

/-- The lists of an action differ in length. -/
def Action.Fault (a : Placed Action) (problem : Placed Problem) : Prop :=
  ¬ a.value.Even ∧ problem = ⟨a.span, .unevenAction a.value.read.length
    (a.value.write.getD a.value.read).length a.value.moves.length⟩

/-- What is wrong with a block after others: one of its actions; or else there is a block for its
state already. -/
inductive Block.Fault (before : List (Placed Block)) (b : Placed Block) : Placed Problem → Prop
  | action {problem : Placed Problem} :
      FirstFault (fun _ => Action.Fault) b.value.actions problem → Block.Fault before b problem
  | again : (∀ a ∈ b.value.actions, a.value.Even) →
      b.value.state ∈ before.map (·.value.state) →
      Block.Fault before b ⟨b.span, .duplicateState b.value.state⟩

/-- What is wrong with a section, whatever sections are before it. -/
def Section.ContentFault : Section → Placed Problem → Prop
  | .head n, problem => HeadFault n problem
  | .heads ns, problem => FirstFault (fun _ => HeadFault) ns problem
  | .maxSteps n, problem => CountFault n problem
  | .rules bs, problem => FirstFault Block.Fault bs problem
  | .name _, _ | .blank _, _ | .tape _, _ | .tapes _, _ | .finals _, _ | .detectLoops _, _ => False

/-- What is wrong with a section after others: its kind is there already, or else the other kind of
section for its tapes or heads is, or else there is something wrong with what it says. -/
inductive Section.Fault (before : Document) (s : Placed Section) : Placed Problem → Prop
  | again : s.value.kind ∈ before.kinds →
      Section.Fault before s ⟨s.span, .duplicateSection s.value.kind⟩
  | tapes : s.value.kind ∉ before.kinds → s.value.kind.part = .tapes → .tapes ∈ before.parts →
      Section.Fault before s ⟨s.span, .exclusiveSections .tape .tapes⟩
  | heads : s.value.kind ∉ before.kinds → s.value.kind.part = .heads → .heads ∈ before.parts →
      Section.Fault before s ⟨s.span, .exclusiveSections .head .heads⟩
  | content {problem : Placed Problem} : s.value.kind.part ∉ before.parts →
      s.value.ContentFault problem → Section.Fault before s problem

/-! ### Numerals -/

theorem inRange_eq_error_iff {low high : Int} {digits : List Char} {fault : NumeralFault}
    (h : low ≤ high) :
    Numeral.inRange low high digits = .error fault ↔ BeyondRange low high digits fault := by
  rw [Numeral.inRange]
  constructor
  · intro he
    split at he
    · next hlarge =>
        cases he
        exact .large hlarge
    · split at he
      · next hsmall =>
          cases he
          exact .small hsmall
      · cases he
  · rintro (hlarge | hsmall)
    · rw [if_pos hlarge]
    · rw [if_neg (by omega), if_pos hsmall]

theorem headPosition_eq_error_iff {n : Placed (List Char)} :
    headPosition n = .error problem ↔ HeadFault n problem := by
  have hrange (fault : NumeralFault) :
      Numeral.inRange leastPosition greatestPosition n.value = .error fault ↔
        BeyondRange leastPosition greatestPosition n.value fault :=
    inRange_eq_error_iff (by decide)
  simp only [HeadFault, ← hrange]
  rw [headPosition]
  cases Numeral.inRange leastPosition greatestPosition n.value with
  | ok i => simp
  | error fault => simp [eq_comm]

/-- A count without a sign can only be too large. -/
theorem stepCount_eq_error_iff {n : Placed (List Char)} (hn : 0 ≤ Numeral.value n.value) :
    stepCount n = .error problem ↔ CountFault n problem := by
  rw [CountFault, stepCount, Numeral.inRange]
  by_cases h : (greatestCount : Int) < Numeral.value n.value
  · simp [h, eq_comm]
  · simp [h, Int.not_lt.2 hn]

/-! ### Rules -/

theorem checkedRule_eq_error_iff {q : State} {a : Placed Action} :
    Action.checkedRule q a = .error problem ↔ Action.Fault a problem := by
  rw [Action.checkedRule, Action.Fault]
  split
  · next h => simp [show a.value.Even from h]
  · next h => simp [show ¬ a.value.Even from h, Action.rule, eq_comm]

/-- What is kept of a block. -/
def Block.kept (b : Placed Block) : State × List Rule :=
  (b.value.state, b.value.actions.map (·.value.rule b.value.state))

/-- The blocks are kept, the last one first. -/
def KeepsBlocks (before : List (Placed Block)) (done : List (State × List Rule)) : Prop :=
  done = (before.map Block.kept).reverse

/-- A block is taken down after others, the last one of which comes first. -/
def Block.take (done : List (State × List Rule)) (b : Placed Block) :
    Except (Placed Problem) (List (State × List Rule)) := do
  let rules ← b.value.actions.mapM (Action.checkedRule b.value.state)
  if b.value.state ∈ done.map Prod.fst then
    .error ⟨b.span, .duplicateState b.value.state⟩
  else .ok ((b.value.state, rules) :: done)

theorem rules_eq_foldlM (bs : List (Placed Block)) (done : List (State × List Rule)) :
    Block.rules done bs = (bs.foldlM Block.take done).map List.reverse := by
  induction bs generalizing done with
  | nil => rfl
  | cons b bs ih =>
      rw [Block.rules, List.foldlM_cons, Block.take]
      cases b.value.actions.mapM (Action.checkedRule b.value.state) with
      | error e => rfl
      | ok rs =>
          simp only [bind, Except.bind]
          split
          · rfl
          · exact ih _

section

variable {b : Placed Block} {bs before : List (Placed Block)} {done done' : List (State × List Rule)}

theorem take_eq_ok_iff : Block.take done b = .ok done' ↔
    (∀ a ∈ b.value.actions, a.value.Even) ∧ b.value.state ∉ done.map Prod.fst ∧
      Block.kept b :: done = done' := by
  rw [Block.take, bind_eq_ok_iff]
  constructor
  · rintro ⟨rs, hrs, h⟩
    obtain ⟨heven, rfl⟩ := checkedRules_eq_ok_iff.1 hrs
    split at h
    · cases h
    · next hnew => exact ⟨heven, hnew, Except.ok.inj h⟩
  · rintro ⟨heven, hnew, rfl⟩
    exact ⟨_, checkedRules_eq_ok_iff.2 ⟨heven, rfl⟩, if_neg hnew⟩

/-- What is wrong with a block is told by the states of the blocks before it. -/
theorem take_eq_error_iff (hdone : KeepsBlocks before done) :
    Block.take done b = .error problem ↔ Block.Fault before b problem := by
  have hactions : b.value.actions.mapM (Action.checkedRule b.value.state) = .error problem ↔
      FirstFault (fun _ => Action.Fault) b.value.actions problem :=
    mapM_eq_error_iff fun _ _ => checkedRule_eq_error_iff
  have hstates : done.map Prod.fst = (before.map (·.value.state)).reverse := by
    rw [show done = _ from hdone, List.map_reverse, List.map_map]
    rfl
  rw [Block.take, bind_eq_error_iff, hactions, hstates]
  simp only [List.mem_reverse]
  constructor
  · rintro (h | ⟨rs, hrs, h⟩)
    · exact .action h
    · split at h
      · next hmem =>
          cases h
          exact .again (checkedRules_eq_ok_iff.1 hrs).1 hmem
      · cases h
  · rintro (h | ⟨heven, hmem⟩)
    · exact .inl h
    · exact .inr ⟨_, checkedRules_eq_ok_iff.2 ⟨heven, rfl⟩, if_pos hmem⟩

theorem KeepsBlocks.take (hdone : KeepsBlocks before done) (h : Block.take done b = .ok done') :
    KeepsBlocks (before ++ [b]) done' := by
  obtain ⟨-, -, rfl⟩ := take_eq_ok_iff.1 h
  rw [KeepsBlocks, List.map_append, List.reverse_append, ← hdone]
  rfl

theorem keepsBlocks_nil : KeepsBlocks [] [] := rfl

theorem rules_eq_ok {ys : List (State × List Rule)} (h : Block.rules [] bs = .ok ys) :
    ys = bs.map Block.kept := by
  rw [rules_eq_foldlM] at h
  obtain ⟨done, hdone, rfl⟩ := map_eq_ok_iff.1 h
  have hkept : KeepsBlocks bs done := foldlM_inv KeepsBlocks.take keepsBlocks_nil hdone
  rw [show done = _ from hkept, List.reverse_reverse]

theorem rules_eq_error_iff : Block.rules [] bs = .error problem ↔
    FirstFault Block.Fault bs problem := by
  rw [rules_eq_foldlM, map_eq_error_iff]
  exact foldlM_eq_error_iff (I := KeepsBlocks) KeepsBlocks.take
    (fun _ h _ => take_eq_error_iff h) keepsBlocks_nil

end

/-! ### Sections -/

/-- The counts of a section have no sign. -/
def Section.Counted (s : Section) : Prop := ∀ n, s = .maxSteps n → 0 ≤ Numeral.value n.value

theorem hasRoom_iff {k : Kind} : d.HasRoom k ↔
    ¬ (k.part = .tapes ∧ d.tapes.isSome) ∧ ¬ (k.part = .heads ∧ d.heads.isSome) := by
  simp only [not_and, Option.not_isSome_iff_eq_none]
  exact ⟨fun h => ⟨h.tapes, h.heads⟩, fun h => ⟨h.1, h.2⟩⟩

/-- What is wrong with the tapes of a section is that there are tapes already. -/
theorem addTapes_eq_error_iff {i : Span} {ws : List Word} : d.addTapes i ws = .error problem ↔
    d.tapes.isSome ∧ problem = ⟨i, .exclusiveSections .tape .tapes⟩ := by
  rw [Draft.addTapes]
  split
  · next h => simp [h, eq_comm]
  · next h => simp [h]

/-- What is wrong with the heads of a section is that there are heads already, or else the first
numeral that is no position. -/
theorem addHeads_eq_error_iff {i : Span} {ns : List (Placed (List Char))} :
    d.addHeads i ns = .error problem ↔
      d.heads.isSome ∧ problem = ⟨i, .exclusiveSections .head .heads⟩ ∨
      d.heads = none ∧ FirstFault (fun _ => HeadFault) ns problem := by
  have hread : ns.mapM headPosition = .error problem ↔
      FirstFault (fun _ => HeadFault) ns problem :=
    mapM_eq_error_iff fun _ _ => headPosition_eq_error_iff
  rw [Draft.addHeads]
  split
  · next h => simp [h, eq_comm, Option.isSome_iff_ne_none.1 h]
  · next h =>
      simp [Option.not_isSome_iff_eq_none.1 h, bind_eq_error_iff, hread, pure, Except.pure]

theorem addContent_eq_error_iff {i : Span} (hs : s.Counted) : d.addContent i s = .error problem ↔
    (s.kind.part = .tapes ∧ d.tapes.isSome ∧ problem = ⟨i, .exclusiveSections .tape .tapes⟩) ∨
    (s.kind.part = .heads ∧ d.heads.isSome ∧ problem = ⟨i, .exclusiveSections .head .heads⟩) ∨
    (d.HasRoom s.kind ∧ s.ContentFault problem) := by
  rw [hasRoom_iff]
  cases s with
  | name _ | blank _ | finals _ | detectLoops _ =>
      simp [Draft.addContent, Section.kind, Kind.part, Section.ContentFault]
  | tape _ | tapes _ =>
      simp [Draft.addContent, addTapes_eq_error_iff, Section.kind, Kind.part, Section.ContentFault]
  | head _ | heads _ =>
      simp [Draft.addContent, addHeads_eq_error_iff, Section.kind, Kind.part, Section.ContentFault,
        firstFault_singleton]
  | maxSteps n =>
      simp [Draft.addContent, bind_eq_error_iff, stepCount_eq_error_iff (hs n rfl), Section.kind,
        Kind.part, Section.ContentFault, pure, Except.pure]
  | rules bs =>
      simp [Draft.addContent, bind_eq_error_iff, rules_eq_error_iff, Section.kind, Kind.part,
        Section.ContentFault, pure, Except.pure]

/-! ### Drafts -/

/-- The draft keeps what the sections say, and which kinds they are of. -/
structure Draft.Keeps (doc : Document) (d : Draft) : Prop where
  name : d.name = doc.tells Section.name?
  blank : d.blank = doc.tells Section.blank?
  tapes : d.tapes = doc.tells Section.tapes?
  heads : d.heads = doc.tells Section.heads?
  finals : d.finals = doc.tells Section.finals?
  maxSteps : d.maxSteps = doc.tells Section.maxSteps?
  detectLoops : d.detectLoops = doc.tells Section.detectLoops?
  blocks : d.blocks = (doc.tells Section.blocks?).map (·.map Block.kept)

/-- A section by itself is kept. -/
theorem keeps_addContent {i : Span} (h : ({} : Draft).addContent i s = .ok d) :
    d.Keeps [⟨i, s⟩] := by
  cases s with
  | name _ | blank _ | finals _ | detectLoops _ =>
      cases h
      constructor <;> rfl
  | tape _ | tapes _ =>
      obtain ⟨-, rfl⟩ := addTapes_eq_ok.1 h
      constructor <;> rfl
  | head _ | heads _ =>
      obtain ⟨-, is, his, rfl⟩ := addHeads_eq_ok.1 h
      obtain ⟨-, rfl⟩ := mapM_headPosition_eq_ok_iff.1 his
      constructor <;> rfl
  | maxSteps _ =>
      obtain ⟨k, hk, ⟨⟩⟩ := bind_eq_ok_iff.1 h
      obtain ⟨-, rfl⟩ := stepCount_eq_ok_iff.1 hk
      constructor <;> rfl
  | rules _ =>
      obtain ⟨ys, hys, ⟨⟩⟩ := bind_eq_ok_iff.1 h
      obtain rfl := rules_eq_ok hys
      constructor <;> rfl

/-- What is kept of sections, and of one more about something new. -/
theorem Draft.Keeps.merge (h : d.Keeps doc) (he : e.Keeps [x])
    (hx : x.value.kind.part ∉ doc.parts) : (d.merge e).Keeps (doc ++ [x]) := by
  constructor
  · rw [TellsOf.name.tells_concat hx, Draft.merge, h.name, he.name]
  · rw [TellsOf.blank.tells_concat hx, Draft.merge, h.blank, he.blank]
  · rw [TellsOf.tapes.tells_concat hx, Draft.merge, h.tapes, he.tapes]
  · rw [TellsOf.heads.tells_concat hx, Draft.merge, h.heads, he.heads]
  · rw [TellsOf.finals.tells_concat hx, Draft.merge, h.finals, he.finals]
  · rw [TellsOf.maxSteps.tells_concat hx, Draft.merge, h.maxSteps, he.maxSteps]
  · rw [TellsOf.detectLoops.tells_concat hx, Draft.merge, h.detectLoops, he.detectLoops]
  · rw [TellsOf.blocks.tells_concat hx, Draft.merge, h.blocks, he.blocks, ← Option.map_or]

/-- The draft is that of the sections so far. -/
structure Draft.Follows (before : Document) (d : Draft) : Prop where
  seen : ∀ k, k ∈ d.seen ↔ k ∈ before.kinds
  keeps : d.Keeps before

theorem Draft.Follows.isSome_tapes (h : d.Follows before) :
    d.tapes.isSome ↔ .tapes ∈ before.parts := by
  rw [h.keeps.tapes, TellsOf.tapes.isSome_tells]

theorem Draft.Follows.isSome_heads (h : d.Follows before) :
    d.heads.isSome ↔ .heads ∈ before.parts := by
  rw [h.keeps.heads, TellsOf.heads.isSome_tells]

theorem kind_eq_of_part {k k' : Kind} (h : k.part = k'.part) (htapes : k.part ≠ .tapes)
    (hheads : k.part ≠ .heads) : k = k' := by
  cases k <;> cases k' <;> simp_all [Kind.part]

/-- A section is about something new if it is the first of its kind and there is room for it. -/
theorem Draft.Follows.part_not_mem_iff (h : d.Follows before) {k : Kind} : k.part ∉ before.parts ↔
    k ∉ d.seen ∧ d.HasRoom k := by
  rw [hasRoom_iff, h.isSome_tapes, h.isSome_heads, h.seen]
  constructor
  · intro hk
    refine ⟨fun hmem => hk ?_, fun ⟨e, hmem⟩ => hk (e ▸ hmem), fun ⟨e, hmem⟩ => hk (e ▸ hmem)⟩
    obtain ⟨x, hx, rfl⟩ := List.mem_map.1 hmem
    exact List.mem_map_of_mem hx
  · rintro ⟨hk, htapes, hheads⟩ hmem
    obtain ⟨x, hx, e⟩ := List.mem_map.1 hmem
    refine hk (List.mem_map.2 ⟨x, hx, kind_eq_of_part e (fun he => htapes ?_) fun he => hheads ?_⟩)
    · exact ⟨e.symm.trans he, he ▸ List.mem_map_of_mem hx⟩
    · exact ⟨e.symm.trans he, he ▸ List.mem_map_of_mem hx⟩

/-- **One section is taken down.** -/
theorem Draft.Follows.add (h : d.Follows before) (hd : d.add x = .ok d') :
    d'.Follows (before ++ [x]) := by
  obtain ⟨hseen, e, he, hroom, rfl⟩ := add_eq_ok_iff.1 hd
  have hkeeps := h.keeps.merge (keeps_addContent he) (h.part_not_mem_iff.2 ⟨hseen, hroom⟩)
  refine ⟨fun k => ?_, { hkeeps with }⟩
  simp [h.seen, Document.kinds, or_comm]

/-- **One section is refused** for what is wrong with it after those before it. -/
theorem Draft.Follows.add_eq_error_iff (h : d.Follows before) (hx : x.value.Counted) :
    d.add x = .error problem ↔ Section.Fault before x problem := by
  have hseen := h.seen x.value.kind
  rw [Draft.add]
  split
  · next hmem =>
      constructor
      · rintro ⟨⟩
        exact .again (hseen.1 hmem)
      · rintro (_ | ⟨hnew, -⟩ | ⟨hnew, -⟩ | ⟨hpart, -⟩)
        · rfl
        · exact absurd (hseen.1 hmem) hnew
        · exact absurd (hseen.1 hmem) hnew
        · exact absurd hmem (h.part_not_mem_iff.1 hpart).1
  · next hnew =>
      have hnew' := fun hmem => hnew (hseen.2 hmem)
      rw [addContent_eq_error_iff hx]
      constructor
      · rintro (⟨hpart, htapes, rfl⟩ | ⟨hpart, hheads, rfl⟩ | ⟨hroom, hfault⟩)
        · exact .tapes hnew' hpart (h.isSome_tapes.1 htapes)
        · exact .heads hnew' hpart (h.isSome_heads.1 hheads)
        · exact .content (h.part_not_mem_iff.2 ⟨hnew, hroom.tapes, hroom.heads⟩) hfault
      · rintro (hmem | ⟨-, hpart, hmem⟩ | ⟨-, hpart, hmem⟩ | ⟨hpart, hfault⟩)
        · exact absurd hmem hnew'
        · exact .inl ⟨hpart, h.isSome_tapes.2 hmem, rfl⟩
        · exact .inr (.inl ⟨hpart, h.isSome_heads.2 hmem, rfl⟩)
        · have hroom := (h.part_not_mem_iff.1 hpart).2
          exact .inr (.inr ⟨⟨hroom.tapes, hroom.heads⟩, hfault⟩)

/-! ### Documents -/

theorem follows_nil : Draft.Follows [] {} := by
  refine ⟨fun k => Iff.rfl, ?_⟩
  constructor <;> rfl

/-- **A document is refused for the first of its sections at fault.** -/
theorem ofDocument_eq_error_iff (h : ∀ x ∈ doc, x.value.Counted) :
    Draft.ofDocument doc = .error problem ↔ FirstFault Section.Fault doc problem :=
  foldlM_eq_error_iff (fun h' => h'.add) (fun hx h' _ => h'.add_eq_error_iff (h _ hx)) follows_nil

/-- **The draft of a document keeps what each section says.** -/
theorem keeps_of_ofDocument (h : Draft.ofDocument doc = .ok d) : d.Keeps doc :=
  (foldlM_inv (fun h' => h'.add) follows_nil h).keeps

end TapeMachine.Notation
