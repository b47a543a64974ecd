import TapeMachine.Notation
import TapeMachine.Proofs.Machine.Run
import TapeMachine.Proofs.Notation.Drafts
import TapeMachine.Proofs.Notation.Values
import TapeMachine.Proofs.Notation.Writing

/-!
# Notation — Accepted texts

A text that is accepted gives a program that runs (`Program.runnable_of_parse`).  That its parts fit
together is what `Program.check` is for.  The rest is owed to the grammar and to the way in which
sections are taken down, and no check asks for it: the states are words, the rules of a state stand
together and those of the initial state come first, and neither the quote nor the mark of the blank
is a symbol of the program, unless the mark is the blank (`Program.Legible`).

A section that is read is proper (`proper_of_read`); a draft stays proper whatever proper section is
taken down (`Draft.Proper.add`); and the program of a proper draft is legible
(`Draft.Describes.legible`).
-/

namespace TapeMachine

/-- What holds of a program that was read, beside that it has no defects. -/
structure Program.Legible (p : Program) : Prop where
  isStateName : ∀ s ∈ p.states, Notation.IsStateName s.toList
  /-- The rules of a state stand together. -/
  grouped : Notation.Grouped (p.rules.map Rule.state)
  /-- The rules of the initial state come first. -/
  initial_first : ∀ r ∈ p.rules, r.state = p.initial →
    p.rules.head?.map Rule.state = some p.initial
  blank_ne : p.blank ≠ '\''
  ne_quote : ∀ s ∈ p.symbols, s ≠ '\''
  /-- An underscore is the blank. -/
  eq_blankMark : Notation.blankMark ∈ p.symbols → p.blank = Notation.blankMark
  trim_name : trim p.name.toList = p.name.toList
  name_line : ∀ c ∈ p.name.toList, c ∉ ['#', '\n', '\r']

namespace Notation

/-! ### Blocks -/

/-- The state of a block and the parts of its rules can be written, and the rules are for the
state. -/
structure ProperRules (b : State × List Rule) : Prop where
  isStateName : IsStateName b.1.toList
  state_eq : ∀ r ∈ b.2, r.state = b.1
  next : ∀ r ∈ b.2, IsStateName r.next.toList
  read : ∀ r ∈ b.2, Unquoted r.read
  write : ∀ r ∈ b.2, Unquoted r.write

/-- What is not written is what is read. -/
theorem Action.Proper.unquoted_write {a : Action} (h : a.Proper) (s : State) :
    Unquoted (a.rule s).write := by
  rw [Action.rule]
  cases hw : a.write with
  | none => exact h.read
  | some w => exact h.write w hw

theorem Block.Proper.rules {b : Block} {rs : List Rule} (hb : b.Proper)
    (h : b.actions.mapM (Action.checkedRule b.state) = .ok rs) : ProperRules (b.state, rs) := by
  have hrule : ∀ r ∈ rs, ∃ a : Action, a.Proper ∧ a.rule b.state = r := fun r hr =>
    let ⟨a, ha, e⟩ := exists_of_mem_mapM h r hr
    ⟨a.value, hb.actions a ha, (checkedRule_eq_ok_iff.1 e).2⟩
  refine ⟨hb.state, fun r hr => ?_, fun r hr => ?_, fun r hr => ?_, fun r hr => ?_⟩ <;>
    obtain ⟨a, ha, rfl⟩ := hrule r hr
  · rfl
  · exact ha.next
  · exact ha.read
  · exact ha.unquoted_write b.state

/-- Blocks that are taken down are for different states. -/
theorem proper_rules {bs : List (Placed Block)} {done ys : List (State × List Rule)}
    (hbs : ∀ b ∈ bs, b.value.Proper) (hdone : ∀ y ∈ done, ProperRules y)
    (hnodup : (done.map Prod.fst).Nodup) (h : Block.rules done bs = .ok ys) :
    (∀ y ∈ ys, ProperRules y) ∧ (ys.map Prod.fst).Nodup := by
  -- What is asked of the result holds of the blocks taken down so far, which are in `done`.
  induction bs generalizing done with
  | nil =>
      cases h
      refine ⟨fun y hy => hdone y (List.mem_reverse.1 hy), ?_⟩
      rw [List.map_reverse]
      exact List.nodup_reverse.2 hnodup
  | cons b bs ih =>
      obtain ⟨hb, hbs⟩ := List.forall_mem_cons.1 hbs
      rw [Block.rules] at h
      obtain ⟨rs, hrs, h⟩ := bind_eq_ok_iff.1 h
      split at h
      · cases h
      · next hnew =>
          exact ih hbs (List.forall_mem_cons.2 ⟨hb.rules hrs, hdone⟩)
            (List.nodup_cons.2 ⟨hnew, hnodup⟩) h

/-! ### Drafts -/

/-- What a draft has of a program can be written; the name of it has nothing white at its ends. -/
structure Draft.Proper (d : Draft) : Prop where
  name : ∀ t ∈ d.name, trim t = t ∧ OnLine t
  blank : ∀ s ∈ d.blank, s ≠ '\''
  tapes : ∀ ws ∈ d.tapes, ∀ w ∈ ws, Unquoted w
  finals : ∀ ss ∈ d.finals, ∀ s ∈ ss, IsStateName s.toList
  blocks : ∀ bs ∈ d.blocks, (∀ b ∈ bs, ProperRules b) ∧ (bs.map Prod.fst).Nodup

theorem Draft.Proper.empty : Draft.Proper {} := ⟨nofun, nofun, nofun, nofun, nofun⟩

theorem Draft.Proper.addContent {d d' : Draft} {i : Span} {s : Section} (hd : d.Proper)
    (hs : s.Proper) (h : d.addContent i s = .ok d') : d'.Proper := by
  cases s with
  | name t =>
      cases h
      refine { hd with name := ?_ }
      rintro _ ⟨⟩
      exact ⟨trim_trim t, fun c hc => hs c (mem_of_mem_trim hc)⟩
  | blank s =>
      cases h
      refine { hd with blank := ?_ }
      rintro _ ⟨⟩
      exact hs
  | tape w =>
      obtain ⟨-, rfl⟩ := addTapes_eq_ok.1 h
      refine { hd with tapes := ?_ }
      rintro _ ⟨⟩
      exact List.forall_mem_singleton.2 hs
  | tapes ws =>
      obtain ⟨-, rfl⟩ := addTapes_eq_ok.1 h
      refine { hd with tapes := ?_ }
      rintro _ ⟨⟩
      exact hs
  | head _ | heads _ =>
      obtain ⟨-, is, -, rfl⟩ := addHeads_eq_ok.1 h
      exact { hd with }
  | finals ss =>
      cases h
      refine { hd with finals := ?_ }
      rintro _ ⟨⟩
      exact hs
  | maxSteps m =>
      obtain ⟨k, -, h⟩ := bind_eq_ok_iff.1 h
      cases h
      exact { hd with }
  | detectLoops b =>
      cases h
      exact { hd with }
  | rules bs =>
      obtain ⟨ys, hys, h⟩ := bind_eq_ok_iff.1 h
      cases h
      refine { hd with blocks := ?_ }
      rintro _ ⟨⟩
      have hnone : ∀ y ∈ ([] : List (State × List Rule)), ProperRules y := nofun
      exact proper_rules hs hnone List.nodup_nil hys

theorem Draft.Proper.add {d d' : Draft} {s : Placed Section} (hd : d.Proper)
    (hs : s.value.Proper) (h : d.add s = .ok d') : d'.Proper := by
  rw [Draft.add] at h
  split at h
  · cases h
  · have hseen : Draft.Proper { d with seen := s.value.kind :: d.seen } := { hd with }
    exact hseen.addContent hs h

theorem Draft.Proper.foldlM {doc : Document} {d d' : Draft} (hd : d.Proper)
    (hdoc : ∀ s ∈ doc, s.value.Proper) (h : doc.foldlM Draft.add d = .ok d') : d'.Proper := by
  induction doc generalizing d with
  | nil =>
      cases h
      exact hd
  | cons s doc ih =>
      obtain ⟨hs, hdoc⟩ := List.forall_mem_cons.1 hdoc
      rw [List.foldlM_cons] at h
      obtain ⟨d₁, h₁, h⟩ := bind_eq_ok_iff.1 h
      exact ih (hd.add hs h₁) hdoc h

/-! ### The order of rules -/

/-- Equal states stand together in a list if they do so in both parts of it and the parts have no
state in common. -/
theorem Grouped.append {ss ts : List State} (hs : Grouped ss) (ht : Grouped ts)
    (hne : ∀ s ∈ ss, s ∉ ts) : Grouped (ss ++ ts) := by
  induction ss with
  | nil => exact ht
  | cons s ss ih =>
      obtain ⟨hnew, hne⟩ := List.forall_mem_cons.1 hne
      refine ⟨?_, ih hs.2 hne⟩
      rcases hs.1 with hhead | hs
      · have happend : (ss ++ ts).head? = some s := by
          rw [List.head?_append, hhead]
          rfl
        exact .inl happend
      · exact .inr (List.not_mem_append hs hnew)

theorem grouped_of_forall_eq {s : State} {ss : List State} (h : ∀ t ∈ ss, t = s) : Grouped ss := by
  induction ss with
  | nil => trivial
  | cons t ss ih =>
      obtain ⟨rfl, h⟩ := List.forall_mem_cons.1 h
      refine ⟨?_, ih h⟩
      cases ss with
      | nil => exact .inr nofun
      | cons u ss => exact .inl (congrArg some (h u List.mem_cons_self))

/-- The state of a rule in blocks is that of a block. -/
theorem state_mem_of_mem_flatMap {bs : List (State × List Rule)} {r : Rule}
    (hstate : ∀ b ∈ bs, ∀ r ∈ b.2, r.state = b.1) (hr : r ∈ bs.flatMap Prod.snd) :
    r.state ∈ bs.map Prod.fst := by
  obtain ⟨b, hb, hrb⟩ := List.mem_flatMap.1 hr
  rw [hstate b hb r hrb]
  exact List.mem_map_of_mem hb

/-- Rules in blocks of different states stand together by their states. -/
theorem grouped_flatMap {bs : List (State × List Rule)} (hnodup : (bs.map Prod.fst).Nodup)
    (hstate : ∀ b ∈ bs, ∀ r ∈ b.2, r.state = b.1) :
    Grouped ((bs.flatMap Prod.snd).map Rule.state) := by
  induction bs with
  | nil => trivial
  | cons b bs ih =>
      obtain ⟨hb, hstate⟩ := List.forall_mem_cons.1 hstate
      obtain ⟨hnew, hnodup⟩ := List.nodup_cons.1 hnodup
      have hfst : ∀ s ∈ b.2.map Rule.state, s = b.1 := List.forall_mem_map.2 hb
      rw [List.flatMap_cons, List.map_append]
      refine (grouped_of_forall_eq hfst).append (ih hnodup hstate) fun s hs hmem => ?_
      obtain ⟨r, hr, rfl⟩ := List.mem_map.1 hmem
      rw [← hfst _ hs] at hnew
      exact hnew (state_mem_of_mem_flatMap hstate hr)

/-- If there is a rule of the state of the first block, the first rule is one. -/
theorem head_of_first_block {b : State × List Rule} {bs : List (State × List Rule)} {r : Rule}
    (hnodup : ((b :: bs).map Prod.fst).Nodup)
    (hstate : ∀ c ∈ b :: bs, ∀ r ∈ c.2, r.state = c.1) (hr : r ∈ (b :: bs).flatMap Prod.snd)
    (hrs : r.state = b.1) : ((b :: bs).flatMap Prod.snd).head?.map Rule.state = some b.1 := by
  obtain ⟨hb, hstate⟩ := List.forall_mem_cons.1 hstate
  -- The rule is one of the first block: the states of the others are different.
  have hmem : r ∈ b.2 := by
    rw [List.flatMap_cons] at hr
    refine (List.mem_append.1 hr).resolve_right fun hr => ?_
    refine (List.nodup_cons.1 hnodup).1 ?_
    rw [← hrs]
    exact state_mem_of_mem_flatMap hstate hr
  exact head_state_of_blocks (List.ne_nil_of_mem hmem) hb

/-! ### Programs -/

variable {p : Program} {blank x : Symbol} {w : Word}

theorem Unquoted.map_resolve (hw : Unquoted w) (hblank : blank ≠ '\'') :
    Unquoted (w.map (resolve blank)) := by
  refine List.forall_mem_map.2 fun s hs => ?_
  rw [resolve]
  split
  · exact hblank
  · exact hw s hs

/-- No mark of the blank is left, unless it is the blank. -/
theorem eq_blankMark_of_mem (h : blankMark ∈ w.map (resolve blank)) : blank = blankMark := by
  obtain ⟨s, -, hs⟩ := List.mem_map.1 h
  rw [resolve] at hs
  split at hs
  · exact hs
  · next hne => exact absurd hs hne

theorem map_state_resolveRule (rs : List Rule) :
    (rs.map (resolveRule blank)).map Rule.state = rs.map Rule.state := by
  rw [List.map_map]
  rfl

/-- What a program has of its draft. -/
structure Draft.Describes (d : Draft) (p : Program) (ws : List Word) (b : State × List Rule)
    (bs : List (State × List Rule)) : Prop where
  name_eq : d.name = some p.name.toList
  tapes_eq : d.tapes = some ws
  blocks_eq : d.blocks = some (b :: bs)
  initial_eq : p.initial = b.1
  finals_eq : p.finals =
    .ofList (d.finals.getD (((b :: bs).filter (·.2.isEmpty)).map Prod.fst))
  blank_eq : p.blank = d.blank.getD defaultBlank
  tapes_map : p.tapes = ws.map (·.map (resolve p.blank))
  rules_map : p.rules = ((b :: bs).flatMap Prod.snd).map (resolveRule p.blank)

theorem Draft.exists_describes {d : Draft} (h : d.program = .ok p) :
    ∃ ws b bs, d.Describes p ws b bs := by
  rw [Draft.program] at h
  split at h
  · cases h
  · cases h
  · cases h
  · cases h
  · next t ws s rs bs hname htapes hblocks =>
      cases h
      refine ⟨ws, (s, rs), bs, ?_, htapes, hblocks, rfl, rfl, rfl, rfl, rfl⟩
      rw [hname, String.toList_ofList]

namespace Draft.Describes

variable {d : Draft} {ws : List Word} {b : State × List Rule} {bs : List (State × List Rule)}

theorem blank_ne (h : d.Describes p ws b bs) (hd : d.Proper) : p.blank ≠ '\'' := by
  rw [h.blank_eq]
  cases hblank : d.blank with
  | none => decide
  | some s => exact hd.blank s hblank

/-- A rule of the program is one of a block, up to marks of the blank. -/
theorem exists_rule (h : d.Describes p ws b bs) {r : Rule} (hr : r ∈ p.rules) :
    ∃ c ∈ b :: bs, ∃ r' ∈ c.2, resolveRule p.blank r' = r := by
  rw [h.rules_map] at hr
  obtain ⟨r', hr', e⟩ := List.mem_map.1 hr
  obtain ⟨c, hc, hr'⟩ := List.mem_flatMap.1 hr'
  exact ⟨c, hc, r', hr', e⟩

theorem isStateName_of_final (h : d.Describes p ws b bs) (hd : d.Proper) {s : State}
    (hs : s ∈ p.finals) : IsStateName s.toList := by
  rw [h.finals_eq, StateSet.mem_ofList] at hs
  -- Without a section of final states these are the states of blocks without rules.
  cases hfinals : d.finals with
  | some ss =>
      rw [hfinals] at hs
      exact hd.finals ss hfinals s hs
  | none =>
      rw [hfinals] at hs
      obtain ⟨c, hc, rfl⟩ := List.mem_map.1 hs
      exact ((hd.blocks _ h.blocks_eq).1 c (List.mem_filter.1 hc).1).isStateName

theorem isStateName (h : d.Describes p ws b bs) (hd : d.Proper) :
    ∀ s ∈ p.states, IsStateName s.toList := by
  have hblocks := (hd.blocks _ h.blocks_eq).1
  intro s hs
  rcases Program.mem_states_iff.1 hs with rfl | hs | ⟨r, hr, hs⟩
  · rw [h.initial_eq]
    exact (hblocks b List.mem_cons_self).isStateName
  · exact h.isStateName_of_final hd hs
  · obtain ⟨c, hc, r', hr', rfl⟩ := h.exists_rule hr
    rcases hs with rfl | rfl
    · change IsStateName r'.state.toList
      rw [(hblocks c hc).state_eq r' hr']
      exact (hblocks c hc).isStateName
    · exact (hblocks c hc).next r' hr'

/-- The symbols of the program are those of words that can be written, up to marks of the blank. -/
theorem exists_word (h : d.Describes p ws b bs) (hd : d.Proper) (hx : x ∈ p.symbols) :
    ∃ w, Unquoted w ∧ x ∈ w.map (resolve p.blank) := by
  rcases Program.mem_symbols_iff.1 hx with ⟨v, hv, hx⟩ | ⟨r, hr, hx⟩
  · rw [h.tapes_map] at hv
    obtain ⟨w, hw, rfl⟩ := List.mem_map.1 hv
    exact ⟨w, hd.tapes ws h.tapes_eq w hw, hx⟩
  · obtain ⟨c, hc, r', hr', rfl⟩ := h.exists_rule hr
    have hrules := (hd.blocks _ h.blocks_eq).1 c hc
    rcases hx with hx | hx
    · exact ⟨r'.read, hrules.read r' hr', hx⟩
    · exact ⟨r'.write, hrules.write r' hr', hx⟩

/-- **The program of a proper draft is legible.** -/
theorem legible (h : d.Describes p ws b bs) (hd : d.Proper) : p.Legible := by
  obtain ⟨hblocks, hnodup⟩ := hd.blocks _ h.blocks_eq
  have hstate : ∀ c ∈ b :: bs, ∀ r ∈ c.2, r.state = c.1 := fun c hc => (hblocks c hc).state_eq
  have hstates : p.rules.map Rule.state = ((b :: bs).flatMap Prod.snd).map Rule.state := by
    rw [h.rules_map, map_state_resolveRule]
  obtain ⟨htrim, hline⟩ := hd.name _ h.name_eq
  exact {
    isStateName := h.isStateName hd
    grouped := by
      rw [hstates]
      exact grouped_flatMap hnodup hstate
    initial_first := by
      intro r hr hrs
      obtain ⟨c, hc, r', hr', rfl⟩ := h.exists_rule hr
      rw [← List.head?_map, hstates, List.head?_map, h.initial_eq]
      exact head_of_first_block hnodup hstate (List.mem_flatMap.2 ⟨c, hc, hr'⟩)
        (hrs.trans h.initial_eq)
    blank_ne := h.blank_ne hd
    ne_quote := by
      intro x hx
      obtain ⟨w, hw, hx⟩ := h.exists_word hd hx
      exact hw.map_resolve (h.blank_ne hd) x hx
    eq_blankMark := by
      intro hx
      obtain ⟨w, -, hx⟩ := h.exists_word hd hx
      exact eq_blankMark_of_mem hx
    trim_name := htrim
    name_line := hline }

end Draft.Describes

theorem legible_of_describe {t : List Char} (h : describe t = .ok p) : p.Legible := by
  rw [describe] at h
  split at h
  · cases h
  · next doc hread =>
      split at h
      · cases h
      · next d hdraft =>
          split at h
          · cases h
          · next hprogram =>
              cases h
              obtain ⟨ws, b, bs, hp⟩ := Draft.exists_describes hprogram
              exact hp.legible (Draft.Proper.empty.foldlM (proper_of_read hread) hdraft)

end Notation

namespace Program

variable {t : List Char} {p : Program}

theorem describe_of_parse (h : parse t = .ok p) :
    Notation.describe (trim t) = .ok p ∧ p.check = .ok () := by
  rw [parse] at h
  obtain ⟨q, hq, h⟩ := bind_eq_ok_iff.1 h
  obtain ⟨⟨⟩, hcheck, h⟩ := bind_eq_ok_iff.1 h
  cases h
  exact ⟨hq, mapError_eq_ok_iff.1 hcheck⟩

/-- **What is accepted can be run.**  The program of a text has no defects and a machine; it has a
tape at least, a head on each and rules for all of them; and it is legible, which nothing checks. -/
theorem runnable_of_parse (h : parse t = .ok p) :
    p.check = .ok () ∧ (∃ m, Machine.ofProgram p = .ok m) ∧
      (1 ≤ p.tapeCount ∧ p.tapes.length = p.tapeCount ∧ p.heads.length = p.tapeCount) ∧
      (∀ r ∈ p.rules, r.HasArity p.tapeCount) ∧ p.Legible := by
  obtain ⟨hdescribe, hcheck⟩ := describe_of_parse h
  have hwf : p.WellFormed := check_eq_ok_iff.1 hcheck
  obtain ⟨m, hm, -⟩ := Machine.exists_ofProgram hwf
  exact ⟨hcheck, ⟨m, hm⟩, ⟨hwf.tapeCount_pos, hwf.tapes_length, hwf.heads_length⟩, hwf.hasArity,
    Notation.legible_of_describe hdescribe⟩

end Program

/-- A text with comments, white space after the name, a sign of the notation for the blank, and no
sections of heads and final states. -/
def swapText : List Char := String.toList
  "# A swap\nname:  Swap two\u00a0 # of a kind\nblank: '#'\ntapes:\n  [a, _]\n  [b]\nrules:\n  go:\n    [a, b] -> [b, a], [R, S], go\n    [_, _], [N, N], halt\n\n  halt:\n"

/-- The program of `swapText`. -/
def swap : Program where
  name := "Swap two"
  initial := "go"
  finals := .ofList ["halt"]
  blank := '#'
  tapes := [['a', '#'], ['b']]
  heads := [0, 0]
  tapeCount := 2
  rules := [
    ⟨"go", ['a', 'b'], ['b', 'a'], [.right, .stay], "go"⟩,
    ⟨"go", ['#', '#'], ['#', '#'], [.stay, .stay], "halt"⟩]
  maxSteps := 1000
  detectLoops := true

theorem Program.runnable_of_parse_swap : Program.parse swapText = .ok swap ∧
    swap.check = .ok () ∧ (∃ m, Machine.ofProgram swap = .ok m) ∧
      (1 ≤ swap.tapeCount ∧ swap.tapes.length = swap.tapeCount ∧
        swap.heads.length = swap.tapeCount) ∧
      (∀ r ∈ swap.rules, r.HasArity swap.tapeCount) ∧ swap.Legible := by
  have hparse : Program.parse swapText = .ok swap := by decide +kernel
  exact ⟨hparse, runnable_of_parse hparse⟩

end TapeMachine
