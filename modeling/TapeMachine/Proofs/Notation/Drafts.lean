import TapeMachine.Proofs.Notation.Sections
import TapeMachine.Proofs.Program.WellFormed
import TapeMachine.Proofs.Results
import TapeMachine.Proofs.StateSet

/-!
# Notation — Drafts

A document whose sections say the parts of a program, each part once, gives a draft of the program
(`exists_draft`), whatever the order of the sections: one section leaves alone what the others say
(`Agrees.add`).
-/

namespace TapeMachine.Notation

variable {p : Program}

/-! ### Numerals -/

theorem inRange_eq_ok_iff {low high i : Int} {digits : List Char} :
    Numeral.inRange low high digits = .ok i ↔
      (low ≤ Numeral.value digits ∧ Numeral.value digits ≤ high) ∧ Numeral.value digits = i := by
  rw [Numeral.inRange]
  split
  · simp; omega
  · split <;> simp <;> omega

theorem headPosition_eq_ok_iff {n : Placed (List Char)} {i : Int} : headPosition n = .ok i ↔
    IsPosition (Numeral.value n.value) ∧ Numeral.value n.value = i := by
  rw [IsPosition, ← inRange_eq_ok_iff, headPosition]
  split <;> simp_all

theorem mapM_headPosition_eq_ok_iff {ns : List (Placed (List Char))} {is : List Int} :
    ns.mapM headPosition = .ok is ↔
      (∀ n ∈ ns, IsPosition (Numeral.value n.value)) ∧ ns.map (Numeral.value ·.value) = is :=
  mapM_eq_ok_iff fun _ _ => headPosition_eq_ok_iff

theorem mapM_headPosition {ns : List (Placed (List Char))} {is : List Int}
    (h : ns.map (Numeral.value ·.value) = is)
    (his : ∀ i ∈ is, leastPosition ≤ i ∧ i ≤ greatestPosition) : ns.mapM headPosition = .ok is :=
  mapM_headPosition_eq_ok_iff.2 ⟨fun _ hn => his _ (h ▸ List.mem_map_of_mem hn), h⟩

theorem stepCount_eq_ok_iff {n : Placed (List Char)} {k : Nat} : stepCount n = .ok k ↔
    (0 ≤ Numeral.value n.value ∧ Numeral.value n.value ≤ greatestCount) ∧
      (Numeral.value n.value).toNat = k := by
  rw [stepCount]
  constructor
  · intro h
    split at h
    · next i hi =>
        cases h
        obtain ⟨hrange, rfl⟩ := inRange_eq_ok_iff.1 hi
        exact ⟨hrange, rfl⟩
    · cases h
  · rintro ⟨hrange, rfl⟩
    rw [inRange_eq_ok_iff.2 ⟨hrange, rfl⟩]

theorem stepCount_eq_ok {n : Placed (List Char)} {k : Nat} (h : Numeral.value n.value = k)
    (hk : k ≤ greatestCount) : stepCount n = .ok k := by
  rw [stepCount_eq_ok_iff, h]
  exact ⟨⟨Int.natCast_nonneg k, Int.ofNat_le.2 hk⟩, rfl⟩

/-! ### Rules -/

/-- The lists of an action have one length; what is not written is what is read. -/
def Action.Even (a : Action) : Prop :=
  a.read.length = (a.write.getD a.read).length ∧ a.read.length = a.moves.length

theorem checkedRule_eq_ok_iff {q : State} {a : Placed Action} {r : Rule} :
    Action.checkedRule q a = .ok r ↔ a.value.Even ∧ a.value.rule q = r := by
  rw [Action.checkedRule]
  split
  · next h => simp [show a.value.Even from h]
  · next h => simp [show ¬ a.value.Even from h]

theorem checkedRules_eq_ok_iff {b : Block} {rs : List Rule} :
    b.actions.mapM (Action.checkedRule b.state) = .ok rs ↔
      (∀ a ∈ b.actions, a.value.Even) ∧ b.actions.map (·.value.rule b.state) = rs :=
  mapM_eq_ok_iff fun _ _ => checkedRule_eq_ok_iff

/-- An action means a rule of as many symbols and moves. -/
theorem even_of_means {blank : Symbol} {r : Rule} {a : Action} {n : Nat}
    (h : Action.Means blank r a) (hr : r.HasArity n) : a.Even := by
  have hread := congrArg (·.read.length) h
  have hwrite := congrArg (·.write.length) h
  have hmoves := congrArg (·.moves.length) h
  simp only [resolveRule, List.length_map, Action.rule] at hread hwrite hmoves
  rw [Action.Even, hread, hwrite, hmoves, hr.1, hr.2.1, hr.2.2]
  exact ⟨rfl, rfl⟩

/-- What is taken down of a block, up to marks of the blank. -/
def BlockAgrees (blank : Symbol) (b y : State × List Rule) : Prop :=
  y.1 = b.1 ∧ y.2.map (resolveRule blank) = b.2.map (resolveRule blank)

theorem mapM_checkedRule {blank : Symbol} {s : State} {rs : List Rule} {as : List (Placed Action)}
    {n : Nat} (h : List.Forall₂ (fun r a => Action.Means blank r a.value) rs as)
    (hs : ∀ r ∈ rs, r.state = s) (hrs : ∀ r ∈ rs, r.HasArity n) :
    ∃ rs', as.mapM (Action.checkedRule s) = .ok rs' ∧
      rs'.map (resolveRule blank) = rs.map (resolveRule blank) := by
  induction h with
  | nil => exact ⟨[], rfl, rfl⟩
  | @cons r a rs as ha _ ih =>
      obtain ⟨rfl, hs⟩ := List.forall_mem_cons.1 hs
      obtain ⟨hr, hrs⟩ := List.forall_mem_cons.1 hrs
      obtain ⟨rs', e, hrs'⟩ := ih hs hrs
      refine ⟨a.value.rule r.state :: rs', ?_, ?_⟩
      · rw [List.mapM_cons, checkedRule_eq_ok_iff.2 ⟨even_of_means ha hr, rfl⟩, e]
        rfl
      · rw [List.map_cons, List.map_cons, hrs', ha]

theorem exists_rules {blank : Symbol} {bs : List (State × List Rule)} {xs : List (Placed Block)}
    {n : Nat} (h : List.Forall₂ (fun b x => Block.Means blank b x.value) bs xs)
    (hstate : ∀ b ∈ bs, ∀ r ∈ b.2, r.state = b.1) (harity : ∀ b ∈ bs, ∀ r ∈ b.2, r.HasArity n)
    (done : List (State × List Rule)) (hnodup : (done.map Prod.fst ++ bs.map Prod.fst).Nodup) :
    ∃ ys, Block.rules done xs = .ok (done.reverse ++ ys) ∧
      List.Forall₂ (BlockAgrees blank) bs ys := by
  induction h generalizing done with
  | nil => exact ⟨[], by rw [Block.rules, List.append_nil], .nil⟩
  | @cons b x bs xs hx _ ih =>
      obtain ⟨hb, hstate⟩ := List.forall_mem_cons.1 hstate
      obtain ⟨hb', harity⟩ := List.forall_mem_cons.1 harity
      obtain ⟨rs', e, hrs'⟩ := mapM_checkedRule hx.2 hb hb'
      have hnew : b.1 ∉ done.map Prod.fst := fun hmem =>
        (List.nodup_append.1 hnodup).2.2 _ hmem _ (by simp) rfl
      obtain ⟨ys, e', hys⟩ := ih hstate harity ((b.1, rs') :: done) (by
        refine (List.Perm.nodup_iff ?_).1 hnodup
        simp)
      refine ⟨(b.1, rs') :: ys, ?_, .cons ⟨rfl, hrs'⟩ hys⟩
      rw [Block.rules, hx.1, e]
      change (if b.1 ∈ done.map Prod.fst then _ else _) = _
      rw [if_neg hnew, e']
      simp

/-! ### Sections -/

/-- The kind that stands for what a section says, which may be said in two ways. -/
def Kind.part : Kind → Kind
  | .tape => .tapes
  | .head => .heads
  | k => k

/-- The draft has a part of the program, up to marks of the blank. -/
def Draft.Holds (p : Program) (d : Draft) : Kind → Prop
  | .name => d.name = some p.name.toList
  | .blank => d.blank = some p.blank
  | .tape | .tapes => ∃ ws, d.tapes = some ws ∧
    ws.map (·.map (resolve p.blank)) = p.tapes.map (·.map (resolve p.blank))
  | .head | .heads => d.heads = some p.heads
  | .finals => ∃ ss, d.finals = some ss ∧ ∀ s, s ∈ ss ↔ s ∈ p.finals
  | .maxSteps => d.maxSteps = some p.maxSteps
  | .detectLoops => d.detectLoops = some p.detectLoops
  | .rules => ∃ bs ys, d.blocks = some ys ∧ Blocks p bs ∧ List.Forall₂ (BlockAgrees p.blank) bs ys

/-- The draft has the parts of the program that it has seen, and no tapes and heads but those. -/
structure Draft.Agrees (p : Program) (d : Draft) : Prop where
  holds : ∀ k ∈ d.seen, d.Holds p k
  tapes_seen : d.tapes.isSome → .tapes ∈ d.seen.map Kind.part
  heads_seen : d.heads.isSome → .heads ∈ d.seen.map Kind.part

theorem Draft.Agrees.empty : Draft.Agrees p {} := ⟨nofun, nofun, nofun⟩

theorem addTapes_eq_ok {d d' : Draft} {i : Span} {ws : List Word} :
    d.addTapes i ws = .ok d' ↔ d.tapes = none ∧ { d with tapes := some ws } = d' := by
  rw [Draft.addTapes]
  cases d.tapes with
  | none => simp
  | some ws' => simp

theorem addHeads_eq_ok {d d' : Draft} {i : Span} {ps : List (Placed (List Char))} :
    d.addHeads i ps = .ok d' ↔ d.heads = none ∧
      ∃ is, ps.mapM headPosition = .ok is ∧ { d with heads := some is } = d' := by
  rw [Draft.addHeads]
  cases d.heads with
  | some is => simp
  | none =>
      refine (bind_eq_ok_iff (x := ps.mapM headPosition)).trans ?_
      simp [pure, Except.pure]

/-- The draft goes from `d` to `d'` at a section of the kind `k`, which leaves alone what sections
of other kinds say. -/
structure Draft.Extends (p : Program) (d d' : Draft) (k : Kind) : Prop where
  seen_eq : d'.seen = d.seen
  tapes_eq : k.part ≠ .tapes → d'.tapes = d.tapes
  heads_eq : k.part ≠ .heads → d'.heads = d.heads
  holds : ∀ k', k'.part ≠ k.part → d.Holds p k' → d'.Holds p k'

theorem extends_of_addContent {d d' : Draft} {i : Span} {s : Section}
    (h : d.addContent i s = .ok d') : d.Extends p d' s.kind := by
  -- The value read is not looked at: only which field of the draft it goes to.
  cases s with
  | name _ | blank _ | finals _ | detectLoops _ =>
      cases h
      refine ⟨rfl, fun _ => rfl, fun _ => rfl, fun k hk hd => ?_⟩
      cases k <;> first | exact hd | exact absurd rfl hk
  | tape _ | tapes _ =>
      obtain ⟨-, rfl⟩ := addTapes_eq_ok.1 h
      refine ⟨rfl, fun hk => absurd rfl hk, fun _ => rfl, fun k hk hd => ?_⟩
      cases k <;> first | exact hd | exact absurd rfl hk
  | head _ | heads _ =>
      obtain ⟨-, is, -, rfl⟩ := addHeads_eq_ok.1 h
      refine ⟨rfl, fun _ => rfl, fun hk => absurd rfl hk, fun k hk hd => ?_⟩
      cases k <;> first | exact hd | exact absurd rfl hk
  | maxSteps m =>
      obtain ⟨c, -, h⟩ := bind_eq_ok_iff.1 h
      cases h
      refine ⟨rfl, fun _ => rfl, fun _ => rfl, fun k hk hd => ?_⟩
      cases k <;> first | exact hd | exact absurd rfl hk
  | rules xs =>
      obtain ⟨ys, -, h⟩ := bind_eq_ok_iff.1 h
      cases h
      refine ⟨rfl, fun _ => rfl, fun _ => rfl, fun k hk hd => ?_⟩
      cases k <;> first | exact hd | exact absurd rfl hk

/-- A section that says a part of the program brings it into the draft. -/
theorem exists_addContent {d : Draft} {i : Span} {s : Section} (hp : p.Notable)
    (hwf : p.WellFormed) (hs : Section.Means p s) (htapes : s.kind.part = .tapes → d.tapes = none)
    (hheads : s.kind.part = .heads → d.heads = none) :
    ∃ d', d.addContent i s = .ok d' ∧ d'.Holds p s.kind := by
  cases s with
  | name t => exact ⟨_, rfl, congrArg some hs⟩
  | blank b => exact ⟨_, rfl, congrArg some hs⟩
  | tape w => exact ⟨_, addTapes_eq_ok.2 ⟨htapes rfl, rfl⟩, _, rfl, hs⟩
  | tapes ws => exact ⟨_, addTapes_eq_ok.2 ⟨htapes rfl, rfl⟩, _, rfl, hs⟩
  | head n =>
      have hread : [n].mapM headPosition = .ok p.heads := mapM_headPosition hs hp.heads_range
      exact ⟨_, addHeads_eq_ok.2 ⟨hheads rfl, _, hread, rfl⟩, rfl⟩
  | heads ns =>
      have hread : ns.mapM headPosition = .ok p.heads := mapM_headPosition hs hp.heads_range
      exact ⟨_, addHeads_eq_ok.2 ⟨hheads rfl, _, hread, rfl⟩, rfl⟩
  | finals ss => exact ⟨_, rfl, ss, rfl, hs⟩
  | maxSteps m =>
      refine ⟨{ d with maxSteps := some p.maxSteps }, ?_, rfl⟩
      rw [Draft.addContent, stepCount_eq_ok hs hp.maxSteps_le]
      rfl
  | detectLoops b => exact ⟨_, rfl, congrArg some hs⟩
  | rules xs =>
      obtain ⟨bs, hbs, hxs⟩ := hs
      have harity : ∀ b ∈ bs, ∀ r ∈ b.2, r.HasArity p.tapeCount := by
        intro b hb r hr
        refine hwf.hasArity r ?_
        rw [← hbs.rules_eq]
        exact List.mem_flatMap.2 ⟨b, hb, hr⟩
      obtain ⟨ys, e, hys⟩ := exists_rules hxs hbs.state_eq harity [] hbs.nodup
      refine ⟨{ d with blocks := some ys }, ?_, bs, ys, rfl, hbs, hys⟩
      rw [Draft.addContent, e]
      rfl

/-! ### Documents -/

/-- A new section that says a part of the program is taken down. -/
theorem Draft.Agrees.exists_add {d : Draft} {s : Placed Section} (h : d.Agrees p) (hp : p.Notable)
    (hwf : p.WellFormed) (hs : Section.Means p s.value)
    (hnew : s.value.kind.part ∉ d.seen.map Kind.part) :
    ∃ d', d.add s = .ok d' ∧ d'.seen = s.value.kind :: d.seen ∧ d'.Agrees p := by
  have hnone {α : Type} {x : Option α} {k : Kind} (hx : x.isSome → k ∈ d.seen.map Kind.part)
      (hk : s.value.kind.part = k) : x = none := by
    by_contra hne
    exact hnew (hk ▸ hx (Option.isSome_iff_ne_none.2 hne))
  obtain ⟨d', e, hhold⟩ := exists_addContent (d := { d with seen := s.value.kind :: d.seen })
    (i := s.span) hp hwf hs (hnone h.tapes_seen) (hnone h.heads_seen)
  obtain ⟨hseen, htapes, hheads, hframe⟩ := extends_of_addContent (p := p) e
  refine ⟨d', ?_, hseen, ?_, fun hsome => ?_, fun hsome => ?_⟩
  -- The kind is new, since its part is.
  · rw [Draft.add, if_neg fun hmem => hnew (List.mem_map_of_mem hmem), e]
  · intro k hk
    rw [hseen] at hk
    rcases List.mem_cons.1 hk with rfl | hk
    · exact hhold
    · exact hframe k (fun hpart => hnew (hpart ▸ List.mem_map_of_mem hk)) (h.holds k hk)
  · rw [hseen, List.map_cons]
    by_cases hk : s.value.kind.part = .tapes
    · exact hk ▸ List.mem_cons_self
    · rw [htapes hk] at hsome
      exact List.mem_cons_of_mem _ (h.tapes_seen hsome)
  · rw [hseen, List.map_cons]
    by_cases hk : s.value.kind.part = .heads
    · exact hk ▸ List.mem_cons_self
    · rw [hheads hk] at hsome
      exact List.mem_cons_of_mem _ (h.heads_seen hsome)

/-- Sections of different parts are all taken down. -/
theorem Draft.Agrees.exists_foldlM {ks : List Kind} {doc : Document} (hp : p.Notable)
    (hwf : p.WellFormed)
    (hdoc : List.Forall₂ (fun k s => s.value.kind = k ∧ Section.Means p s.value) ks doc)
    {d : Draft} (h : d.Agrees p) (hnodup : (ks.map Kind.part ++ d.seen.map Kind.part).Nodup) :
    ∃ d', doc.foldlM Draft.add d = .ok d' ∧ d'.Agrees p ∧
      ∀ k, k ∈ ks ∨ k ∈ d.seen → k ∈ d'.seen := by
  induction hdoc generalizing d with
  | nil => exact ⟨d, rfl, h, by simp⟩
  | @cons k s ks doc hs _ ih =>
      obtain ⟨rfl, hs⟩ := hs
      have hnew : s.value.kind.part ∉ d.seen.map Kind.part := fun hmem =>
        (List.nodup_append.1 hnodup).2.2 _ List.mem_cons_self _ hmem rfl
      obtain ⟨d₁, e, hseen, h₁⟩ := h.exists_add hp hwf hs hnew
      obtain ⟨d', e', h', hmem⟩ := ih h₁ (by
        rw [hseen]
        refine (List.Perm.nodup_iff ?_).1 hnodup
        simpa using List.perm_middle.symm)
      refine ⟨d', ?_, h', ?_⟩
      · rw [List.foldlM_cons, e]
        exact e'
      · intro x hx
        refine hmem x ?_
        rw [hseen]
        simp only [List.mem_cons] at hx ⊢
        tauto

theorem IsComplete.perm_part {ks : List Kind} (h : IsComplete ks) :
    (ks.map Kind.part).Perm
      [.name, .blank, .tapes, .heads, .finals, .maxSteps, .detectLoops, .rules] := by
  obtain ⟨k, hk, k', hk', hperm⟩ := h
  refine (hperm.map Kind.part).trans ?_
  fin_cases hk <;> fin_cases hk' <;> exact .refl _

/-- **A document of all parts of a program gives a draft of it**, whatever the order of its
sections. -/
theorem exists_draft {ks : List Kind} {doc : Document} (hp : p.Notable) (hwf : p.WellFormed)
    (hks : IsComplete ks)
    (hdoc : List.Forall₂ (fun k s => s.value.kind = k ∧ Section.Means p s.value) ks doc) :
    ∃ d, Draft.ofDocument doc = .ok d ∧ ∀ k, d.Holds p k := by
  have hnodup : (ks.map Kind.part ++ ([] : List Kind).map Kind.part).Nodup := by
    rw [List.map_nil, List.append_nil, hks.perm_part.nodup_iff]
    decide
  obtain ⟨d, e, h, hmem⟩ := Draft.Agrees.exists_foldlM hp hwf hdoc .empty hnodup
  refine ⟨d, e, fun k => ?_⟩
  -- A part that is said in one of two ways is there in both.
  have hpart : k.part ∈ ks.map Kind.part := by
    rw [hks.perm_part.mem_iff]
    cases k <;> decide
  obtain ⟨k', hk', hkk'⟩ := List.mem_map.1 hpart
  have hhold := h.holds k' (hmem k' (.inl hk'))
  cases k <;> cases k' <;> first | exact hhold | cases hkk'

/-! ### Programs -/

theorem resolve_eq_self {blank s : Symbol} (h : s = blankMark → blank = blankMark) :
    resolve blank s = s := by
  rw [resolve]
  split
  · next hs => rw [hs, h hs]
  · rfl

/-- In a word of a program an underscore is the blank already. -/
theorem map_resolve_eq_self (hp : p.Notable) {w : Word} (hw : ∀ s ∈ w, s ∈ p.symbols) :
    w.map (resolve p.blank) = w := by
  rw [List.map_congr_left (g := id) fun s hs => ?_, List.map_id]
  exact resolve_eq_self fun e => hp.eq_blankMark (e ▸ hw s hs)

theorem map_resolve_tapes (hp : p.Notable) : p.tapes.map (·.map (resolve p.blank)) = p.tapes := by
  rw [List.map_congr_left (g := id) fun w hw => ?_, List.map_id]
  exact map_resolve_eq_self hp fun s hs => Program.mem_symbols_iff.2 (.inl ⟨w, hw, hs⟩)

theorem map_resolveRule_rules (hp : p.Notable) : p.rules.map (resolveRule p.blank) = p.rules := by
  rw [List.map_congr_left (g := id) fun r hr => ?_, List.map_id]
  have hread : ∀ s ∈ r.read, s ∈ p.symbols := fun s hs =>
    Program.mem_symbols_iff.2 (.inr ⟨r, hr, .inl hs⟩)
  have hwrite : ∀ s ∈ r.write, s ∈ p.symbols := fun s hs =>
    Program.mem_symbols_iff.2 (.inr ⟨r, hr, .inr hs⟩)
  rw [resolveRule, map_resolve_eq_self hp hread, map_resolve_eq_self hp hwrite]
  rfl

theorem flatMap_of_blockAgrees {blank : Symbol} {bs ys : List (State × List Rule)}
    (h : List.Forall₂ (BlockAgrees blank) bs ys) :
    (ys.flatMap Prod.snd).map (resolveRule blank) =
      (bs.flatMap Prod.snd).map (resolveRule blank) := by
  induction h with
  | nil => rfl
  | cons hb _ ih => rw [List.flatMap_cons, List.map_append, hb.2, ih, List.flatMap_cons,
      List.map_append]

/-- **A draft that has all parts of a program is a draft of this program.** -/
theorem Draft.program_eq_ok {d : Draft} (h : ∀ k, d.Holds p k) (hp : p.Notable)
    (hwf : p.WellFormed) : d.program = .ok p := by
  obtain ⟨ws, htapes, hws⟩ := h .tapes
  obtain ⟨ss, hfinals, hss⟩ := h .finals
  obtain ⟨bs, ys, hblocks, hbs, hys⟩ := h .rules
  have hname : d.name = some p.name.toList := h .name
  have hblank : d.blank = some p.blank := h .blank
  have hheads : d.heads = some p.heads := h .heads
  have hmax : d.maxSteps = some p.maxSteps := h .maxSteps
  have hloops : d.detectLoops = some p.detectLoops := h .detectLoops
  have hrules : (ys.flatMap Prod.snd).map (resolveRule p.blank) = p.rules := by
    rw [flatMap_of_blockAgrees hys, hbs.rules_eq, map_resolveRule_rules hp]
  have hlength : ws.length = p.tapeCount := by
    rw [← hwf.tapes_length, ← List.length_map (f := (·.map (resolve p.blank))), hws,
      List.length_map]
  rw [map_resolve_tapes hp] at hws
  -- The initial state of the draft is that of its first block.
  cases hys with
  | nil => cases hbs.initial
  | @cons b y bs ys hy _ =>
      obtain ⟨s, rs⟩ := y
      have hs : s = p.initial := hy.1.trans (Option.some.inj hbs.initial)
      rw [Draft.program, hname, htapes, hblocks]
      simp only [hblank, hfinals, hheads, hmax, hloops, Option.getD_some, hws, hlength, hs,
        StateSet.ofList_eq hss, String.ofList_toList]
      exact congrArg (fun rules => Except.ok { p with rules }) hrules

end TapeMachine.Notation
