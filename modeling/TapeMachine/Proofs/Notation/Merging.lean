import TapeMachine.Proofs.Notation.Outline

/-!
# Notation — Merging

The order in which sections are taken down does not count (`exists_ofSections_of_perm`).  A section
adds to a draft what it would say by itself (`addContent_eq_ok_iff`), and what two sections of one
draft say are different parts of it, so that either may be taken down first (`exists_add_swap`).
-/

namespace TapeMachine.Notation

variable {d d' e f : Draft} {i : Span} {s s' : Section}

/-! ### One section -/

/-- A draft with what another one has beside it. -/
def Draft.merge (d e : Draft) : Draft where
  seen := d.seen
  name := e.name.or d.name
  blank := e.blank.or d.blank
  tapes := e.tapes.or d.tapes
  heads := e.heads.or d.heads
  finals := e.finals.or d.finals
  maxSteps := e.maxSteps.or d.maxSteps
  detectLoops := e.detectLoops.or d.detectLoops
  blocks := e.blocks.or d.blocks

/-- There is room in the draft for the tapes or heads of a section, if it has any. -/
structure Draft.HasRoom (d : Draft) (k : Kind) : Prop where
  tapes : k.part = .tapes → d.tapes = none
  heads : k.part = .heads → d.heads = none

theorem hasRoom_of_part {k : Kind} (h : k.part ≠ .tapes) (h' : k.part ≠ .heads) : d.HasRoom k :=
  ⟨fun e => absurd e h, fun e => absurd e h'⟩

theorem hasRoom_of_tapes {k : Kind} (h : k.part = .tapes) : d.HasRoom k ↔ d.tapes = none :=
  ⟨fun hroom => hroom.tapes h, fun hd => ⟨fun _ => hd, fun e => absurd (h.symm.trans e) (by decide)⟩⟩

theorem hasRoom_of_heads {k : Kind} (h : k.part = .heads) : d.HasRoom k ↔ d.heads = none :=
  ⟨fun hroom => hroom.heads h, fun hd => ⟨fun e => absurd (h.symm.trans e) (by decide), fun _ => hd⟩⟩

/-- A section adds to a draft what it says by itself. -/
theorem addContent_eq_ok_iff : d.addContent i s = .ok d' ↔
    ∃ e, ({} : Draft).addContent i s = .ok e ∧ d.HasRoom s.kind ∧ d.merge e = d' := by
  cases s with
  | name _ | blank _ | finals _ | detectLoops _ =>
      constructor
      · rintro ⟨⟩
        refine ⟨_, rfl, hasRoom_of_part ?_ ?_, rfl⟩ <;> simp [Section.kind, Kind.part]
      · rintro ⟨e, ⟨⟩, -, rfl⟩
        rfl
  | tape _ | tapes _ =>
      simp only [Draft.addContent, addTapes_eq_ok]
      constructor
      · rintro ⟨hd, rfl⟩
        exact ⟨_, ⟨trivial, rfl⟩, (hasRoom_of_tapes rfl).2 hd, rfl⟩
      · rintro ⟨e, ⟨-, rfl⟩, hroom, rfl⟩
        exact ⟨(hasRoom_of_tapes rfl).1 hroom, rfl⟩
  | head _ | heads _ =>
      simp only [Draft.addContent, addHeads_eq_ok]
      constructor
      · rintro ⟨hd, is, his, rfl⟩
        exact ⟨_, ⟨trivial, is, his, rfl⟩, (hasRoom_of_heads rfl).2 hd, rfl⟩
      · rintro ⟨e, ⟨-, is, his, rfl⟩, hroom, rfl⟩
        exact ⟨(hasRoom_of_heads rfl).1 hroom, is, his, rfl⟩
  | maxSteps _ | rules _ =>
      simp only [Draft.addContent, bind_eq_ok_iff]
      constructor
      · rintro ⟨a, ha, ⟨⟩⟩
        refine ⟨_, ⟨a, ha, rfl⟩, hasRoom_of_part ?_ ?_, rfl⟩ <;> simp [Section.kind, Kind.part]
      · rintro ⟨e, ⟨a, ha, ⟨⟩⟩, -, rfl⟩
        exact ⟨a, ha, rfl⟩

/-- The draft has no part but that of a kind, and has it if it is of tapes or heads. -/
structure Draft.HasOnly (e : Draft) (k : Kind) : Prop where
  name : k ≠ .name → e.name = none
  blank : k ≠ .blank → e.blank = none
  tapes : k.part ≠ .tapes ↔ e.tapes = none
  heads : k.part ≠ .heads ↔ e.heads = none
  finals : k ≠ .finals → e.finals = none
  maxSteps : k ≠ .maxSteps → e.maxSteps = none
  detectLoops : k ≠ .detectLoops → e.detectLoops = none
  blocks : k ≠ .rules → e.blocks = none

theorem hasOnly_of_addContent (h : ({} : Draft).addContent i s = .ok e) : e.HasOnly s.kind := by
  cases s with
  | name _ | blank _ | finals _ | detectLoops _ =>
      cases h
      constructor <;> simp [Section.kind, Kind.part]
  | tape _ | tapes _ =>
      obtain ⟨-, rfl⟩ := addTapes_eq_ok.1 h
      constructor <;> simp [Section.kind, Kind.part]
  | head _ | heads _ =>
      obtain ⟨-, is, -, rfl⟩ := addHeads_eq_ok.1 h
      constructor <;> simp [Section.kind, Kind.part]
  | maxSteps _ | rules _ =>
      obtain ⟨a, -, h⟩ := bind_eq_ok_iff.1 h
      cases h
      constructor <;> simp [Section.kind, Kind.part]

/-- A section is taken down if it is the first one of its kind and there is room. -/
theorem add_eq_ok_iff {s : Placed Section} : d.add s = .ok d' ↔ s.value.kind ∉ d.seen ∧
    ∃ e, ({} : Draft).addContent s.span s.value = .ok e ∧ d.HasRoom s.value.kind ∧
      { d.merge e with seen := s.value.kind :: d.seen } = d' := by
  rw [Draft.add]
  split
  · next h => simp [h]
  · next h =>
      rw [addContent_eq_ok_iff]
      constructor
      · rintro ⟨e, he, hroom, hd⟩
        exact ⟨h, e, he, ⟨hroom.tapes, hroom.heads⟩, hd⟩
      · rintro ⟨-, e, he, hroom, hd⟩
        exact ⟨e, he, ⟨hroom.tapes, hroom.heads⟩, hd⟩

/-! ### Two sections -/

/-- The drafts have the same parts, from sections in any order. -/
structure Draft.Equiv (d d' : Draft) : Prop where
  seen : d.seen.Perm d'.seen
  parts : d' = { d with seen := d'.seen }

theorem Draft.Equiv.refl (d : Draft) : d.Equiv d := ⟨.refl _, rfl⟩

theorem Draft.Equiv.trans (h : d.Equiv e) (h' : e.Equiv f) : d.Equiv f :=
  ⟨h.seen.trans h'.seen, by rw [h'.parts, h.parts]⟩

/-- What is seen so far does not count for a program. -/
theorem Draft.Equiv.program_eq (h : d.Equiv d') : d'.program = d.program := by
  rw [h.parts]
  rfl

/-- What a section adds does not depend on the order of those before it. -/
theorem Draft.Equiv.exists_add {s : Placed Section} (h : d.Equiv d') (he : d.add s = .ok e) :
    ∃ e', d'.add s = .ok e' ∧ e.Equiv e' := by
  obtain ⟨hs, x, hx, hroom, rfl⟩ := add_eq_ok_iff.1 he
  refine ⟨_, add_eq_ok_iff.2 ⟨fun hmem => hs (h.seen.mem_iff.2 hmem), x, hx, ?_, rfl⟩,
    h.seen.cons _, ?_⟩
  · rw [h.parts]
    exact ⟨hroom.tapes, hroom.heads⟩
  · rw [h.parts]
    rfl

/-- Of two sections one has tapes at most, if the second one has found room. -/
theorem Draft.HasRoom.of_merge {k k' : Kind} (h : (d.merge e).HasRoom k')
    (he : e.HasOnly k) : d.HasRoom k' ∧ (k'.part = .tapes → k.part ≠ .tapes) ∧
      (k'.part = .heads → k.part ≠ .heads) := by
  have htapes (hk : k'.part = .tapes) : e.tapes = none ∧ d.tapes = none :=
    Option.or_eq_none_iff.1 (h.tapes hk)
  have hheads (hk : k'.part = .heads) : e.heads = none ∧ d.heads = none :=
    Option.or_eq_none_iff.1 (h.heads hk)
  exact ⟨⟨fun hk => (htapes hk).2, fun hk => (hheads hk).2⟩, fun hk => he.tapes.2 (htapes hk).1,
    fun hk => he.heads.2 (hheads hk).1⟩

/-- No part is in both drafts. -/
structure Draft.Apart (x y : Draft) : Prop where
  name : x.name = none ∨ y.name = none
  blank : x.blank = none ∨ y.blank = none
  tapes : x.tapes = none ∨ y.tapes = none
  heads : x.heads = none ∨ y.heads = none
  finals : x.finals = none ∨ y.finals = none
  maxSteps : x.maxSteps = none ∨ y.maxSteps = none
  detectLoops : x.detectLoops = none ∨ y.detectLoops = none
  blocks : x.blocks = none ∨ y.blocks = none

theorem or_or_swap {α : Type} {x y z : Option α} (h : x = none ∨ y = none) :
    y.or (x.or z) = x.or (y.or z) := by
  obtain rfl | rfl := h <;> simp

theorem Draft.Apart.merge_swap {x y : Draft} (h : x.Apart y) (d : Draft) :
    (d.merge x).merge y = (d.merge y).merge x := by
  simp only [merge, or_or_swap h.name, or_or_swap h.blank, or_or_swap h.tapes, or_or_swap h.heads,
    or_or_swap h.finals, or_or_swap h.maxSteps, or_or_swap h.detectLoops, or_or_swap h.blocks]

/-- Sections of different kinds that do not both have tapes, or both heads, have nothing in
common. -/
theorem Draft.HasOnly.apart {x y : Draft} {k k' : Kind} (hx : x.HasOnly k) (hy : y.HasOnly k')
    (hne : k ≠ k') (htapes : k'.part = .tapes → k.part ≠ .tapes)
    (hheads : k'.part = .heads → k.part ≠ .heads) : x.Apart y := by
  have hfield {α : Type} {u v : Option α} {l : Kind} (hu : k ≠ l → u = none)
      (hv : k' ≠ l → v = none) : u = none ∨ v = none := by
    by_cases h : k = l
    · exact .inr (hv fun h' => hne (h.trans h'.symm))
    · exact .inl (hu h)
  have hpart {u v : Prop} {l : Kind} (hu : k.part ≠ l → u) (hv : k'.part ≠ l → v)
      (hl : k'.part = l → k.part ≠ l) : u ∨ v := by
    by_cases h : k'.part = l
    · exact .inl (hu (hl h))
    · exact .inr (hv h)
  exact ⟨hfield hx.name hy.name, hfield hx.blank hy.blank, hpart hx.tapes.1 hy.tapes.1 htapes,
    hpart hx.heads.1 hy.heads.1 hheads, hfield hx.finals hy.finals, hfield hx.maxSteps hy.maxSteps,
    hfield hx.detectLoops hy.detectLoops, hfield hx.blocks hy.blocks⟩

/-- **Two sections may change places.** -/
theorem exists_add_swap {a b : Placed Section} (ha : d.add a = .ok e) (hb : e.add b = .ok f) :
    ∃ e' f', d.add b = .ok e' ∧ e'.add a = .ok f' ∧ f.Equiv f' := by
  obtain ⟨hda, x, hx, hroom, rfl⟩ := add_eq_ok_iff.1 ha
  obtain ⟨heb, y, hy, hroom', rfl⟩ := add_eq_ok_iff.1 hb
  have hne := List.ne_of_not_mem_cons heb
  have hdb := List.not_mem_of_not_mem_cons heb
  have honly := hasOnly_of_addContent hx
  have honly' := hasOnly_of_addContent hy
  obtain ⟨hroomb, htapes, hheads⟩ :=
    Draft.HasRoom.of_merge (d := d) (e := x) ⟨hroom'.tapes, hroom'.heads⟩ honly
  refine ⟨_, _, add_eq_ok_iff.2 ⟨hdb, y, hy, hroomb, rfl⟩,
    add_eq_ok_iff.2 ⟨List.not_mem_cons_of_ne_of_not_mem hne.symm hda, x, hx, ?_, rfl⟩,
    .swap _ _ _, ?_⟩
  · -- What the second section has left open is still open for the first one.
    refine ⟨fun h => ?_, fun h => ?_⟩
    · exact Option.or_eq_none_iff.2 ⟨honly'.tapes.1 fun h' => htapes h' h, hroom.tapes h⟩
    · exact Option.or_eq_none_iff.2 ⟨honly'.heads.1 fun h' => hheads h' h, hroom.heads h⟩
  · have hswap := (honly.apart honly' (Ne.symm hne) htapes hheads).merge_swap d
    exact congrArg (fun e : Draft => { e with seen := a.value.kind :: b.value.kind :: d.seen })
      hswap.symm

/-- **The order of the sections does not count.** -/
theorem exists_ofSections_of_perm {ss ss' : List Section} (h : ss.Perm ss')
    (hd : Draft.ofSections ss = .ok d) :
    ∃ d', Draft.ofSections ss' = .ok d' ∧ d'.program = d.program := by
  obtain ⟨d', hd', heq⟩ := exists_foldlM_of_perm (f := Draft.add) Draft.Equiv.refl
    Draft.Equiv.trans Draft.Equiv.exists_add exists_add_swap (h.map Placed.bare) hd
  exact ⟨d', hd', heq.program_eq⟩

end TapeMachine.Notation
