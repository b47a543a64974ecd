import TapeMachine.Proofs.Notation.Agreement

/-!
# Notation — Contents

What sections say on related texts.  A relation of texts that is `Congruent` is kept by the readers
of all sections but those of names, and what the sections say is the same but for places
(`agree_anySection`).  A name is the rest of its line, white space and all, and is told from the
other sections by its heading (`IsName`).
-/

namespace TapeMachine.Notation

open Reader Grammar

variable {α β : Type} {S : List Char → List Char → Prop} {u v : List Char} {k : Nat}

/-! ### Tapes -/

theorem agree_symbols (hS : Congruent S) : Agree S 1 (List.Forall₂ (· = ·)) symbols symbols := by
  have hmore := ((agree_literal hS (w := ",") (by decide)).optional.andThen fun _ _ _ =>
    (agree_symbol hS).next hS).next hS
  exact ((agree_symbol hS).bind fun _ _ ha => (hmore.next_many hS).bind fun _ _ has =>
    agree_pure (.cons ha has)).named

theorem Closing.head_ne {u : List Char} (h : Closing u) : ∀ c ∈ u.head?, c ≠ '[' := by
  rintro _ hc rfl
  rcases h with rfl | h
  · cases hc
  · obtain ⟨c, v, hstate, rfl⟩ := h.isHeading.exists_cons
    obtain rfl : c = '[' := Option.some.inj hc
    exact absurd hstate (by decide)

theorem Closing.fails_tapeList (h : Closing u) : Fails tapeList u :=
  (Fails.bind (fails_literal_of_head rfl h.head_ne)).named

theorem agree_tapeList (hS : Congruent S) : Agree S 1 (· = ·) tapeList tapeList := by
  refine ((agree_symbols hS).optional.brackets hS fun a b hab => ?_).named
  cases hab with
  | none => rfl
  | some h => simpa using h

theorem agree_tapeLists (hS : Congruent S) :
    Agree S 1 (· = ·) (next tapeLists) (next tapeLists) := by
  have hline := (agree_tapeList hS).lines hS (fun _ h => h.fails_tapeList)
    fun _ h => h.fails_tapeList
  have hread : Agree S 1 (· = ·)
      (do
        let a ← next do let _ ← many lineBreak; next tapeList
        let more ← next (many do let _ ← many lineBreak; next tapeList)
        return a :: more)
      (do
        let a ← next do let _ ← many lineBreak; next tapeList
        let more ← next (many do let _ ← many lineBreak; next tapeList)
        return a :: more) := by
    refine hline.bind fun a _ ha => (hline.next_many hS).bind fun as bs has => ?_
    obtain rfl : as = bs := by simpa using has
    rw [ha]
    exact agree_pure rfl
  refine hread.congr ?_ ?_ <;>
  · intro c
    simp only [tapeLists, Grammar.next, result_bind, Option.bind_assoc]

/-! ### Rules -/

section

variable {V : α → β → Prop} {p : Reader α} {q : Reader β}

theorem Agree.written (h : Agree S k V p q) (hS : Congruent S) :
    Agree S 0 (Option.Rel V) (written p) (written q) := by
  have harrow : Agree S 1 V (do literal "->"; Grammar.next p) (do literal "->"; Grammar.next q) :=
    (agree_literal hS (by decide)).bind fun _ _ _ =>
      (h.next hS).mono (fun _ _ h => h) (Nat.zero_le k)
  exact harrow.optional.next hS

end

theorem agree_comma (hS : Congruent S) :
    Agree S 0 (· = ·) (next (literal ",")) (next (literal ",")) :=
  ((agree_literal hS (by decide)).next hS).mono (fun _ _ h => h) (Nat.zero_le 1)

theorem agree_target (hS : Congruent S) : Agree S 0 (· = ·) target target :=
  (agree_comma hS).bind fun _ _ _ => ((agree_state hS).next hS).mono (fun _ _ h => h) (Nat.zero_le 1)

/-- The parts of an action, with brackets or without. -/
theorem agree_parts {V : α → α → Prop} {W : β → β → Prop} {word : Reader α} {move : Reader β}
    {mk : α → Option α → β → State → Action} (hS : Congruent S) (hword : Agree S 1 V word word)
    (hmove : Agree S 1 W move move)
    (hmk : ∀ a a' x x' m m' s, V a a' → Option.Rel V x x' → W m m' → mk a x m s = mk a' x' m' s) :
    Agree S 1 (· = ·)
      (do
        let read ← word
        let write ← written word
        next (literal ",")
        let moves ← next move
        let next ← target
        return mk read write moves next)
      (do
        let read ← word
        let write ← written word
        next (literal ",")
        let moves ← next move
        let next ← target
        return mk read write moves next) := by
  refine hword.bind fun a a' ha => (hword.written hS).bind fun x x' hx => ?_
  refine (agree_comma hS).bind fun _ _ _ => ?_
  refine ((hmove.next hS).mono (fun _ _ h => h) (Nat.zero_le 1)).bind fun m m' hm => ?_
  refine (agree_target hS).bind fun s _ hs => ?_
  rw [hmk a a' x x' m m' s ha hx hm, hs]
  exact agree_pure rfl

theorem option_eq_of_rel {x y : Option α} (h : Option.Rel (· = ·) x y) : x = y := by
  cases h with
  | some h => rw [h]
  | none => rfl

theorem agree_singleAction (hS : Congruent S) : Agree S 1 (· = ·) singleAction singleAction := by
  refine (agree_parts hS (agree_symbol hS) (agree_direction hS) ?_).named
  rintro a _ x x' m _ s rfl hx rfl
  rw [option_eq_of_rel hx]

theorem agree_symbolList (hS : Congruent S) : Agree S 1 (· = ·) symbolList symbolList :=
  (((agree_symbol hS).listOf hS).brackets hS fun _ _ h => by simpa using h).named

theorem agree_directionList (hS : Congruent S) : Agree S 1 (· = ·) directionList directionList :=
  (((agree_direction hS).listOf hS).brackets hS fun _ _ h => by simpa using h).named

theorem agree_listAction (hS : Congruent S) : Agree S 1 (· = ·) listAction listAction := by
  refine (agree_parts hS (agree_symbolList hS) (agree_directionList hS) ?_).named
  rintro a _ x x' m _ s rfl hx rfl
  rw [option_eq_of_rel hx]

theorem agree_action (hS : Congruent S) :
    Agree S 1 (fun x y => x.value = y.value) action action :=
  ((agree_listAction hS).orElse (agree_singleAction hS)).named.placed

theorem Closing.fails_action (h : Closing u) : Fails action u := by
  rcases h with rfl | h
  · exact fun _ => rfl
  · exact h.isHeading.fails_action

theorem agree_keyword (hS : Congruent S) : Agree S 1 (· = ·) keyword keyword := by
  refine Agree.bind (V := fun _ _ => True) (agree_firstOf ?_) fun _ _ _ =>
    ((agree_literal hS (w := ":") (by decide)).next hS).mono (fun _ _ h => h) (Nat.zero_le 1)
  have hwords : ∀ ws : List String, (∀ w ∈ ws, IsInkWord w.toList) →
      List.Forall₂ (Agree S 1 fun _ _ => True) (ws.map literal) (ws.map literal) := by
    intro ws hws
    induction ws with
    | nil => exact .nil
    | cons w ws ih =>
        obtain ⟨hw, hws⟩ := List.forall_mem_cons.1 hws
        exact .cons ((agree_literal hS hw).mono (fun _ _ _ => trivial) le_rfl) (ih hws)
  exact hwords _ (by decide)

/-- A value as it stands at the start, wherever it stands. -/
def Placed.bare {α : Type} (a : α) : Placed α := ⟨⟨0, 0⟩, a⟩

@[simp]
theorem Placed.value_bare {α : Type} (a : α) : (Placed.bare a).value = a := rfl

/-- A block without the places of its actions. -/
def Block.bare (b : Block) : Block := ⟨b.state, b.actions.map fun a => .bare a.value⟩

theorem Closing.fails_block (h : Closing u) : Fails block u := by
  rcases h with rfl | h
  · exact fun _ => rfl
  · exact h.fails_block

theorem agree_block (hS : Congruent S) :
    Agree S 1 (fun x y => x.value.bare = y.value.bare) block block := by
  have hline := (agree_action hS).line hS (fun _ h => h.fails_action) fun _ h => h.fails_action
  have hcolon := ((agree_literal hS (w := ":") (by decide)).next hS).mono (j := 0) (fun _ _ h => h)
    (Nat.zero_le 1)
  refine Agree.placed (V := fun x y => Block.bare x = Block.bare y) (Agree.named ?_)
  refine (agree_keyword hS).notAhead.andThen (k := 1) fun _ _ _ => ?_
  refine ((agree_state hS).next hS).bind fun s _ hs => hcolon.bind fun _ _ _ => ?_
  refine (hline.next_many hS).bind fun as bs has => agree_pure ?_
  rw [Block.bare, Block.bare, hs]
  exact congrArg _ (map_eq_of_forall₂ (has.flip.imp fun _ _ h => congrArg Placed.bare h))

theorem agree_blocks (hS : Congruent S) :
    Agree S 0 (fun xs ys => xs.map (·.value.bare) = ys.map (·.value.bare)) (next blocks)
      (next blocks) := by
  have hline := (agree_block hS).line hS (fun _ h => h.fails_block) fun _ h => h.fails_block
  exact (hline.next_many hS).mono (fun _ _ h => map_eq_of_forall₂ h.flip) le_rfl

/-! ### Sections -/

/-- What a section says, wherever it stands. -/
def Section.bare : Section → Section
  | .name text => .name (trim text)
  | .head position => .head (.bare position.value)
  | .heads positions => .heads (positions.map fun x => .bare x.value)
  | .maxSteps count => .maxSteps (.bare count.value)
  | .rules blocks => .rules (blocks.map fun b => .bare b.value.bare)
  | s => s

/-- The heading of a name. -/
def IsName (u : List Char) : Prop := ∃ w, Headed "name".toList u w

/-- Where something other than the end of a line comes after a gap, the gap is of blanks. -/
theorem indented_of_afterGap {c : Char} (h : afterGap u = c :: v) (hc : ¬ isLineEnd c) :
    Indented u (c :: v) := by
  induction u with
  | nil => cases h
  | cons d u ih =>
      rcases solid_or (d :: u) with hsolid | ⟨d', u', hd, e⟩ | ⟨u', e⟩
      · rw [← h, afterGap_of_solid hsolid]
        exact .refl _
      · obtain ⟨rfl, rfl⟩ := List.cons.inj e
        rw [afterGap_blank hd] at h
        obtain ⟨g, hg, e⟩ := ih h
        exact ⟨d :: g, List.forall_mem_cons.2 ⟨hd, hg⟩, by rw [e]; rfl⟩
      · obtain ⟨rfl, rfl⟩ := List.cons.inj e
        rw [afterGap_comment] at h
        rcases lineRest_cases u with hnil | ⟨e, w, he, hcons⟩
        · rw [hnil] at h
          cases h
        · rw [hcons] at h
          obtain ⟨rfl, -⟩ := List.cons.inj h
          exact absurd he hc

/-- A heading is read where it is, and only there. -/
theorem exists_headed_of_result {word : String} {x : Unit × Cursor} {n : Nat}
    (h : ((do literal word; next (literal ":")) ⟨u, n⟩ : Reply Unit).result = some x) :
    ∃ w, Headed word.toList u w := by
  rw [result_bind, Option.bind_eq_some_iff] at h
  obtain ⟨⟨⟨⟩, c⟩, h₁, h₂⟩ := h
  obtain ⟨m, hm⟩ := exists_next (literal ":") c.rest c.offset
  have hword := result_characters h₁
  have hcolon : afterGap c.rest = ':' :: x.2.rest := result_characters (hm.symm.trans h₂)
  obtain ⟨g, hg, hrest⟩ := indented_of_afterGap hcolon (by decide)
  exact ⟨x.2.rest, g, hg, by rw [← hrest]; exact hword⟩

theorem IsName.exists_result (h : IsName u) (n : Nat) :
    ∃ x, ((do literal "name"; next (literal ":")) ⟨u, n⟩ : Reply Unit).result = some x := by
  obtain ⟨w, g, hg, rfl⟩ := h
  obtain ⟨a, v, m, -, -, e⟩ := ((takes_literal "name").bind fun _ _ => takesOn_colon (v := w) hg) n
  exact ⟨_, e⟩

/-- Without its heading there is no section. -/
theorem fails_headed_of_not {word : String} {q : Reader α} (h : ¬ ∃ w, Headed word.toList u w) :
    Fails (headed word q) u := by
  refine Fails.named fun n => ?_
  have hfail : ((do literal word; next (literal ":")) ⟨u, n⟩ : Reply Unit).result = none := by
    rw [Option.eq_none_iff_forall_not_mem]
    exact fun x hx => h (exists_headed_of_result hx)
  rw [result_bind] at hfail ⊢
  cases e : (literal word ⟨u, n⟩).result with
  | none => rfl
  | some x =>
      rw [e, Option.bind_some] at hfail
      rw [Option.bind_some, result_bind, hfail]
      rfl

theorem Congruent.isName (hS : Congruent S) (huv : S u v) : IsName u ↔ IsName v := by
  have hcolon := ((agree_literal hS (w := ":") (by decide)).next hS).mono (j := 0) (fun _ _ h => h)
    (Nat.zero_le 1)
  have hheading : Agree S 1 (· = ·) (do literal "name"; next (literal ":"))
      (do literal "name"; next (literal ":")) :=
    (agree_literal hS (by decide)).bind fun _ _ _ => hcolon
  have hpq := hheading u v 0 0 huv
  constructor <;> intro h <;> obtain ⟨x, hx⟩ := h.exists_result 0
  · rw [hx] at hpq
    generalize hy : Reply.result _ = y at hpq
    cases hpq
    exact exists_headed_of_result hy
  · rw [hx] at hpq
    generalize hy : Reply.result _ = y at hpq
    cases hpq
    exact exists_headed_of_result hy

theorem agree_finalStates (hS : Congruent S) : Agree S 1 (· = ·) finalStates finalStates := by
  have hstates := (agree_state hS).listOf hS
  exact (hstates.brackets hS fun _ _ h => by simpa using h).orElse
    (hstates.mono (fun _ _ h => by simpa using h) le_rfl)

/-- A section of one kind. -/
theorem agree_section {V : α → α → Prop} {q : Reader α} {word : String} {f : α → Section}
    (hS : Congruent S) (hq : Agree S 0 V (next q) (next q))
    (hw : IsInkWord word.toList)
    (hf : ∀ a b, V a b → (f a).bare = (f b).bare) :
    Agree S 1 (fun x y => Section.bare x = Section.bare y) (f <$> headed word q)
      (f <$> headed word q) :=
  (hq.headed hS hw).map hf

/-- **A section says the same** on texts that a congruent relation relates, unless it is a name. -/
theorem agree_anySection (hS : Congruent S) (huv : S u v) (hu : ¬ IsName u) (n m : Nat) :
    Option.Rel (Readings S 1 (fun x y => x.value.bare = y.value.bare) u v)
      (anySection ⟨u, n⟩).result (anySection ⟨v, m⟩).result := by
  have hzero {a b : Type} {V : a → b → Prop} {p : Reader a} {q : Reader b} {k : Nat}
      (h : Agree S k V p q) : Agree S 0 V (next p) (next q) :=
    (h.next hS).mono (fun _ _ h => h) (Nat.zero_le k)
  have hname {w : List Char} (hw : ¬ IsName w) :
      Fails (Section.name <$> headed "name" text) w := (fails_headed_of_not hw).map
  rw [anySection, result_placed, result_placed]
  refine readings_placed (V := fun x y => Section.bare x = Section.bare y) ?_
  rw [firstOf, result_orElse, hname hu, result_orElse, hname fun h => hu ((hS.isName huv).2 h)]
  refine agree_firstOf ?_ u v n m huv
  refine .cons (agree_section hS (hzero (agree_symbol hS)) (by decide) ?_) <|
    .cons (agree_section hS ((agree_tapeLists hS).mono (fun _ _ h => h) (Nat.zero_le 1))
      (by decide) ?_) <|
    .cons (agree_section hS (hzero (agree_symbols hS).optional) (by decide) ?_) <|
    .cons (agree_section hS (hzero (((agree_index hS).listOf hS).brackets hS fun _ _ h => h))
      (by decide) ?_) <|
    .cons (agree_section hS (hzero (agree_index hS)) (by decide) ?_) <|
    .cons (agree_section hS (hzero (agree_finalStates hS)) (by decide) ?_) <|
    .cons (agree_section hS (hzero (agree_number hS)) (by decide) ?_) <|
    .cons (agree_section hS (hzero (agree_boolean hS)) (by decide) ?_) <|
    .cons (agree_section hS (agree_blocks hS) (by decide) ?_) .nil
  · rintro a _ rfl
    rfl
  · rintro a _ rfl
    rfl
  · intro a b hab
    cases hab with
    | none => rfl
    | some h =>
        obtain rfl := List.forall₂_eq_eq_eq ▸ h
        rfl
  · intro xs ys h
    have hmap : ys.map (fun x => Placed.bare x.value) = xs.map fun x => .bare x.value :=
      map_eq_of_forall₂ (h.imp fun _ _ h => by rw [h])
    rw [Section.bare, Section.bare, hmap]
  · intro x y h
    rw [Section.bare, Section.bare, h]
  · rintro a _ rfl
    rfl
  · intro x y h
    rw [Section.bare, Section.bare, h]
  · rintro a _ rfl
    rfl
  · intro xs ys h
    have hmap := congrArg (List.map (Placed.bare (α := Block))) h
    simp only [List.map_map] at hmap
    exact congrArg Section.rules hmap

end TapeMachine.Notation
