import TapeMachine.Proofs.Notation.Lines

/-!
# Notation — Rules

The readers of actions and of blocks.  An action is told from the heading of a block by what follows
its first symbol (`IsHeading.fails_action`), and the heading of a block from that of a section by
its word alone (`IsSectionHeading.fails_block`).
-/

namespace TapeMachine

namespace Notation

open Reader Grammar

/-- A rule with the blank in the place of its mark. -/
def resolveRule (blank : Symbol) (r : Rule) : Rule :=
  { r with read := r.read.map (resolve blank), write := r.write.map (resolve blank) }

/-- An action of the block of a rule's state is the rule, up to marks of the blank. -/
def Action.Means (blank : Symbol) (r : Rule) (a : Action) : Prop :=
  resolveRule blank (a.rule r.state) = resolveRule blank r

variable {α β γ : Type} {u v w : List Char} {blank : Symbol}

/-! ### More tokens -/

theorem Token.mono {p : Reader α} {item : β → List Char → Prop} {R S : β → α → Prop}
    (h : Token p item R) (hRS : ∀ b a, R b a → S b a) : Token p item S where
  takes hb hw := (h.takes hb hw).mono (hRS _) (.refl _)
  ink hb := h.ink hb

theorem Token.alone {p : Reader α} {item : β → List Char → Prop} {R : β → α → Prop}
    (h : Token p item R) : Token p (Alone item) fun bs a => ∃ b, bs = [b] ∧ R b a where
  takes := by
    rintro _ t w ⟨b, rfl, hb⟩ hw
    exact (h.takes hb hw).mono (fun a ha => ⟨b, rfl, ha⟩) (.refl w)
  ink := by
    rintro _ t w ⟨b, rfl, hb⟩
    exact h.ink hb

theorem Token.list {p : Reader α} {item : β → List Char → Prop} {R : β → α → Prop}
    (h : Token p item R) : Token (bracketed (listOf p)) (ListText item) (List.Forall₂ R) where
  takes hb _ := h.takes_list hb
  ink hb := hb.ink

theorem Token.named {p : Reader α} {item : β → List Char → Prop} {R : β → α → Prop}
    (h : Token p item R) : Token (named p) item R where
  takes hb hw := (h.takes hb hw).named
  ink hb := h.ink hb

/-! ### Actions -/

/-- The comma of an action, and blanks around it. -/
theorem takesOn_comma : TakesOn (next (literal ",")) (',' :: v) (fun _ => True) v :=
  (takes_literal ",").next (solid_cons (by decide))

/-- What is written, before a comma. -/
theorem Token.takesOn_written {p : Reader α} {item : β → List Char → Prop} {R : β → α → Prop}
    (h : Token p item R) {a b : β} {t : List Char} (ht : ArrowText item a b t)
    (hv : Indented v (',' :: w)) :
    TakesOn (written p) (t ++ v) (fun x => x = none ∧ b = a ∨ ∃ c, R b c ∧ x = some c)
      (',' :: w) := by
  cases ht with
  | kept =>
      have hfail : Fails (literal "->") (',' :: w) := fails_literal (by simp)
      refine TakesOn.indent ?_ hv
      refine (hfail.bind.optional.mono ?_ (.refl _)).next (solid_cons (by decide))
      rintro _ rfl
      exact .inl ⟨rfl, rfl⟩
  | @written b g u x hg hu hx =>
      have hcut : Cut v := by
        obtain ⟨g', hg', rfl⟩ := hv
        exact hg'.cut (cut_cons (by decide))
      have hread : Takes (do literal "->"; next p) ('-' :: '>' :: (u ++ v)) (R b) (',' :: w) :=
        (takes_literal "->").bind fun _ _ =>
          ((h.takesOn_next hx hcut).indent (hu.append v)).mono (fun _ ha => ha) hv.alike
      simp only [List.append_assoc, List.cons_append]
      refine (hread.optional.mono ?_ (.refl _)).next (solid_cons (by decide)) |>.indent
        (hg.indented _)
      exact fun _ => .inr

theorem MarkedText.head_ne {s : Symbol} {t : List Char} (h : MarkedText blank s t) :
    ∀ c ∈ (t ++ v).head?, c ≠ '[' := by
  have hsymbol (s : Symbol) (hs : SymbolText s t) : ∀ c ∈ (t ++ v).head?, c ≠ '[' := by
    cases hs with
    | quoted =>
        rintro _ ⟨⟩
        decide
    | plain hs _ =>
        rintro _ ⟨⟩ rfl
        exact hs (by decide)
  exact h.elim (hsymbol s) fun h => hsymbol _ h.2

theorem IsStateChar.toNat_mem {c : Char} (h : IsStateChar c) : 48 ≤ c.toNat ∧ c.toNat ≤ 122 := by
  rcases h with h | rfl
  · have hcases : (65 ≤ c.toNat ∧ c.toNat ≤ 90) ∨ (97 ≤ c.toNat ∧ c.toNat ≤ 122) ∨
        (48 ≤ c.toNat ∧ c.toNat ≤ 57) := by
      rcases Bool.or_eq_true_iff.1 h with h | h
      · rcases Bool.or_eq_true_iff.1 h with h | h
        · exact .inl (of_decide_eq_true h)
        · exact .inr (.inl ((Bool.and_eq_true_iff.1 h).imp of_decide_eq_true of_decide_eq_true))
      · exact .inr (.inr ((Bool.and_eq_true_iff.1 h).imp of_decide_eq_true of_decide_eq_true))
    omega
  · decide

theorem IsStateChar.isWhiteSpace_eq {c : Char} (h : IsStateChar c) : isWhiteSpace c = false := by
  have hrange := h.toNat_mem
  simp only [isWhiteSpace, Bool.or_eq_false_iff, Bool.and_eq_false_iff, decide_eq_false_iff_not]
  omega

/-- A character of a name is a symbol without quotes. -/
theorem symbolText_of_isStateChar {c : Char} (hc : IsStateChar c) : SymbolText c [c] := by
  refine .plain (fun hmem => ?_) hc.isWhiteSpace_eq
  fin_cases hmem <;> exact absurd hc (by decide)

theorem ArrowText.cut {item : α → List Char → Prop} {a b : α} {t : List Char}
    (h : ArrowText item a b t) (hv : Cut v) : Cut (t ++ v) := by
  cases h with
  | kept => exact hv
  | written hg _ _ =>
      rw [List.append_assoc]
      exact hg.cut (cut_cons (by decide))

/-- The parts of an action, with brackets or without: `word` and `move` are the readers of what is
read or written and of the moves, and `f` and `h` make lists of what they read. -/
theorem takes_parts {word : Reader α} {move : Reader γ} {wordText : Word → List Char → Prop}
    {movesText : List Move → List Char → Prop} {f : α → Word} {h : γ → List Move}
    {mk : α → Option α → γ → State → Action}
    (hword : Token word wordText fun ss a => (f a).map (resolve blank) = ss.map (resolve blank))
    (hmove : Token move movesText fun ms m => h m = ms)
    (hmk : ∀ a x m s, mk a x m s = ⟨f a, x.map f, h m, s⟩) {r : Rule} {t : List Char}
    (ht : ActionText wordText movesText r t) (hv : Cut v) :
    Takes (do
      let read ← word
      let write ← written word
      next (literal ",")
      let moves ← next move
      let next ← target
      return mk read write moves next) (t ++ v) (Action.Means blank r) v := by
  cases ht with
  | @intro t u g m g' n hread hwrite hg hmoves hg' hnext =>
      obtain ⟨x, y, hx, hy, rfl⟩ := hg
      have hcut : Cut (u ++ (x ++ ',' :: (y ++ (m ++ (g' ++ (n ++ v)))))) :=
        hwrite.cut (hx.cut (cut_cons (by decide)))
      have hmove' := (hmove.takesOn_next hmoves (hg'.cut (u := n ++ v))).indent (hy.indented _)
      simp only [List.append_assoc, List.cons_append]
      refine (hword.takes hread hcut).bind fun a ha => ?_
      refine (hword.takesOn_written hwrite (hx.indented _)).bind fun b hb => ?_
      refine takesOn_comma.bind fun _ _ => hmove'.bind fun c hc => ?_
      refine TakesOn.bind (R := (· = r.next)) ?_ fun s hs => takesOn_pure ?_
      · exact (hg'.takesOn fun v => takes_literal ",").bind fun _ _ =>
          token_state.takesOn_next hnext hv
      · rw [Action.Means, hmk]
        rcases hb with ⟨rfl, hrw⟩ | ⟨b, hb, rfl⟩
        · simp [Action.rule, resolveRule, ha, hc, hs, hrw]
        · simp [Action.rule, resolveRule, ha, hb, hc, hs]

theorem takes_singleAction {r : Rule} {t : List Char}
    (ht : ActionText (Alone (MarkedText blank)) (Alone MoveText) r t) (hv : Cut v) :
    Takes singleAction (t ++ v) (Action.Means blank r) v := by
  have hword := (token_symbol blank).alone.mono
    (S := fun ss a => [a].map (resolve blank) = ss.map (resolve blank)) <| by
      rintro _ a ⟨s, rfl, ha⟩
      simpa using ha
  have hmove := token_direction.alone.mono (S := fun ms m => [m] = ms) <| by
    rintro _ _ ⟨m, rfl, rfl⟩
    rfl
  exact (takes_parts (f := ([·])) (h := ([·])) hword hmove (fun _ _ _ _ => rfl) ht hv).named

theorem takes_listAction {r : Rule} {t : List Char}
    (ht : ActionText (ListText (MarkedText blank)) (ListText MoveText) r t) (hv : Cut v) :
    Takes listAction (t ++ v) (Action.Means blank r) v := by
  have hword := (token_symbol blank).list.named.mono
    (S := fun ss a => a.map (resolve blank) = ss.map (resolve blank)) fun _ _ => map_eq_of_forall₂
  have hmove := token_direction.list.named.mono (S := fun ms m => m = ms) <| by
    intro ms m hm
    simpa using map_eq_of_forall₂ (f := id) hm
  exact (takes_parts (f := id) (h := id) hword hmove (by simp) ht hv).named

theorem RuleText.ink {r : Rule} {t : List Char} (h : RuleText blank r t) : Ink (t ++ v) := by
  rcases h with h | h
  · cases h with
    | intro hread =>
        obtain ⟨s, -, hs⟩ := hread
        rw [List.append_assoc]
        exact (token_symbol blank).ink hs
  · cases h with
    | intro hread =>
        rw [List.append_assoc]
        exact hread.ink

/-- **An action is read**, however it is written. -/
theorem takes_action {r : Rule} {t : List Char} (ht : RuleText blank r t) (hv : Cut v) :
    Takes action (t ++ v) (fun a => Action.Means blank r a.value) v := by
  refine Takes.placed (R := Action.Means blank r) (Takes.named ?_)
  rcases ht with ht | ht
  · -- The reader with brackets comes first, and finds none.
    refine Fails.orElse_takes ?_ (takes_singleAction ht hv)
    refine (Fails.bind (Fails.named (Fails.bind (fails_literal_of_head rfl ?_)))).named
    cases ht with
    | intro hread =>
        obtain ⟨s, -, hs⟩ := hread
        rw [List.append_assoc]
        exact hs.head_ne
  · exact (takes_listAction ht hv).orElse

/-! ### Headings and actions -/

/-- After its first character a heading goes on with another one of its name, or with its colon. -/
theorem IsHeading.exists_indented (h : IsHeading u) :
    ∃ c v d w, IsStateChar c ∧ u = c :: v ∧ Indented v (d :: w) ∧ (IsStateChar d ∨ d = ':') := by
  obtain ⟨s, v, ⟨hne, hall⟩, g, hg, rfl⟩ := h
  obtain ⟨c, s, rfl⟩ := List.exists_cons_of_ne_nil hne
  obtain ⟨hc, hs⟩ := List.forall_mem_cons.1 hall
  cases s with
  | nil => exact ⟨c, _, ':', v, hc, rfl, hg.indented _, .inr rfl⟩
  | cons d s => exact ⟨c, _, d, _, hc, rfl, .refl _, .inl (hs d List.mem_cons_self)⟩

/-- A heading is no action: no arrow and no comma comes after its first character. -/
theorem IsHeading.fails_action (h : IsHeading u) : Fails action u := by
  refine Fails.placed (Fails.named (Fails.orElse ?_ ?_))
  · exact h.fails_bracket.named.bind.named
  · -- Without brackets, the first character is read as a symbol, and the next one stops it.
    obtain ⟨c, v, d, w, hc, rfl, hv, hd⟩ := h.exists_indented
    have hne (x : Char) (hx : x ∈ [' ', '\t', '#', '-', ',']) : d ≠ x := by
      rintro rfl
      rcases hd with hd | rfl
      · fin_cases hx <;> exact absurd hd (by decide)
      · exact absurd hx (by decide)
    have hsolid : Solid (d :: w) := by
      rintro _ ⟨⟩
      exact ⟨hne ' ' (by decide), hne '\t' (by decide), hne '#' (by decide)⟩
    have harrow : Fails (do literal "->"; next symbol) (d :: w) := by
      refine (fails_literal_of_head rfl ?_).bind
      rintro _ ⟨⟩
      exact hne '-' (by decide)
    have hcomma : Fails (literal ",") (d :: w) := by
      refine fails_literal_of_head rfl ?_
      rintro _ ⟨⟩
      exact hne ',' (by decide)
    have hread : Takes symbol (c :: v) (fun _ => True) (d :: w) :=
      (takes_symbol (symbolText_of_isStateChar hc)).mono (fun _ _ => trivial) hv.alike
    have hwritten : TakesOn (written symbol) (d :: w) (fun _ => True) (d :: w) :=
      (harrow.optional.mono (fun _ _ => trivial) (.refl _)).next hsolid
    exact (hread.bind_fails fun _ _ => hwritten.bind_fails fun _ _ =>
      (hcomma.next hsolid).bind).named

/-! ### Blocks -/

/-- A block says what a state and its rules say. -/
def Block.Means (blank : Symbol) (b : State × List Rule) (x : Block) : Prop :=
  x.state = b.1 ∧ List.Forall₂ (fun r a => Action.Means blank r a.value) b.2 x.actions

theorem Headed.append {s : List Char} (h : Headed s u v) (w : List Char) :
    Headed s (u ++ w) (v ++ w) := by
  obtain ⟨g, hg, rfl⟩ := h
  exact ⟨g, hg, by simp⟩

theorem LineEnd.cut {g : List Char} (h : LineEnd g) : Cut (g ++ u) := by
  obtain ⟨w, ⟨x, hx, e⟩, c, y, hc, -, rfl⟩ := h.exists_broken u
  rw [e]
  exact hx.cut (cut_cons (by rcases hc with rfl | rfl <;> decide))

/-- **A block is read**, up to a line that is the heading of the next one or of a section. -/
theorem takes_block {b : State × List Rule} {t : List Char} (ht : BlockText blank b t)
    (hb : IsStateName b.1.toList) (hkey : b.1 ∉ keywords) (hv : Indented v w)
    (hw : Opens IsHeading w) :
    Takes block (t ++ v) (fun x => Block.Means blank b x.value) w := by
  obtain ⟨u, ht, hu⟩ := ht
  have hcut : Cut v := by
    obtain ⟨g, hg, rfl⟩ := hv
    exact hg.cut hw.endsContent.cut
  have heach : TakesEach (next (do lineBreaks; next action))
      (fun r a => Action.Means blank r a.value) b.2 (u ++ v) w := by
    refine takesEach_led hu (fun r _ g t w hg ht hw => ?_) (fun _ _ g _ _ hg _ => hg.cut)
      (fun g w hg => hg.length_lt w) hcut hv.alike
      (hw.failsOn_line fun v hv => ⟨hv.ink, hv.fails_action⟩)
    obtain ⟨y, hy, hyx⟩ := hg.exists_broken (t ++ w)
    exact (hyx.takesOn_line ht.ink (takes_action ht hw)).indent hy
  -- The reader looks ahead for a keyword before it takes the heading for a state.
  have hfail := (ht.append v).fails_keyword hb hkey
  obtain ⟨g, hg, rfl⟩ := ht
  have hstate : Takes state (b.1.toList ++ (g ++ ':' :: (u ++ v))) (· = b.1)
      (g ++ ':' :: (u ++ v)) := takes_state ⟨hb, rfl⟩ (hg.cut (cut_cons (by decide)))
  simp only [List.append_assoc, List.cons_append] at hfail ⊢
  refine Takes.placed (R := Block.Means blank b) (Takes.named ?_)
  refine (takes_notAhead hfail).bind fun _ _ => (hstate.next hb.ink.solid).bind fun s hs => ?_
  refine (takesOn_colon hg).bind fun _ _ => ?_
  exact (heach.next_many hw.endsContent.solid).bind fun as has => takesOn_pure ⟨hs, has⟩

/-- The heading of a section starts no block. -/
theorem IsSectionHeading.fails_block (h : IsSectionHeading u) : Fails block u := by
  obtain ⟨k, hk, v, h⟩ := h
  exact Fails.placed (fails_notAhead (h.takes_keyword hk)).bind.named

/-- **The blocks of a section of rules are read**, up to the next section. -/
theorem takesOn_blocks {bs : List (State × List Rule)} (h : Led LineEnd (BlockText blank) bs u)
    (hbs : ∀ b ∈ bs, IsStateName b.1.toList ∧ b.1 ∉ keywords) (hv : Indented v w)
    (hw : Opens IsSectionHeading w) :
    TakesOn (next blocks) (u ++ v)
      (fun xs => List.Forall₂ (fun b x => Block.Means blank b x.value) bs xs) w := by
  have hheading (b : State × List Rule) (hb : b ∈ bs) (t x : List Char) (ht : BlockText blank b t) :
      IsHeading (t ++ x) := by
    obtain ⟨y, ht, -⟩ := ht
    exact ⟨_, _, (hbs b hb).1, ht.append x⟩
  refine TakesEach.next_many ?_ hw.endsContent.solid
  -- What a block needs to know of the text after it is that no action starts its next line.
  refine takesEach_led (F := fun v => ∃ w, Indented v w ∧ Opens IsHeading w) h
    (fun b hb g t v hg ht hv => ?_) (fun b hb g t v hg ht => ?_) (fun g w hg => hg.length_lt w)
    ⟨w, hv, hw.mono fun _ h => h.isHeading⟩ hv.alike
    (hw.failsOn_line fun v hv => ⟨hv.isHeading.ink, hv.fails_block⟩)
  · obtain ⟨x, hx, hxh⟩ := hv
    obtain ⟨y, hy, hyx⟩ := hg.exists_broken (t ++ v)
    have hblock := (takes_block ht (hbs b hb).1 (hbs b hb).2 hx hxh).mono (fun _ h => h)
      hx.alike.symm
    exact (hyx.takesOn_line (hheading b hb t v ht).ink hblock).indent hy
  · obtain ⟨y, hy, hyx⟩ := hg.exists_broken (t ++ v)
    exact ⟨y, hy, .inr ⟨t ++ v, hyx, hheading b hb t v ht⟩⟩

end Notation

end TapeMachine
