import TapeMachine.Proofs.Notation.Spelling
import TapeMachine.Proofs.Program.WellFormed

/-!
# Notation — Writing

Every notable program without defects has a text (`Program.exists_programText`): its symbols in
quotes, its rules in brackets, and a block for each state with rules, the initial state first.
-/

namespace TapeMachine

namespace Notation

variable {α : Type} {lead : List Char → Prop} {item : α → List Char → Prop} {as : List α}

/-! ### Lists -/

theorem exists_led {g : List Char} (hg : lead g) (h : ∀ a ∈ as, ∃ t, item a t) :
    ∃ u, Led lead item as u := by
  induction as with
  | nil => exact ⟨[], .nil⟩
  | cons a as ih =>
      obtain ⟨⟨t, ht⟩, h⟩ := List.forall_mem_cons.1 h
      obtain ⟨u, hu⟩ := ih h
      exact ⟨_, .cons hg ht hu⟩

theorem exists_separated {g : List Char} (hg : lead g) (has : as ≠ [])
    (h : ∀ a ∈ as, ∃ t, item a t) : ∃ u, Separated lead item as u := by
  obtain ⟨a, as, rfl⟩ := List.exists_cons_of_ne_nil has
  obtain ⟨⟨t, ht⟩, h⟩ := List.forall_mem_cons.1 h
  obtain ⟨u, hu⟩ := exists_led hg h
  exact ⟨_, .cons ht hu⟩

theorem headed_colon (s u : List Char) : Headed s (s ++ ':' :: u) u := ⟨[], nofun, rfl⟩

theorem comma_comma : Comma [','] := ⟨[], [], nofun, nofun, rfl⟩

theorem lineEnd_lineFeed : LineEnd ['\n'] := 
  ⟨List.forall_mem_singleton.2 (by decide), '\n', by decide, .inl rfl⟩

theorem bracketed_brackets {content : List Char → Prop} {u : List Char} (hu : content u) :
    Bracketed content ('[' :: (u ++ [']'])) := ⟨[], u, [], nofun, hu, nofun, rfl⟩

theorem exists_list (has : as ≠ []) (h : ∀ a ∈ as, ∃ t, item a t) : ∃ t, ListText item as t :=
  let ⟨_, hu⟩ := exists_separated comma_comma has h
  ⟨_, bracketed_brackets hu⟩

/-! ### Symbols, moves and numbers -/

theorem exists_marked (blank : Symbol) {w : Word} (hw : ∀ s ∈ w, s ≠ '\'') :
    ∀ s ∈ w, ∃ t, MarkedText blank s t := fun s hs => ⟨_, .inl (.quoted (hw s hs))⟩

theorem exists_move (m : Move) : ∃ t, MoveText m t := by
  cases m with
  | left => exact ⟨['L'], .left (by decide)⟩
  | right => exact ⟨['R'], .right (by decide)⟩
  | stay => exact ⟨['N'], .stay (by decide)⟩

theorem countText_toDigits (n : Nat) : CountText n (Nat.toDigits 10 n) :=
  ⟨Nat.toDigits_ne_nil, fun _ hc => Nat.isDigit_of_mem_toDigits (by decide) (by decide) hc,
    Nat.ofDigitChars_ten_toDigits⟩

theorem exists_position (i : Int) : ∃ t, PositionText i t := by
  rcases Int.eq_nat_or_neg i with ⟨n, rfl | rfl⟩
  · exact ⟨_, .positive (countText_toDigits n)⟩
  · exact ⟨_, .negative (countText_toDigits n)⟩

/-! ### Rules and blocks -/

theorem exists_rule {blank : Symbol} {r : Rule} {n : Nat} (hn : 0 < n) (hr : r.HasArity n)
    (hsymbols : ∀ s ∈ r.read ++ r.write, s ≠ '\'') (hnext : IsStateName r.next.toList) :
    ∃ t, RuleText blank r t := by
  have hne {β : Type} (bs : List β) (hbs : bs.length = n) : bs ≠ [] := by
    rintro rfl
    exact hn.ne hbs
  obtain ⟨x, hx⟩ := exists_list (hne _ hr.1) <|
    exists_marked blank fun s hs => hsymbols s (List.mem_append_left _ hs)
  obtain ⟨y, hy⟩ := exists_list (hne _ hr.2.1) <|
    exists_marked blank fun s hs => hsymbols s (List.mem_append_right _ hs)
  obtain ⟨z, hz⟩ := exists_list (hne _ hr.2.2) fun m _ => exists_move m
  have hblanks : Blanks [] := nofun
  have harrow := ArrowText.written (a := r.read) hblanks (.refl y) hy
  exact ⟨_, .inr (.intro hx harrow comma_comma hz comma_comma ⟨hnext, rfl⟩)⟩

/-- The state of a block is that of a rule, if there is one in it. -/
theorem exists_rule_of_block {bs : List (State × List Rule)} {b : State × List Rule}
    (hb : b ∈ bs) (hne : b.2 ≠ []) (hstate : ∀ r ∈ b.2, r.state = b.1) :
    ∃ r ∈ bs.flatMap Prod.snd, r.state = b.1 := by
  obtain ⟨r, hr⟩ := List.exists_mem_of_ne_nil _ hne
  exact ⟨r, List.mem_flatMap.2 ⟨b, hb, hr⟩, hstate r hr⟩

/-- The first rule is one of the first block. -/
theorem head_state_of_blocks {b : State × List Rule} {bs : List (State × List Rule)}
    (hne : b.2 ≠ []) (hstate : ∀ r ∈ b.2, r.state = b.1) :
    ((b :: bs).flatMap Prod.snd).head?.map Rule.state = some b.1 := by
  obtain ⟨r, rs, hr⟩ := List.exists_cons_of_ne_nil hne
  rw [List.flatMap_cons, hr]
  exact congrArg some (hstate r (hr ▸ List.mem_cons_self))

/-- Rules of which those of a state stand together are blocks of rules of different states. -/
theorem exists_blocks {rs : List Rule} (h : Grouped (rs.map Rule.state)) :
    ∃ bs : List (State × List Rule), (bs.map Prod.fst).Nodup ∧ bs.flatMap Prod.snd = rs ∧
      ∀ b ∈ bs, b.2 ≠ [] ∧ ∀ r ∈ b.2, r.state = b.1 := by
  induction rs with
  | nil => exact ⟨[], List.nodup_nil, rfl, nofun⟩
  | cons r rs ih =>
      obtain ⟨hr, hrs⟩ := h
      obtain ⟨bs, hnodup, hflat, hbs⟩ := ih hrs
      by_cases hmem : r.state ∈ rs.map Rule.state
      · -- The rule goes in front of the first block.
        have hhead : (rs.map Rule.state).head? = some r.state :=
          hr.resolve_right (not_not_intro hmem)
        cases bs with
        | nil =>
            rw [← hflat] at hmem
            cases hmem
        | cons b bs =>
            obtain ⟨⟨hne, hb⟩, hbs⟩ := List.forall_mem_cons.1 hbs
            have hstate : r.state = b.1 := by
              rw [← hflat, List.head?_map, head_state_of_blocks hne hb] at hhead
              exact (Option.some.inj hhead).symm
            refine ⟨(b.1, r :: b.2) :: bs, hnodup, ?_, ?_⟩
            · rw [← hflat]
              rfl
            · refine List.forall_mem_cons.2 ⟨⟨nofun, ?_⟩, hbs⟩
              exact List.forall_mem_cons.2 ⟨hstate, hb⟩
      · -- The rule starts a block.
        refine ⟨(r.state, [r]) :: bs, ?_, by simp [hflat], ?_⟩
        · refine List.nodup_cons.2 ⟨fun hfst => hmem ?_, hnodup⟩
          obtain ⟨b, hb, hbr⟩ := List.mem_map.1 hfst
          obtain ⟨hne, hstate⟩ := hbs b hb
          obtain ⟨r', hr', hr'b⟩ := exists_rule_of_block hb hne hstate
          exact List.mem_map.2 ⟨r', hflat ▸ hr', hr'b.trans hbr⟩
        · refine List.forall_mem_cons.2 ⟨⟨nofun, by simp⟩, hbs⟩

variable {p : Program}

theorem isStateName_initial (hp : p.Notable) : IsStateName p.initial.toList :=
  hp.isStateName _ (Program.mem_states_iff.2 (.inl rfl))

theorem isStateName_final (hp : p.Notable) {s : State} (hs : s ∈ p.finals) :
    IsStateName s.toList :=
  hp.isStateName s (Program.mem_states_iff.2 (.inr (.inl hs)))

theorem isStateName_rule (hp : p.Notable) {r : Rule} (hr : r ∈ p.rules) :
    IsStateName r.state.toList ∧ IsStateName r.next.toList := by
  have hmem (s : State) (hs : s = r.state ∨ s = r.next) : s ∈ p.states :=
    Program.mem_states_iff.2 (.inr (.inr ⟨r, hr, hs⟩))
  exact ⟨hp.isStateName _ (hmem _ (.inl rfl)), hp.isStateName _ (hmem _ (.inr rfl))⟩

/-- The rules of a program are in blocks, the first one that of the initial state. -/
theorem exists_blocks_of_notable (hp : p.Notable) : ∃ bs, Blocks p bs := by
  obtain ⟨bs, hnodup, hflat, hbs⟩ := exists_blocks hp.grouped
  have hrule (b : State × List Rule) (hb : b ∈ bs) : ∃ r ∈ p.rules, r.state = b.1 := by
    obtain ⟨hne, hstate⟩ := hbs b hb
    rw [← hflat]
    exact exists_rule_of_block hb hne hstate
  have hname (b : State × List Rule) (hb : b ∈ bs) : IsStateName b.1.toList := by
    obtain ⟨r, hr, hrb⟩ := hrule b hb
    exact hrb ▸ (isStateName_rule hp hr).1
  have hkey (b : State × List Rule) (hb : b ∈ bs) : b.1 ∉ keywords := by
    obtain ⟨r, hr, hrb⟩ := hrule b hb
    exact hrb ▸ hp.state_not_mem r hr
  by_cases hinitial : p.initial ∈ bs.map Prod.fst
  · refine ⟨bs, ?_, hnodup, fun b hb => (hbs b hb).2, hflat, hname, hkey⟩
    obtain ⟨b, hb, hbi⟩ := List.mem_map.1 hinitial
    obtain ⟨r, hr, hrb⟩ := hrule b hb
    have hfirst := hp.initial_first r hr (hrb.trans hbi)
    cases bs with
    | nil => cases hb
    | cons b₀ bs =>
        obtain ⟨hne, hstate⟩ := hbs b₀ List.mem_cons_self
        rw [← hflat, head_state_of_blocks hne hstate] at hfirst
        exact hfirst
  · -- The initial state has no rules, and a block of its own.
    refine ⟨(p.initial, []) :: bs, rfl, List.nodup_cons.2 ⟨hinitial, hnodup⟩, ?_, hflat, ?_, ?_⟩
    · exact List.forall_mem_cons.2 ⟨nofun, fun b hb => (hbs b hb).2⟩
    · exact List.forall_mem_cons.2 ⟨isStateName_initial hp, hname⟩
    · exact List.forall_mem_cons.2 ⟨hp.initial_not_mem, hkey⟩

/-! ### Sections -/

/-- Every section of a program has a text, the tapes and the heads as lists. -/
theorem exists_section (hp : p.Notable) (hwf : p.WellFormed) (k : Kind)
    (hk : k ∈ [Kind.name, .blank, .tapes, .heads, .finals, .maxSteps, .detectLoops, .rules]) :
    ∃ t, SectionText p k t := by
  have hlist {u v : List Char} : Headed v (v ++ ':' :: u) u := headed_colon v u
  have hread (r : Rule) (hr : r ∈ p.rules) : ∃ t, RuleText p.blank r t := by
    refine exists_rule hwf.tapeCount_pos (hwf.hasArity r hr) (fun s hs => hp.ne_quote s ?_)
      (isStateName_rule hp hr).2
    exact Program.mem_symbols_iff.2 (.inr ⟨r, hr, List.mem_append.1 hs⟩)
  fin_cases hk
  · exact ⟨_, .name hlist (.refl _)⟩
  · exact ⟨_, .blank hlist (.refl _) (.quoted hp.blank_ne)⟩
  · have htape (w : Word) (hw : w ∈ p.tapes) : ∃ t, Bracketed (ContentText p.blank w) t := by
      by_cases hne : w = []
      · exact ⟨_, bracketed_brackets (.inl ⟨hne, rfl⟩)⟩
      · obtain ⟨u, hu⟩ := exists_separated comma_comma hne <| exists_marked p.blank fun s hs =>
          hp.ne_quote s (Program.mem_symbols_iff.2 (.inl ⟨w, hw, hs⟩))
        exact ⟨_, bracketed_brackets (.inr hu)⟩
    obtain ⟨u, hu⟩ := exists_led lineEnd_lineFeed htape
    exact ⟨_, .tapes hlist hu⟩
  · have hne : p.heads ≠ [] := by
      rintro h
      have hlength := hwf.heads_length
      rw [h] at hlength
      exact hwf.tapeCount_pos.ne hlength
    obtain ⟨u, hu⟩ := exists_list hne fun i _ => exists_position i
    exact ⟨_, .heads hlist (.refl u) hu⟩
  · obtain ⟨u, hu⟩ := exists_list hwf.finals_ne_nil fun s hs =>
      (⟨s.toList, isStateName_final hp hs, rfl⟩ : ∃ t, StateText s t)
    exact ⟨_, .finals hlist (.refl u) (fun s => Iff.rfl) hu⟩
  · exact ⟨_, .maxSteps hlist (.refl _) (countText_toDigits p.maxSteps)⟩
  · exact ⟨_, .detectLoops hlist (.refl _)⟩
  · obtain ⟨bs, hbs⟩ := exists_blocks_of_notable hp
    have hblock (b : State × List Rule) (hb : b ∈ bs) : ∃ t, BlockText p.blank b t := by
      obtain ⟨u, hu⟩ := exists_led lineEnd_lineFeed fun r (hr : r ∈ b.2) => hread r <| by
        rw [← hbs.rules_eq]
        exact List.mem_flatMap.2 ⟨b, hb, hr⟩
      exact ⟨_, u, headed_colon _ u, hu⟩
    obtain ⟨u, hu⟩ := exists_led lineEnd_lineFeed hblock
    exact ⟨_, .rules hlist hbs hu⟩

end Notation

/-- **Every notable program without defects has a text.** -/
theorem Program.exists_programText {p : Program} (hp : p.Notable) (hwf : p.WellFormed) :
    ∃ t, Notation.ProgramText p t := by
  obtain ⟨u, hu⟩ := Notation.exists_separated Notation.lineEnd_lineFeed (List.cons_ne_nil _ _)
    (Notation.exists_section hp hwf)
  exact ⟨_, _, [], u, [], ⟨.tapes, by simp, .heads, by simp, .refl _⟩, hu, nofun, nofun, rfl⟩

end TapeMachine
