import TapeMachine.Proofs.Notation.Rules
import TapeMachine.Proofs.Text.Blank

/-!
# Notation — Sections

The reader of a document takes the sections of a program as they are written, in the order in which
they stand (`read_sections`).  Which section it is, the word before the colon tells: of the ten
readers of sections all but one fail on it (`Headed.skip`).
-/

namespace TapeMachine.Notation

open Reader Grammar

variable {α : Type} {p : Program} {u v w x : List Char}

/-! ### What sections say -/

/-- What a section says is a part of the program, up to marks of the blank. -/
def Section.Means (p : Program) : Section → Prop
  | .name text => trim text = p.name.toList
  | .blank s => s = p.blank
  | .tape content => [content.map (resolve p.blank)] = p.tapes.map (·.map (resolve p.blank))
  | .tapes contents =>
    contents.map (·.map (resolve p.blank)) = p.tapes.map (·.map (resolve p.blank))
  | .head position => [Numeral.value position.value] = p.heads
  | .heads positions => positions.map (Numeral.value ·.value) = p.heads
  | .finals states => ∀ s, s ∈ states ↔ s ∈ p.finals
  | .maxSteps count => Numeral.value count.value = p.maxSteps
  | .detectLoops value => value = p.detectLoops
  | .rules xs =>
    ∃ bs, Blocks p bs ∧ List.Forall₂ (fun b x => Block.Means p.blank b x.value) bs xs

/-- The readers of other sections before the one that counts. -/
theorem Headed.skip {k s : String} {q : Reader α} {f : α → Section} {rs : List (Reader Section)}
    {R : Section → Prop} (h : Headed s.toList u v) (hs : s ∈ keywords) (hk : k ∈ keywords ∧ k ≠ s)
    (htake : Takes (firstOf rs) u R w) : Takes (firstOf ((f <$> headed k q) :: rs)) u R w :=
  (h.fails_headed (isStateName_of_mem_keywords hs) hk.1 hk.2).map.orElse_takes htake

/-- The content of a section, behind blanks. -/
theorem takesOn_content {q : Reader α} {R : α → Prop} (hq : Takes q (x ++ v) R v) (hx : Ink (x ++ v))
    (hu : Indented u x) (hv : Indented v w) : TakesOn (next q) (u ++ v) R w :=
  ((hq.next hx.solid).indent (hu.append v)).mono (fun _ h => h) hv.alike

/-- The reader of a name takes the blanks at the end of the line with it. -/
theorem takesOn_text (hp : p.Notable) (hu : Indented u p.name.toList) (hv : Indented v w)
    (hw : ∀ c ∈ w.head?, c = '\n' ∨ c = '\r') :
    TakesOn (next text) (u ++ v) (fun t => trim t = p.name.toList) w := by
  obtain ⟨g, hg, rfl⟩ := hv
  have hwhite : ∀ c ∈ g, isWhiteSpace c := by
    intro c hc
    rcases hg c hc with rfl | rfl <;> rfl
  have hhead := (trim_eq_self_iff.1 hp.trim_name).1
  -- The name starts with ink, and the blanks behind it are taken for a part of it.
  have hink : Ink (p.name.toList ++ (g ++ w)) := by
    obtain ⟨c, cs, hc⟩ := List.exists_cons_of_ne_nil hp.name_ne
    have hline := hp.name_line c (by simp [hc])
    rw [hc] at hhead ⊢
    refine ink_cons fun hmem => ?_
    fin_cases hmem
    · cases hhead ' ' rfl
    · cases hhead '\t' rfl
    all_goals exact hline (by decide)
  have hread : Takes text (p.name.toList ++ (g ++ w)) (· = p.name.toList ++ g) w := by
    rw [← List.append_assoc]
    refine (takes_takeWhile1 (by simp [hp.name_ne]) (fun c hc => ?_) fun c hc => ?_).named
    · rcases List.mem_append.1 hc with hc | hc
      · simpa [isLineEnd, and_comm, and_assoc] using hp.name_line c hc
      · rcases hg c hc with rfl | rfl <;> rfl
    · rcases hw c hc with rfl | rfl <;> rfl
  refine ((hread.mono ?_ (.refl w)).next hink.solid).indent (hu.append _)
  rintro _ rfl
  rw [trim_append_right hwhite, hp.trim_name]

/-- **A section is read**, up to the next one. -/
theorem takes_anySection {k : Kind} {t : List Char} (hp : p.Notable) (htapes : p.tapes ≠ [])
    (ht : SectionText p k t) (hv : Indented v w) (hw : Opens IsSectionHeading w) :
    Takes anySection (t ++ v) (fun s => s.value.kind = k ∧ Section.Means p s.value) w := by
  have hend : EndsContent w := hw.endsContent
  have hcut : Cut v := by
    obtain ⟨g, hg, rfl⟩ := hv
    exact hg.cut hend.cut
  refine Takes.placed (R := fun s => s.kind = k ∧ Section.Means p s) ?_
  -- The readers before the one of the section fail at its keyword.
  cases ht with
  | @name _ u h hu =>
      have hread := (h.append v).takes_headed (takesOn_text hp hu hv hw.head_eq)
      exact (hread.map fun _ hs => ⟨rfl, hs⟩).orElse
  | @blank _ u x h hu hs =>
      refine (h.append v).skip (by decide) (by decide) ?_
      have hread := (h.append v).takes_headed (takesOn_content (takes_symbol hs) hs.ink hu hv)
      exact (hread.map fun s hs => ⟨rfl, hs⟩).orElse
  | @tapes _ u h hu =>
      iterate 2 refine (h.append v).skip (by decide) (by decide) ?_
      obtain ⟨s, ss, hss⟩ := List.exists_cons_of_ne_nil htapes
      rw [hss] at hu
      have hread := (h.append v).takes_headed
        (takesOn_tapeLists hu hv hw fun _ h => h.isHeading)
      exact (hread.map fun as has => ⟨rfl, by rw [Section.Means, hss, has]⟩).orElse
  | @tape ss _ u x h hu htapes hss =>
      iterate 3 refine (h.append v).skip (by decide) (by decide) ?_
      have hink : Ink (x ++ v) := (token_symbol p.blank).ink_separated hss
      have hread := (h.append v).takes_headed
        (((takes_symbols hss hv hend).optional.next hink.solid).indent (hu.append v))
      refine (hread.map ?_).orElse
      rintro _ ⟨as, has, rfl⟩
      refine ⟨rfl, ?_⟩
      simp [Section.Means, htapes, has]
  | @emptyTape _ h htapes =>
      iterate 3 refine (h.append v).skip (by decide) (by decide) ?_
      have hfail : Fails symbols w := hend.fails_symbol.bind.named
      have hread := (h.append v).takes_headed ((hfail.optional.next hend.solid).indent hv)
      refine (hread.map ?_).orElse
      rintro _ rfl
      refine ⟨rfl, ?_⟩
      simp [Section.Means, htapes]
  | @heads _ u x h hu hx =>
      iterate 4 refine (h.append v).skip (by decide) (by decide) ?_
      have hread := (h.append v).takes_headed
        (takesOn_content (token_index.takes_list hx) hx.ink hu hv)
      refine (hread.map ?_).orElse
      intro ns hns
      exact ⟨rfl, by simpa [Section.Means] using map_eq_of_forall₂ (g := id) hns⟩
  | @head i _ u x h hu hheads hx =>
      iterate 5 refine (h.append v).skip (by decide) (by decide) ?_
      have hread := (h.append v).takes_headed
        (takesOn_content (token_index.takes hx hcut) (token_index.ink hx) hu hv)
      refine (hread.map ?_).orElse
      intro n hn
      exact ⟨rfl, by rw [Section.Means, hheads, hn]⟩
  | @finals ss _ u x h hu hss hx =>
      iterate 6 refine (h.append v).skip (by decide) (by decide) ?_
      have hlist : Takes finalStates (x ++ v) (List.Forall₂ (fun s a => a = s) ss) v :=
        (token_state.takes_list hx).orElse
      have hread := (h.append v).takes_headed (takesOn_content hlist hx.ink hu hv)
      refine (hread.map ?_).orElse
      intro as has
      obtain rfl : as = ss := by simpa using map_eq_of_forall₂ (f := id) has
      exact ⟨rfl, hss⟩
  | @maxSteps _ u x h hu hx =>
      iterate 7 refine (h.append v).skip (by decide) (by decide) ?_
      have hread := (h.append v).takes_headed
        (takesOn_content (takes_number hx hcut) hx.ink hu hv)
      exact (hread.map fun n hn => ⟨rfl, hn⟩).orElse
  | @detectLoops _ u h hu =>
      iterate 8 refine (h.append v).skip (by decide) (by decide) ?_
      have hink : Ink ((toString p.detectLoops).toList ++ v) := by
        cases p.detectLoops <;> exact ink_cons (by decide)
      have hread := (h.append v).takes_headed
        (takesOn_content (takes_boolean p.detectLoops) hink hu hv)
      exact (hread.map fun b hb => ⟨rfl, hb⟩).orElse
  | @rules bs _ u h hbs hu =>
      iterate 9 refine (h.append v).skip (by decide) (by decide) ?_
      have hread := (h.append v).takes_headed
        (takesOn_blocks hu (fun b hb => ⟨hbs.isStateName b hb, hbs.not_mem_keywords b hb⟩) hv hw)
      exact (hread.map fun xs hxs => ⟨rfl, bs, hbs, hxs⟩).orElse

/-! ### Documents -/

theorem SectionText.isSectionHeading {k : Kind} {t : List Char} (h : SectionText p k t) :
    IsSectionHeading (t ++ v) := by
  cases h with
  | name h | blank h | tape h | emptyTape h | tapes h | head h | heads h | finals h | maxSteps h
  | detectLoops h | rules h => exact ⟨_, by decide, _, h.append v⟩

theorem fails_anySection_nil : Fails anySection [] := by
  have hfail {β : Type} (f : β → Section) (k : String) (q : Reader β) (hk : k ∈ keywords) :
      Fails (f <$> headed k q) [] := by
    have hne : k.toList ≠ [] := (isStateName_of_mem_keywords hk).1
    exact (fails_literal (by simpa using hne)).bind.named.map
  refine (fails_firstOf ?_).placed
  rintro q hq
  fin_cases hq <;> exact hfail _ _ _ (by decide)

/-- What comes after a section. -/
theorem takesOn_break (hw : w = [] ∧ v = [] ∨ Broken w v ∧ Ink v) :
    TakesOn (next (lineBreaks.orElse (ahead theEnd))) w (fun _ => True) v := by
  rcases hw with ⟨rfl, rfl⟩ | ⟨hwv, hv⟩
  · have hfail : Fails lineBreaks [] := (fails_lineBreak (by rintro _ ⟨⟩)).bind
    have hend : Takes theEnd [] (fun _ => True) [] :=
      Takes.named fun n => ⟨(), [], n, trivial, .refl [], rfl⟩
    exact (hfail.orElse_takes hend.ahead).next (by rintro _ ⟨⟩)
  · exact (hwv.takes_lineBreaks hv).orElse.next hwv.solid

/-- Sections one after the other are read one after the other. -/
theorem takesEach_sections {k : Kind} {ks : List Kind} {t : List Char} (hp : p.Notable)
    (htapes : p.tapes ≠ []) (ht : SectionText p k t) (hu : Led LineEnd (SectionText p) ks u) :
    TakesEach (next do
        let s ← anySection
        next (lineBreaks.orElse (ahead theEnd))
        return s)
      (fun k s => s.value.kind = k ∧ Section.Means p s.value) (k :: ks) (t ++ u) [] := by
  induction hu generalizing k t with
  | nil =>
      have hink : Ink (t ++ []) := ht.isSectionHeading.isHeading.ink
      have hread := takes_anySection hp htapes ht (.refl []) (.inl rfl)
      refine .cons (v := []) ?_ ?_ <|
        .nil (.refl []) (fails_anySection_nil.bind.next (by rintro _ ⟨⟩))
      · exact (hread.bind fun s hs => (takesOn_break (.inl ⟨rfl, rfl⟩)).bind fun _ _ =>
          takesOn_pure hs).next hink.solid
      · obtain ⟨c, x, -, e⟩ := (ht.isSectionHeading (v := [])).isHeading.exists_cons
        rw [hink.solid.strip_eq, e]
        exact Nat.succ_pos _
  | @cons k' g t' ks u hg ht' _ ih =>
      have hink : Ink (t ++ (g ++ (t' ++ u))) := ht.isSectionHeading.isHeading.ink
      have hnext : IsSectionHeading (t' ++ u) := ht'.isSectionHeading
      obtain ⟨w, hw, hwv⟩ := hg.exists_broken (t' ++ u)
      have hread := takes_anySection hp htapes ht hw (.inr ⟨_, hwv, hnext⟩)
      refine .cons (v := t' ++ u) ?_ ?_ (ih ht')
      · exact (hread.bind fun s hs =>
          (takesOn_break (.inr ⟨hwv, hnext.isHeading.ink⟩)).bind fun _ _ =>
            takesOn_pure hs).next hink.solid
      · calc (strip (t' ++ u)).length ≤ (t' ++ u).length := length_strip_le _
          _ < (strip (g ++ (t' ++ u))).length := hg.length_lt _
          _ ≤ (g ++ (t' ++ u)).length := length_strip_le _
          _ ≤ (t ++ (g ++ (t' ++ u))).length := by simp
          _ = (strip (t ++ (g ++ (t' ++ u)))).length := by rw [hink.solid.strip_eq]

/-- **The sections of a program are read** in the order in which they are written. -/
theorem exists_read {ks : List Kind} (hp : p.Notable) (htapes : p.tapes ≠ [])
    (hu : Separated LineEnd (SectionText p) ks u) :
    ∃ d, Document.read u = .ok d ∧
      List.Forall₂ (fun k s => s.value.kind = k ∧ Section.Means p s.value) ks d := by
  cases hu with
  | @cons k t ks u ht hu =>
      have hink : Ink (t ++ u) := ht.isSectionHeading.isHeading.ink
      have hfirst : Fails lineBreak (t ++ u) := fails_lineBreak fun c hc => by
        have := hink c hc
        simp_all
      have hnil : Solid [] := by rintro _ ⟨⟩
      have hend : Takes theEnd [] (fun _ => True) [] :=
        Takes.named fun n => ⟨(), [], n, trivial, .refl [], rfl⟩
      have hread : Takes document (t ++ u) (List.Forall₂
          (fun k s => s.value.kind = k ∧ Section.Means p s.value) (k :: ks)) [] := by
        refine Takes.named ((((takes_many_nil hfirst).next hink.solid).takes).bind fun _ _ => ?_)
        exact ((takesEach_sections hp htapes ht hu).next_many hnil).bind fun d hd =>
          (hend.next hnil).bind fun _ _ => takesOn_pure hd
      obtain ⟨d, v, n, hd, -, e⟩ := hread 0
      refine ⟨d, ?_, hd⟩
      rw [Document.read]
      split
      · simp_all
      · simp_all

end TapeMachine.Notation
