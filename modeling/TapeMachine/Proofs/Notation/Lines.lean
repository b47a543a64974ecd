import TapeMachine.Proofs.Notation.Lists

/-!
# Notation — Lines

The readers of line breaks, and of constructs on lines of their own.  `Broken u v` says that the
text `u` is a line break or more and then `v`, whose first line is not empty (`Ink v`).  What a
section or a block is followed by is either nothing or a line that starts in some way
(`Opens`).
-/

namespace TapeMachine.Notation

open Reader Grammar

variable {α β : Type} {u v w : List Char} {p q : Reader α} {R : α → Prop}

/-! ### Line breaks -/

/-- The text `u` is `v` after a line break or more. -/
def Broken (u v : List Char) : Prop :=
  ∃ c g, (c = '\n' ∨ c = '\r') ∧ (∀ x ∈ g, x ∈ [' ', '\t', '\n', '\r']) ∧ u = c :: (g ++ v)

theorem LineEnd.exists_broken {g : List Char} (h : LineEnd g) (v : List Char) :
    ∃ w, Indented (g ++ v) w ∧ Broken w v := by
  obtain ⟨hall, hend⟩ := h
  induction g with
  | nil => simp at hend
  | cons c g ih =>
      obtain ⟨hc, hall⟩ := List.forall_mem_cons.1 hall
      by_cases hce : c = '\n' ∨ c = '\r'
      · exact ⟨c :: (g ++ v), .refl _, c, g, hce, hall, rfl⟩
      · obtain ⟨w, hw, hwv⟩ := ih hall (by simpa [hce] using hend)
        have hblank : Blanks [c] := List.forall_mem_singleton.2 (by simp_all)
        exact ⟨w, (hblank.indented _).trans hw, hwv⟩

theorem Broken.solid (h : Broken u v) : Solid u := by
  obtain ⟨c, g, rfl | rfl, -, rfl⟩ := h <;> exact solid_cons (by decide)

theorem fails_lineBreak (hu : ∀ c ∈ u.head?, c ∉ ['\n', '\r']) : Fails lineBreak u := by
  have hne (x : Char) (hx : x ∈ ['\n', '\r']) : ∀ c ∈ u.head?, c ≠ x := by
    rintro _ hc rfl
    exact hu _ hc hx
  refine fails_firstOf ?_
  rintro q hq
  fin_cases hq
  · exact fails_literal_of_head rfl (hne '\n' (by decide))
  · exact fails_literal_of_head rfl (hne '\r' (by decide))
  · exact fails_literal_of_head rfl (hne '\r' (by decide))

/-- A line break is one character, or a carriage return and a line feed. -/
theorem takes_lineBreak {c : Char} {g : List Char} (hc : c = '\n' ∨ c = '\r')
    (hg : ∀ x ∈ g, x ∈ [' ', '\t', '\n', '\r']) (hv : Ink v) :
    ∃ g', (∀ x ∈ g', x ∈ [' ', '\t', '\n', '\r']) ∧ g'.length ≤ g.length ∧
      Takes lineBreak (c :: (g ++ v)) (fun _ => True) (g' ++ v) := by
  rcases hc with rfl | rfl
  · exact ⟨g, hg, le_rfl, (takes_literal "\n").orElse⟩
  · have hfirst : Fails (literal "\n") ('\r' :: (g ++ v)) := fails_literal (by simp)
    by_cases hcr : ∃ g', g = '\n' :: g'
    · obtain ⟨g', rfl⟩ := hcr
      exact ⟨g', (List.forall_mem_cons.1 hg).2, Nat.le_succ _,
        hfirst.orElse_takes (takes_literal "\r\n").orElse⟩
    · have hsecond : Fails (literal "\r\n") ('\r' :: (g ++ v)) := by
        refine fails_literal ?_
        rintro ⟨x, hx⟩
        obtain ⟨-, hx⟩ : '\r' = '\r' ∧ '\n' :: x = g ++ v := List.cons.inj hx
        cases g with
        | nil =>
            rw [List.nil_append] at hx
            exact absurd (hv '\n' (by rw [← hx]; rfl)) (by decide)
        | cons d g =>
            obtain ⟨rfl, -⟩ := List.cons.inj hx
            exact hcr ⟨g, rfl⟩
      exact ⟨g, hg, le_rfl, hfirst.orElse_takes (hsecond.orElse_takes (takes_literal "\r").orElse)⟩

theorem TakesEach.indent {S : β → α → Prop} {bs : List β} (h : TakesEach p S bs u v)
    (hw : Indented w u) : TakesEach p S bs w v := by
  cases h with
  | nil huv hfail => exact .nil (hw.alike.trans huv) hfail
  | cons htake hlen hrest => exact .cons (htake.indent hw) (hw.alike ▸ hlen) hrest

/-- Line breaks one after the other, however they are made. -/
theorem takesEach_lineBreak {g : List Char} (hg : ∀ x ∈ g, x ∈ [' ', '\t', '\n', '\r'])
    (hv : Ink v) :
    ∃ bs, TakesEach (next lineBreak) (fun (_ : Unit) _ => True) bs (g ++ v) v := by
  -- By length, since a return and the line feed after it are taken as one break.
  induction hn : g.length using Nat.strong_induction_on generalizing g with
  | _ n ih =>
      cases g with
      | nil =>
          have hfail : Fails lineBreak v := fails_lineBreak fun c hc => by
            have := hv c hc
            simp_all
          exact ⟨[], .nil (.refl v) (hfail.next hv.solid)⟩
      | cons c g =>
          obtain ⟨hc, hg⟩ := List.forall_mem_cons.1 hg
          by_cases hce : c = '\n' ∨ c = '\r'
          · obtain ⟨g', hg', hlen, htake⟩ := takes_lineBreak hce hg hv
            obtain ⟨bs, hbs⟩ := ih g'.length (by simp at hn; omega) hg' rfl
            have hsolid : Solid (c :: (g ++ v)) :=
              solid_cons (by rcases hce with rfl | rfl <;> decide)
            refine ⟨() :: bs, .cons (htake.next hsolid) ?_ hbs⟩
            calc (strip (g' ++ v)).length ≤ (g' ++ v).length := length_strip_le _
              _ < (c :: (g ++ v)).length := by
                  simp only [List.length_append, List.length_cons]
                  omega
              _ = (strip (c :: (g ++ v))).length := by rw [hsolid.strip_eq]
          · obtain ⟨bs, hbs⟩ := ih g.length (by simp at hn; omega) hg rfl
            have hblank : Blanks [c] := List.forall_mem_singleton.2 (by simp_all)
            exact ⟨bs, hbs.indent (hblank.indented _)⟩

theorem Broken.takes_many_lineBreak (h : Broken u v) (hv : Ink v) :
    Takes (many lineBreak) u (fun _ => True) v := by
  obtain ⟨c, g, hc, hg, rfl⟩ := h
  obtain ⟨g', hg', -, htake⟩ := takes_lineBreak hc hg hv
  obtain ⟨bs, hbs⟩ := takesEach_lineBreak hg' hv
  exact (takes_many_cons (b := ()) htake hbs).mono (fun _ _ => trivial) (.refl v)

theorem Broken.takes_lineBreaks (h : Broken u v) (hv : Ink v) :
    Takes lineBreaks u (fun _ => True) v := by
  obtain ⟨c, g, hc, hg, rfl⟩ := h
  obtain ⟨g', hg', -, htake⟩ := takes_lineBreak hc hg hv
  obtain ⟨bs, hbs⟩ := takesEach_lineBreak hg' hv
  exact htake.bind fun _ _ => (hbs.next_many hv.solid).bind fun _ _ => takesOn_pure trivial

/-! ### Constructs on lines of their own -/

/-- A construct on the next line. -/
theorem Broken.takesOn_line (h : Broken u v) (hv : Ink v) (hq : Takes q v R w) :
    TakesOn (next (do lineBreaks; next q)) u R w :=
  ((h.takes_lineBreaks hv).next h.solid).next_bind fun _ _ => hq.next hv.solid

/-- A text of no lines, or with a line that starts in some way. -/
def Opens (line : List Char → Prop) (u : List Char) : Prop := u = [] ∨ ∃ v, Broken u v ∧ line v

theorem Opens.mono {line line' : List Char → Prop} (h : Opens line u) (hl : ∀ v, line v → line' v) :
    Opens line' u := h.imp id fun ⟨v, huv, hv⟩ => ⟨v, huv, hl v hv⟩

theorem Opens.head_eq {line : List Char → Prop} (h : Opens line u) :
    ∀ c ∈ u.head?, c = '\n' ∨ c = '\r' := by
  rcases h with rfl | ⟨v, ⟨c, g, hc, -, rfl⟩, -⟩
  · rintro _ ⟨⟩
  · rintro _ ⟨⟩
    exact hc

theorem Opens.endsContent {line : List Char → Prop} (h : Opens line u) : EndsContent u :=
  fun c hc => List.mem_cons_of_mem _ (by simpa using h.head_eq c hc)

/-- No construct on the next line. -/
theorem Opens.failsOn_line {line : List Char → Prop} (h : Opens line u)
    (hl : ∀ v, line v → Ink v ∧ Fails q v) : FailsOn (next (do lineBreaks; next q)) u := by
  rcases h with rfl | ⟨v, huv, hv⟩
  · exact (Fails.bind (fails_lineBreak (by rintro _ ⟨⟩)).bind).next (by rintro _ ⟨⟩)
  · obtain ⟨hink, hfail⟩ := hl v hv
    exact ((huv.takes_lineBreaks hink).next huv.solid).next_bind_fails fun _ _ =>
      hfail.next hink.solid

/-- The first line of a block or of a section. -/
def IsHeading (u : List Char) : Prop := ∃ s v, IsStateName s ∧ Headed s u v

/-- The first line of a section. -/
def IsSectionHeading (u : List Char) : Prop := ∃ k ∈ keywords, ∃ v, Headed k.toList u v

theorem IsSectionHeading.isHeading (h : IsSectionHeading u) : IsHeading u :=
  let ⟨_, hk, v, hv⟩ := h
  ⟨_, v, isStateName_of_mem_keywords hk, hv⟩

/-- A heading starts with a character of a name. -/
theorem IsHeading.exists_cons (h : IsHeading u) : ∃ c v, IsStateChar c ∧ u = c :: v := by
  obtain ⟨s, v, ⟨hne, hall⟩, g, -, rfl⟩ := h
  obtain ⟨c, s, rfl⟩ := List.exists_cons_of_ne_nil hne
  exact ⟨c, _, hall c List.mem_cons_self, rfl⟩

theorem IsHeading.ink (h : IsHeading u) : Ink u := by
  obtain ⟨c, v, hc, rfl⟩ := h.exists_cons
  rintro _ ⟨⟩ hmem
  fin_cases hmem <;> exact absurd hc (by decide)

/-- A construct in brackets is no heading. -/
theorem IsHeading.fails_bracket {k : Unit → Reader α} (h : IsHeading u) :
    Fails (literal "[" >>= k) u := by
  refine Fails.bind (fails_literal_of_head rfl ?_)
  obtain ⟨c, v, hc, rfl⟩ := h.exists_cons
  rintro _ ⟨⟩ rfl
  exact absurd hc (by decide)

/-! ### Tapes on lines of their own -/

theorem LineEnd.length_lt {g : List Char} (h : LineEnd g) (u : List Char) :
    u.length < (strip (g ++ u)).length := by
  obtain ⟨w, hw, hwu⟩ := h.exists_broken u
  rw [hw.alike, hwu.solid.strip_eq]
  obtain ⟨c, g, -, -, rfl⟩ := hwu
  simp

theorem takesOn_tapeLists {blank : Symbol} {line : List Char → Prop} {s : Word} {ss : List Word}
    (h : Led LineEnd (fun s => Bracketed (ContentText blank s)) (s :: ss) u) (hv : Indented v w)
    (hw : Opens line w) (hline : ∀ v, line v → IsHeading v) :
    TakesOn (next tapeLists) (u ++ v)
      (fun as => as.map (·.map (resolve blank)) = (s :: ss).map (·.map (resolve blank))) w := by
  have hsolid : Solid w := hw.endsContent.solid
  have hfail : FailsOn (next (do let _ ← many lineBreak; next tapeList)) w := by
    rcases hw with rfl | ⟨x, hx, hxline⟩
    · -- At the end of the text no bracket comes.
      have hfail : Fails tapeList [] :=
        (Fails.bind (fails_literal_of_head rfl (by rintro _ ⟨⟩))).named
      refine Fails.next (Takes.bind_fails (takes_many_nil ?_) fun _ _ => hfail.next hsolid) hsolid
      exact fails_lineBreak (by rintro _ ⟨⟩)
    · -- A heading on the next line does not start with one.
      have hx' := hline x hxline
      exact ((hx.takes_many_lineBreak hx'.ink).next hx.solid).next_bind_fails fun _ _ =>
        hx'.fails_bracket.named.next hx'.ink.solid
  have htake (s : Word) (g t x : List Char) (hg : LineEnd g)
      (ht : Bracketed (ContentText blank s) t) :
      TakesOn (next (many lineBreak)) (g ++ (t ++ x)) (fun _ => True) (t ++ x) := by
    obtain ⟨y, hy, hyx⟩ := hg.exists_broken (t ++ x)
    exact ((hyx.takes_many_lineBreak ht.ink).next hyx.solid).indent hy
  have hlist (s : Word) (t x : List Char) (ht : Bracketed (ContentText blank s) t) :
      TakesOn (next tapeList) (t ++ x)
        (fun as => as.map (resolve blank) = s.map (resolve blank)) x :=
    (takes_tapeList ht).next ht.ink.solid
  cases h with
  | @cons _ g t _ u hg ht hu =>
      have heach := takesEach_led (F := fun _ => True) hu
        (fun s _ g t w hg ht _ => (htake s g t w hg ht).next_bind fun _ _ => hlist s t w ht)
        (fun _ _ _ _ _ _ _ => trivial) (fun _ w hg => hg.length_lt w) trivial hv.alike hfail
      simp only [List.append_assoc]
      refine (htake s g t (u ++ v) hg ht).next_bind fun _ _ =>
        (hlist s t (u ++ v) ht).bind fun a ha => (heach.next_many hsolid).bind fun as has =>
          takesOn_pure ?_
      exact map_eq_of_forall₂ (.cons ha has)

end TapeMachine.Notation
