import TapeMachine.Proofs.Notation.Tokens

/-!
# Notation — Lists

The readers of lists.  `takesEach_led` goes from a list as it is written to the items that are read
one after the other.  `Token p item R` says that `p` reads an item as it is written, wherever it
stands; lists of tokens have commas between and brackets around (`Token.takes_list`), but the
content of a single tape has no brackets (`takes_symbols`).
-/

namespace TapeMachine.Notation

open Reader Grammar

variable {α β : Type} {u v w : List Char} {p : Reader α} {item : β → List Char → Prop}
  {R : β → α → Prop} {bs : List β}

theorem map_eq_of_forall₂ {γ : Type} {f : α → γ} {g : β → γ} {as : List α}
    (h : List.Forall₂ (fun b a => f a = g b) bs as) : as.map f = bs.map g := by
  induction h with
  | nil => rfl
  | cons hd _ ih => rw [List.map_cons, List.map_cons, hd, ih]

/-- **A list as it is written is one of constructs that are there**: each item is read when what
comes before it is read with it, and `F` is what an item needs to know of the text after it. -/
theorem takesEach_led {lead F : List Char → Prop} (h : Led lead item bs u)
    (htake : ∀ b ∈ bs, ∀ g t w, lead g → item b t → F w → TakesOn p (g ++ (t ++ w)) (R b) w)
    (hfollow : ∀ b ∈ bs, ∀ g t w, lead g → item b t → F (g ++ (t ++ w)))
    (hlead : ∀ g w, lead g → w.length < (strip (g ++ w)).length) (hv : F v) (hw : Alike v w)
    (hfail : FailsOn p w) : TakesEach p R bs (u ++ v) w := by
  induction h with
  | nil => exact .nil hw hfail
  | @cons b g t bs u hg ht hrest ih =>
      obtain ⟨hb, htake⟩ := List.forall_mem_cons.1 htake
      obtain ⟨-, hfollow'⟩ := List.forall_mem_cons.1 hfollow
      have hnext : F (u ++ v) := by
        cases hrest with
        | nil => exact hv
        | cons hg' ht' _ =>
            simp only [List.append_assoc]
            exact hfollow' _ List.mem_cons_self _ _ _ hg' ht'
      have hlen : (strip (u ++ v)).length < (strip (g ++ (t ++ (u ++ v)))).length :=
        calc (strip (u ++ v)).length ≤ (u ++ v).length := length_strip_le _
          _ ≤ (t ++ (u ++ v)).length := by simp
          _ < (strip (g ++ (t ++ (u ++ v)))).length := hlead g _ hg
      simp only [List.append_assoc]
      exact .cons (hb g t (u ++ v) hg ht hnext) hlen (ih htake hfollow')

/-! ### Commas and brackets -/

theorem Blanks.cut {g : List Char} (hg : Blanks g) (hu : Cut u) : Cut (g ++ u) := by
  cases g with
  | nil => exact hu
  | cons c g =>
      rintro _ ⟨⟩
      rcases hg c List.mem_cons_self with rfl | rfl <;> decide

theorem cut_cons {c : Char} (hc : ¬ IsStateChar c) : Cut (c :: u) := by
  rintro _ ⟨⟩
  exact hc

theorem solid_cons {c : Char} (hc : c ∉ [' ', '\t', '#']) : Solid (c :: u) := by
  rintro _ ⟨⟩
  simpa using hc

theorem ink_cons {c : Char} (hc : c ∉ [' ', '\t', '#', '\n', '\r']) : Ink (c :: u) := by
  rintro _ ⟨⟩
  exact hc

theorem Comma.cut {g : List Char} (h : Comma g) : Cut (g ++ u) := by
  obtain ⟨x, y, hx, -, rfl⟩ := h
  rw [List.append_assoc]
  exact hx.cut (cut_cons (by decide))

theorem Comma.length_lt {g : List Char} (h : Comma g) (u : List Char) :
    u.length < (strip (g ++ u)).length := by
  obtain ⟨x, y, hx, -, rfl⟩ := h
  have hsolid : Solid (',' :: (y ++ u)) := solid_cons (by decide)
  rw [List.append_assoc, List.cons_append, (hx.indented _).alike, hsolid.strip_eq]
  simp

/-- A comma, and blanks around it. -/
theorem Comma.takesOn {q : Reader α} {g : List Char} (h : Comma g)
    (hq : ∀ v, Takes q (',' :: v) (fun _ => True) v) :
    TakesOn (next q) (g ++ u) (fun _ => True) u := by
  obtain ⟨x, y, hx, hy, rfl⟩ := h
  have htake : Takes q (',' :: (y ++ u)) (fun _ => True) u :=
    (hq _).mono (fun _ h => h) (hy.indented u).alike
  refine (htake.next (solid_cons (by decide))).indent ?_
  rw [List.append_assoc]
  exact hx.indented _

/-- Items with commas in front go on no name. -/
theorem cut_led (hu : Led Comma item bs u) (hv : Cut v) : Cut (u ++ v) := by
  cases hu with
  | nil => exact hv
  | cons hg _ _ =>
      rw [List.append_assoc]
      exact hg.cut

/-- The reader takes the items as they are written. -/
structure Token (p : Reader α) (item : β → List Char → Prop) (R : β → α → Prop) : Prop where
  takes : ∀ {b t w}, item b t → Cut w → Takes p (t ++ w) (R b) w
  ink : ∀ {b t w}, item b t → Ink (t ++ w)

theorem Token.solid (h : Token p item R) {b : β} {t : List Char} (ht : item b t) : Solid (t ++ w) :=
  (h.ink ht).solid

theorem Token.ink_separated (h : Token p item R) {between : List Char → Prop} {t : List Char}
    (ht : Separated between item bs t) : Ink (t ++ w) := by
  cases ht with
  | cons hb _ =>
      rw [List.append_assoc]
      exact h.ink hb

theorem Token.takesOn_next (h : Token p item R) {b : β} {t : List Char} (ht : item b t)
    (hw : Cut w) : TakesOn (next p) (t ++ w) (R b) w :=
  Takes.next (h.takes ht hw) (h.solid ht)

/-- Tokens with commas between, up to what is neither blank nor a comma. -/
theorem Token.takes_listOf (h : Token p item R) {t : List Char} (ht : Separated Comma item bs t)
    (hv : Cut v) (hvw : Indented v w) (hw : ∀ c ∈ w.head?, c ∉ [' ', '\t', '#', ',']) :
    Takes (listOf p) (t ++ v) (List.Forall₂ R bs) w := by
  cases ht with
  | @cons b t bs u ht hu =>
      have hsolid : Solid w := fun c hc => by
        have := hw c hc
        simp_all
      have hfail : Fails (literal ",") w := by
        refine fails_literal_of_head rfl ?_
        rintro _ hc rfl
        exact hw ',' hc (by decide)
      have heach : TakesEach (next (do literal ","; next p)) R bs (u ++ v) w := by
        refine takesEach_led hu (fun b _ g t w hg ht hw => ?_) (fun b _ g t w hg _ => hg.cut)
          (fun g w hg => hg.length_lt w) hv hvw.alike (hfail.bind.next hsolid)
        exact (hg.takesOn fun v => takes_literal ",").next_bind fun _ _ => h.takesOn_next ht hw
      rw [List.append_assoc]
      exact (h.takes ht (cut_led hu hv)).bind fun a ha => (heach.next_many hsolid).bind
        fun as has => takesOn_pure (.cons ha has)

/-- A construct in brackets, of which something is made. -/
theorem takes_brackets {γ : Type} {q : Reader α} {f : α → γ} {S : γ → Prop}
    {content : List Char → Prop} {t : List Char} (ht : Bracketed content t)
    (hq : ∀ u g, content u → Blanks g →
      TakesOn (next q) (u ++ (g ++ ']' :: w)) (fun a => S (f a)) (']' :: w)) :
    Takes (do literal "["; let a ← next q; next (literal "]"); return f a) (t ++ w) S w := by
  obtain ⟨g, u, g', hg, hu, hg', rfl⟩ := ht
  have hclose : TakesOn (next (literal "]")) (']' :: w) (fun _ => True) w :=
    (takes_literal "]").next (solid_cons (by decide))
  have hcontent : TakesOn (next q) (g ++ (u ++ (g' ++ ']' :: w))) (fun a => S (f a)) (']' :: w) :=
    (hq u g' hu hg').indent (hg.indented _)
  simp only [List.cons_append, List.append_assoc, List.nil_append]
  exact (takes_literal "[").bind fun _ _ => hcontent.bind fun a ha => hclose.bind fun _ _ =>
    takesOn_pure ha

theorem Bracketed.ink {content : List Char → Prop} {t : List Char} (h : Bracketed content t) :
    Ink (t ++ u) := by
  obtain ⟨g, x, g', -, -, -, rfl⟩ := h
  exact ink_cons (by decide)

theorem Token.takes_list (h : Token p item R) {t : List Char} (ht : ListText item bs t) :
    Takes (bracketed (listOf p)) (t ++ w) (List.Forall₂ R bs) w := by
  refine takes_brackets (f := id) ht fun u g hu hg => ?_
  have hcut : Cut (g ++ ']' :: w) := hg.cut (cut_cons (by decide))
  refine Takes.next (h.takes_listOf hu hcut (hg.indented _) ?_) ?_
  · rintro _ ⟨⟩
    decide
  · exact (h.ink_separated hu).solid

/-! ### Symbols, moves, states and positions -/

theorem SymbolText.ink {s : Symbol} {t : List Char} (h : SymbolText s t) : Ink (t ++ u) := by
  cases h with
  | quoted => exact ink_cons (by decide)
  | plain hs hw =>
      refine ink_cons fun hmem => ?_
      fin_cases hmem
      · cases hw
      · cases hw
      · exact hs (by decide)
      · cases hw
      · cases hw

/-- A symbol stands for the same one as what is read. -/
theorem token_symbol (blank : Symbol) :
    Token symbol (MarkedText blank) fun s a => resolve blank a = resolve blank s where
  takes := by
    rintro s t w (h | ⟨rfl, h⟩) -
    · exact (takes_symbol h).mono (fun a ha => ha ▸ rfl) (.refl w)
    · refine (takes_symbol h).mono ?_ (.refl w)
      rintro _ rfl
      simp [resolve]
  ink := by
    rintro s t w (h | ⟨-, h⟩)
    · exact h.ink
    · exact h.ink

theorem token_direction : Token direction MoveText fun m a => a = m where
  takes h _ := takes_direction h
  ink h := by
    cases h with
    | left h | right h | stay h => fin_cases h <;> exact ink_cons (by decide)

theorem ink_of_forall {t : List Char} {P : Char → Prop} (ht : t ≠ []) (hall : ∀ c ∈ t, P c)
    (hP : ∀ c ∈ [' ', '\t', '#', '\n', '\r'], ¬ P c) : Ink (t ++ u) := by
  obtain ⟨c, t, rfl⟩ := List.exists_cons_of_ne_nil ht
  rintro _ ⟨⟩ hmem
  exact hP c hmem (hall c List.mem_cons_self)

theorem IsStateName.ink {t : List Char} (h : IsStateName t) : Ink (t ++ u) :=
  ink_of_forall h.1 h.2 (by intro c hc; fin_cases hc <;> decide)

theorem token_state : Token state StateText fun s a => a = s where
  takes h hw := takes_state h hw
  ink h := h.1.ink

theorem CountText.ink {n : Nat} {t : List Char} (h : CountText n t) : Ink (t ++ u) :=
  ink_of_forall h.1 h.2.1 (by intro c hc; fin_cases hc <;> decide)

theorem token_index : Token index PositionText fun i x => Numeral.value x.value = i where
  takes h hw := takes_index h hw
  ink h := by
    cases h with
    | positive h => exact h.ink
    | negative h => exact ink_cons (by decide)

/-! ### What tapes hold -/

/-- What ends the content of a tape. -/
def EndsContent (u : List Char) : Prop := ∀ c ∈ u.head?, c ∈ [']', '\n', '\r']

theorem EndsContent.solid (h : EndsContent u) : Solid u := by
  intro c hc
  have := h c hc
  fin_cases this <;> decide

theorem EndsContent.fails_symbol (h : EndsContent u) : Fails symbol u := by
  refine Notation.fails_symbol fun c hc => ?_
  have := h c hc
  fin_cases this <;> decide

theorem EndsContent.cut (h : EndsContent u) : Cut u := by
  intro c hc
  have := h c hc
  fin_cases this <;> decide

/-- Symbols with commas between. -/
theorem takes_symbols {blank : Symbol} {ss : Word} {t : List Char}
    (ht : Separated Comma (MarkedText blank) ss t) (hv : Indented v w) (hw : EndsContent w) :
    Takes symbols (t ++ v) (fun as => as.map (resolve blank) = ss.map (resolve blank)) w := by
  have hcut : Cut v := by
    obtain ⟨g, hg, rfl⟩ := hv
    exact hg.cut hw.cut
  have hcomma : Fails (literal ",") w := by
    refine fails_literal_of_head rfl ?_
    rintro _ hc rfl
    exact absurd (hw ',' hc) (by decide)
  have hfail : Fails (do let _ ← optional (literal ","); next symbol) w :=
    hcomma.optional.bind_fails fun _ _ => hw.fails_symbol.next hw.solid
  cases ht with
  | @cons s t ss u ht hu =>
      have heach : TakesEach (next (do let _ ← optional (literal ","); next symbol))
          (fun s a => resolve blank a = resolve blank s) ss (u ++ v) w := by
        refine takesEach_led hu (fun b _ g t w hg ht hw => ?_) (fun b _ g t w hg _ => hg.cut)
          (fun g w hg => hg.length_lt w) hcut hv.alike (hfail.next hw.solid)
        refine (hg.takesOn fun v => ?_).next_bind fun _ _ =>
          (token_symbol blank).takesOn_next ht hw
        exact (takes_literal ",").optional.mono (fun _ _ => trivial) (.refl v)
      rw [List.append_assoc]
      refine Takes.named (((token_symbol blank).takes ht (cut_led hu hcut)).bind fun a ha =>
        (heach.next_many hw.solid).bind fun as has => takesOn_pure ?_)
      exact map_eq_of_forall₂ (.cons ha has)

/-- The content of a tape in brackets. -/
theorem takes_tapeList {blank : Symbol} {ss : Word} {t : List Char}
    (ht : Bracketed (ContentText blank ss) t) :
    Takes tapeList (t ++ w) (fun as => as.map (resolve blank) = ss.map (resolve blank)) w := by
  have hend : EndsContent (']' :: w) := by
    rintro _ ⟨⟩
    decide
  refine (takes_brackets ht fun u g hu hg => ?_).named
  rcases hu with ⟨rfl, rfl⟩ | hu
  · have hfail : Fails symbols (']' :: w) := hend.fails_symbol.bind.named
    refine ((hfail.optional.mono ?_ (.refl _)).next hend.solid).indent (hg.indented _)
    rintro _ rfl
    rfl
  · refine ((takes_symbols hu (hg.indented _) hend).optional.mono ?_ (.refl _)).next ?_
    · rintro _ ⟨as, has, rfl⟩
      exact has
    · exact ((token_symbol blank).ink_separated hu).solid

end TapeMachine.Notation
