import TapeMachine.Proofs.Notation.Gaps

/-!
# Notation — Agreement

Readers on two texts at once.  `Agree S k V p q` says that on texts that `S` relates the readers `p`
and `q` both fail, or both succeed with values that `V` relates and leave texts that `S` relates.
Both have then taken `k` characters at least, without which nothing could be said of repetitions.

A relation of texts is `Congruent` if the texts start with the same character or quoted symbol, or
with nothing that a token starts with; and if what is left after a gap or after empty lines is
related as well, or is the heading of a section.  It is kept by the readers of tokens, lists and
lines.
-/

namespace TapeMachine.Notation

open Reader Grammar

variable {α β α' β' : Type} {S : List Char → List Char → Prop} {u v : List Char} {k : Nat}

/-! ### Putting readers together -/

/-- The readings `x` of `u` and `y` of `v` agree. -/
structure Readings (S : List Char → List Char → Prop) (k : Nat) (V : α → β → Prop)
    (u v : List Char) (x : α × Cursor) (y : β × Cursor) : Prop where
  value : V x.1 y.1
  rest : S x.2.rest y.2.rest
  left : x.2.rest.length + k ≤ u.length
  right : y.2.rest.length + k ≤ v.length

theorem Readings.mono {V V' : α → β → Prop} {j : Nat} {x : α × Cursor} {y : β × Cursor}
    (h : Readings S k V u v x y) (hV : ∀ a b, V a b → V' a b) (hj : j ≤ k) :
    Readings S j V' u v x y where
  value := hV _ _ h.value
  rest := h.rest
  left := (Nat.add_le_add_left hj _).trans h.left
  right := (Nat.add_le_add_left hj _).trans h.right

/-- Readings from where others end. -/
theorem Readings.trans {V : α → β → Prop} {W : α' → β' → Prop} {j : Nat} {x : α × Cursor}
    {y : β × Cursor} {x' : α' × Cursor} {y' : β' × Cursor} (h : Readings S j V u v x y)
    (h' : Readings S k W x.2.rest y.2.rest x' y') : Readings S (j + k) W u v x' y' where
  value := h'.value
  rest := h'.rest
  left := by
    have hleft := h.left
    have hleft' := h'.left
    omega
  right := by
    have hright := h.right
    have hright' := h'.right
    omega

/-- On texts that `S` relates the readers both fail, or their readings agree. -/
def Agree (S : List Char → List Char → Prop) (k : Nat) (V : α → β → Prop) (p : Reader α)
    (q : Reader β) : Prop :=
  ∀ u v n m, S u v → Option.Rel (Readings S k V u v) (p ⟨u, n⟩).result (q ⟨v, m⟩).result

theorem rel_mono {R R' : α → β → Prop} {x : Option α} {y : Option β} (h : Option.Rel R x y)
    (hR : ∀ a b, R a b → R' a b) : Option.Rel R' x y := by
  cases h with
  | some h => exact .some (hR _ _ h)
  | none => exact .none

section

variable {V V' : α → β → Prop} {W : α' → β' → Prop} {p p' : Reader α} {q q' : Reader β}
  {f : α → Reader α'} {g : β → Reader β'}

theorem Agree.mono {j : Nat} (h : Agree S k V p q) (hV : ∀ a b, V a b → V' a b) (hj : j ≤ k) :
    Agree S j V' p q := fun u v n m huv => rel_mono (h u v n m huv) fun _ _ hxy => hxy.mono hV hj

theorem agree_pure {a : α} {b : β} (h : V a b) : Agree S 0 V (pure a) (pure b) :=
  fun _ _ _ _ huv => .some ⟨h, huv, le_rfl, le_rfl⟩

theorem agree_fail : Agree S k V fail fail := fun _ _ _ _ _ => .none

/-- A reading and then the next one, which takes `k` characters more. -/
theorem readings_bind {j : Nat} {x : Option (α × Cursor)} {y : Option (β × Cursor)}
    (h : Option.Rel (Readings S j V u v) x y) (hf : ∀ a b, V a b → Agree S k W (f a) (g b)) :
    Option.Rel (Readings S (j + k) W u v) (x.bind fun x => (f x.1 x.2).result)
      (y.bind fun y => (g y.1 y.2).result) := by
  cases h with
  | none => exact .none
  | some hxy => exact rel_mono (hf _ _ hxy.value _ _ _ _ hxy.rest) fun _ _ => hxy.trans

theorem rel_or {R : α → β → Prop} {x x' : Option α} {y y' : Option β} (h : Option.Rel R x y)
    (h' : Option.Rel R x' y') : Option.Rel R (x.or x') (y.or y') := by
  cases h with
  | none => exact h'
  | some h => exact .some h

theorem Agree.andThen {j : Nat} (h : Agree S j V p q) (hf : ∀ a b, V a b → Agree S k W (f a) (g b)) :
    Agree S (j + k) W (p >>= f) (q >>= g) := by
  intro u v n m huv
  rw [result_bind, result_bind]
  exact readings_bind (h u v n m huv) hf

/-- One construct and then the next one, of which it does not count how much they take. -/
theorem Agree.bind (h : Agree S k V p q) (hf : ∀ a b, V a b → Agree S 0 W (f a) (g b)) :
    Agree S k W (p >>= f) (q >>= g) := h.andThen hf

theorem Agree.map {f : α → α'} {g : β → β'} (h : Agree S k V p q)
    (hW : ∀ a b, V a b → W (f a) (g b)) : Agree S k W (f <$> p) (g <$> q) :=
  h.bind fun a b hab => agree_pure (hW a b hab)

theorem Agree.orElse (h : Agree S k V p q) (h' : Agree S k V p' q') :
    Agree S k V (p.orElse p') (q.orElse q') := by
  intro u v n m huv
  rw [result_orElse, result_orElse]
  exact rel_or (h u v n m huv) (h' u v n m huv)

theorem agree_firstOf {ps : List (Reader α)} {qs : List (Reader β)}
    (h : List.Forall₂ (Agree S k V) ps qs) : Agree S k V (firstOf ps) (firstOf qs) := by
  induction h with
  | nil => exact agree_fail
  | cons h _ ih => exact h.orElse ih

theorem Agree.named (h : Agree S k V p q) : Agree S k V (named p) (named q) := by
  intro u v n m huv
  rw [result_named, result_named]
  exact h u v n m huv

theorem readings_placed {x : Option (α × Cursor)} {y : Option (β × Cursor)} {n m : Nat}
    (h : Option.Rel (Readings S k V u v) x y) :
    Option.Rel (Readings S k (fun a b => V a.value b.value) u v)
      (x.map fun x => ((⟨⟨n, x.2.offset⟩, x.1⟩ : Placed α), x.2))
      (y.map fun y => ((⟨⟨m, y.2.offset⟩, y.1⟩ : Placed β), y.2)) := by
  cases h with
  | none => exact .none
  | some hxy => exact .some ⟨hxy.value, hxy.rest, hxy.left, hxy.right⟩

theorem Agree.placed (h : Agree S k V p q) :
    Agree S k (fun x y => V x.value y.value) (placed p) (placed q) := by
  intro u v n m huv
  rw [result_placed, result_placed]
  exact readings_placed (h u v n m huv)

theorem Agree.optional (h : Agree S k V p q) :
    Agree S 0 (Option.Rel V) (optional p) (optional q) :=
  ((h.map fun _ _ hab => .some hab).mono (fun _ _ h => h) (Nat.zero_le k)).orElse
    (agree_pure .none)

theorem Agree.notAhead (h : Agree S k V p q) :
    Agree S 0 (fun _ _ => True) (notAhead p) (notAhead q) := by
  intro u v n m huv
  have hpq := h u v n m huv
  rw [result_notAhead, result_notAhead]
  generalize (p ⟨u, n⟩).result = a, (q ⟨v, m⟩).result = b at hpq
  cases hpq with
  | none => exact .some ⟨trivial, huv, le_rfl, le_rfl⟩
  | some _ => exact .none

/-- A construct as often as it is there. -/
theorem Agree.repeated (h : Agree S 1 V p q) :
    Agree S 0 (List.Forall₂ V) (repeated p) (repeated q) := by
  -- Both repetitions go on for as long as there is text, so for the same number of times.
  suffices hfrom : ∀ fuel fuel' : List Char, ∀ u v n m, S u v → u.length < fuel.length →
      v.length < fuel'.length → ∀ (done : List α) (done' : List β) (j j' : Nat),
      List.Forall₂ V done.reverse done'.reverse → Option.Rel (Readings S 0 (List.Forall₂ V) u v)
        (repeatFrom p done j fuel ⟨u, n⟩).result (repeatFrom q done' j' fuel' ⟨v, m⟩).result from
    fun u v n m huv => hfrom _ _ u v n m huv (Nat.lt_succ_self _) (Nat.lt_succ_self _) [] [] 0 0 .nil
  intro fuel
  induction fuel with
  | nil => exact fun _ _ _ _ _ _ hf => absurd hf (Nat.not_lt_zero _)
  | cons c fuel ih =>
      intro fuel' u v n m huv hf hf' done done' j j' hdone
      obtain ⟨c', fuel', rfl⟩ := List.exists_cons_of_length_pos (Nat.zero_lt_of_lt hf')
      have hpq := h u v n m huv
      rw [result_repeatFrom, result_repeatFrom]
      generalize (p ⟨u, n⟩).result = a, (q ⟨v, m⟩).result = b at hpq
      cases hpq with
      | none => exact .some ⟨hdone, huv, le_rfl, le_rfl⟩
      | @some x y hxy =>
          have hleft := hxy.left
          have hright := hxy.right
          rw [List.length_cons] at hf hf'
          have hdone' : List.Forall₂ V (x.1 :: done).reverse (y.1 :: done').reverse := by
            rw [List.reverse_cons, List.reverse_cons]
            exact List.rel_append hdone (.cons hxy.value .nil)
          exact rel_mono (ih fuel' _ _ x.2.offset y.2.offset hxy.rest (by omega) (by omega) _ _ _ _
            hdone') fun _ _ hxy' => (hxy.trans hxy').mono (fun _ _ h => h) (Nat.zero_le _)

/-- Readers with the same results agree with the same readers. -/
theorem Agree.congr {p₁ : Reader α} {q₁ : Reader β} (h : Agree S k V p₁ q₁)
    (hp : ∀ c, (p c).result = (p₁ c).result) (hq : ∀ c, (q c).result = (q₁ c).result) :
    Agree S k V p q := by
  intro u v n m huv
  rw [hp, hq]
  exact h u v n m huv

end

/-! ### Relations that the readers keep -/

/-- A character that a token can start with, or go on with, outside of quotes. -/
def IsInk (c : Char) : Prop := c ∉ [' ', '\t', '#', '\n', '\r', '\'']

/-- A text that starts with nothing that a token starts with. -/
def Dull (u : List Char) : Prop :=
  (∀ c ∈ u.head?, ¬ IsInk c) ∧ ¬ ∃ c v, c ≠ '\'' ∧ u = '\'' :: c :: '\'' :: v

/-- How texts start that `S` relates. -/
inductive SameStart (S : List Char → List Char → Prop) : List Char → List Char → Prop
  | ink (c : Char) (u v : List Char) : IsInk c → S u v → SameStart S (c :: u) (c :: v)
  | quoted (c : Char) (u v : List Char) : c ≠ '\'' → S u v →
      SameStart S ('\'' :: c :: '\'' :: u) ('\'' :: c :: '\'' :: v)
  | dull (u v : List Char) : Dull u → Dull v → SameStart S u v

/-- Nothing, or the heading of a section. -/
def Closing (u : List Char) : Prop := u = [] ∨ IsSectionHeading u

/-- A relation of texts that readers keep. -/
structure Congruent (S : List Char → List Char → Prop) : Prop where
  start : ∀ {u v}, S u v → SameStart S u v
  gap : ∀ {u v}, S u v → S (afterGap u) (afterGap v)
  lines : ∀ {u v}, S u v → (AtLineEnd u ↔ AtLineEnd v) ∧ S (afterLines u) (afterLines v) ∨
    Closing (afterLines u) ∧ Closing (afterLines v)

/-! ### Tokens -/

section

variable {f : Char → Bool}

/-- Either both texts start with a character that has the property, or none does. -/
theorem Congruent.head (hS : Congruent S) (hf : ∀ c, f c → IsInk c) (huv : S u v) :
    (∃ c u' v', f c ∧ u = c :: u' ∧ v = c :: v' ∧ S u' v') ∨
      (∀ c ∈ u.head?, f c = false) ∧ ∀ c ∈ v.head?, f c = false := by
  have hnot : ∀ c, ¬ IsInk c → f c = false := fun c hc => by
    by_contra h
    exact hc (hf c (by simpa using h))
  cases hS.start huv with
  | ink c u v _ hrest =>
      by_cases hc : f c
      · exact .inl ⟨c, u, v, hc, rfl, rfl, hrest⟩
      · refine .inr ⟨?_, ?_⟩ <;>
        · rintro _ ⟨⟩
          simpa using hc
  | quoted _ _ _ _ _ =>
      refine .inr ⟨?_, ?_⟩ <;>
      · rintro _ ⟨⟩
        exact hnot _ (by simp [IsInk])
  | dull _ _ hu hv => exact .inr ⟨fun c hc => hnot c (hu.1 c hc), fun c hc => hnot c (hv.1 c hc)⟩

theorem agree_satisfying (hS : Congruent S) (hf : ∀ c, f c → IsInk c) :
    Agree S 1 (· = ·) (satisfying f) (satisfying f) := by
  intro u v n m huv
  rcases hS.head hf huv with ⟨c, u, v, hc, rfl, rfl, hrest⟩ | ⟨hu, hv⟩
  · simp only [Reader.satisfying, hc, if_true]
    exact .some ⟨rfl, hrest, le_rfl, le_rfl⟩
  · rw [fails_satisfying hu, fails_satisfying hv]
    exact .none

theorem agree_characters (hS : Congruent S) {w : List Char} (hw : ∀ c ∈ w, IsInk c) :
    Agree S w.length (· = ·) (characters w) (characters w) := by
  induction w with
  | nil => exact agree_pure rfl
  | cons c w ih =>
      obtain ⟨hc, hw⟩ := List.forall_mem_cons.1 hw
      have hfirst := agree_satisfying hS (f := (· = c)) fun d hd => by
        rw [of_decide_eq_true hd]
        exact hc
      exact (hfirst.andThen fun _ _ _ => ih hw).mono (fun _ _ h => h) (Nat.add_comm ..).le

instance : DecidablePred IsInk := fun _ => inferInstanceAs (Decidable (¬ _))

/-- A word that is not empty and that a token may be. -/
def IsInkWord (w : List Char) : Prop := w ≠ [] ∧ ∀ c ∈ w, IsInk c

instance (w : List Char) : Decidable (IsInkWord w) :=
  @instDecidableAnd _ _ _ (List.decidableBAll _ w)

theorem agree_literal (hS : Congruent S) {w : String} (hw : IsInkWord w.toList) :
    Agree S 1 (· = ·) (literal w) (literal w) :=
  (agree_characters hS hw.2).mono (fun _ _ h => h) (List.length_pos_of_ne_nil hw.1)

theorem Congruent.takeWhile (hS : Congruent S) (hf : ∀ c, f c → IsInk c) (huv : S u v) :
    u.takeWhile f = v.takeWhile f ∧ S (u.dropWhile f) (v.dropWhile f) := by
  induction u generalizing v with
  | nil =>
      rcases hS.head hf huv with ⟨c, u, v, -, hnil, -, -⟩ | ⟨-, hv⟩
      · cases hnil
      · rw [takeWhile_eq_nil hv, dropWhile_eq_self hv]
        exact ⟨rfl, huv⟩
  | cons c u ih =>
      rcases hS.head hf huv with ⟨d, u, v, hd, hu, rfl, hrest⟩ | ⟨hu, hv⟩
      · obtain ⟨rfl, rfl⟩ := List.cons.inj hu
        obtain ⟨htake, hdrop⟩ := ih hrest
        rw [List.takeWhile_cons_of_pos hd, List.takeWhile_cons_of_pos hd,
          List.dropWhile_cons_of_pos hd, List.dropWhile_cons_of_pos hd, htake]
        exact ⟨rfl, hdrop⟩
      · rw [takeWhile_eq_nil hu, dropWhile_eq_self hu, takeWhile_eq_nil hv, dropWhile_eq_self hv]
        exact ⟨rfl, huv⟩

theorem agree_takeWhile (hS : Congruent S) (hf : ∀ c, f c → IsInk c) :
    Agree S 0 (· = ·) (takeWhile f) (takeWhile f) := by
  intro u v n m huv
  obtain ⟨n', hn⟩ := skipWhile_eq f u n
  obtain ⟨m', hm⟩ := skipWhile_eq f v m
  obtain ⟨htake, hdrop⟩ := hS.takeWhile hf huv
  simp only [Reader.takeWhile, hn, hm]
  exact .some ⟨htake, hdrop, (List.dropWhile_sublist _).length_le,
    (List.dropWhile_sublist _).length_le⟩

theorem agree_takeWhile1 (hS : Congruent S) (hf : ∀ c, f c → IsInk c) :
    Agree S 1 (· = ·) (takeWhile1 f) (takeWhile1 f) := by
  refine (agree_satisfying hS hf).bind fun a _ ha => (agree_takeWhile hS hf).bind fun w _ hw => ?_
  rw [← ha, ← hw]
  exact agree_pure rfl

end

/-- A quoted symbol is there or not. -/
theorem result_quotedSymbol {c : Char} (hc : c ≠ '\'') (u : List Char) (n : Nat) :
    (quotedSymbol ⟨'\'' :: c :: '\'' :: u, n⟩).result = some (c, ⟨u, n + 3⟩) := by
  simp [quotedSymbol, result_bind, literal, characters, Reader.satisfying, hc, result_pure, succeed]

theorem fails_quotedSymbol (hu : ¬ ∃ c v, c ≠ '\'' ∧ u = '\'' :: c :: '\'' :: v) :
    Fails quotedSymbol u := by
  intro n
  rw [Option.eq_none_iff_forall_not_mem]
  rintro ⟨s, d⟩ h
  rw [Option.mem_def, quotedSymbol, result_bind, Option.bind_eq_some_iff] at h
  obtain ⟨⟨⟨⟩, c₁⟩, h₁, h⟩ := h
  rw [result_bind, Option.bind_eq_some_iff] at h
  obtain ⟨⟨c, c₂⟩, h₂, h⟩ := h
  rw [result_bind, Option.bind_eq_some_iff] at h
  obtain ⟨⟨⟨⟩, c₃⟩, h₃, -⟩ := h
  have hopen := result_characters h₁
  have hclose := result_characters h₃
  obtain ⟨x, n₁⟩ := c₁
  cases x with
  | nil => cases h₂
  | cons y x =>
      by_cases hy : y = '\''
      · simp [Reader.satisfying, hy] at h₂
      · simp only [Reader.satisfying, bne_iff_ne.2 hy, if_true, Option.some.injEq,
          Prod.mk.injEq] at h₂
        obtain ⟨rfl, rfl⟩ := h₂
        simp only at hopen hclose
        rw [hclose] at hopen
        exact hu ⟨y, c₃.rest, hy, hopen⟩

theorem agree_symbol (hS : Congruent S) : Agree S 1 (· = ·) symbol symbol := by
  refine Agree.named (Agree.orElse (fun u v n m huv => ?_) (agree_satisfying hS fun c hc => ?_))
  · cases hS.start huv with
    | ink c u v hc _ =>
        have hne : ∀ w : List Char, ¬ ∃ d x, d ≠ '\'' ∧ c :: w = '\'' :: d :: '\'' :: x := by
          rintro w ⟨d, x, -, h⟩
          exact hc (by simp [(List.cons.inj h).1])
        rw [fails_quotedSymbol (hne u), fails_quotedSymbol (hne v)]
        exact .none
    | quoted c u v hc hrest =>
        rw [result_quotedSymbol hc, result_quotedSymbol hc]
        exact .some ⟨rfl, hrest, by simp, by simp⟩
    | dull _ _ hu hv =>
        rw [fails_quotedSymbol hu.2, fails_quotedSymbol hv.2]
        exact .none
  · simp only [isPlain, isLineEnd, Bool.and_eq_true, Bool.not_eq_true', bne_iff_ne,
      Bool.or_eq_false_iff, decide_eq_false_iff_not] at hc
    simp [IsInk, hc]

theorem isInk_of_isStateChar {c : Char} (h : IsStateChar c) : IsInk c := by
  intro hmem
  fin_cases hmem <;> exact absurd h (by decide)

theorem agree_state (hS : Congruent S) : Agree S 1 (· = ·) state state :=
  ((agree_takeWhile1 hS fun c hc => isInk_of_isStateChar (by simpa [IsStateChar] using hc)).map
    fun _ _ h => congrArg String.ofList h).named

theorem agree_digits (hS : Congruent S) :
    Agree S 1 (· = ·) (takeWhile1 Char.isDigit) (takeWhile1 Char.isDigit) :=
  agree_takeWhile1 hS fun c hc => isInk_of_isStateChar (.inl (by simp [Char.isAlphanum, hc]))

theorem agree_number (hS : Congruent S) :
    Agree S 1 (fun x y => x.value = y.value) number number :=
  (agree_digits hS).named.placed

theorem agree_index (hS : Congruent S) : Agree S 1 (fun x y => x.value = y.value) index index := by
  have hsign := (agree_satisfying hS (f := (· = '-')) fun c hc => by
    rw [of_decide_eq_true hc]
    decide).optional
  refine (Agree.named (hsign.andThen fun a b hab => (agree_digits hS).bind fun _ _ h => ?_)).placed
  have hab : a = b := by
    cases hab with
    | some h => rw [h]
    | none => rfl
  rw [hab, h]
  exact agree_pure rfl

theorem agree_boolean (hS : Congruent S) : Agree S 1 (· = ·) boolean boolean :=
  Agree.named (((agree_literal hS (by decide)).bind fun _ _ _ => agree_pure rfl).orElse
    ((agree_literal hS (by decide)).bind fun _ _ _ => agree_pure rfl))

theorem agree_direction (hS : Congruent S) : Agree S 1 (· = ·) direction direction := by
  have hsign (w : String) (m : Move) (hw : IsInkWord w.toList) :
      Agree S 1 (· = ·) (do literal w; return m) (do literal w; return m) :=
    (agree_literal hS hw).bind fun _ _ _ => agree_pure rfl
  refine Agree.named (agree_firstOf ?_)
  iterate 7 refine .cons (hsign _ _ (by decide)) ?_
  exact .nil

/-! ### Gaps and lists -/

section

variable {V : α → β → Prop} {p : Reader α} {q : Reader β}

theorem Agree.next (h : Agree S k V p q) (hS : Congruent S) : Agree S k V (next p) (next q) := by
  intro u v n m huv
  obtain ⟨n', hn⟩ := exists_next p u n
  obtain ⟨m', hm⟩ := exists_next q v m
  rw [hn, hm]
  refine rel_mono (h _ _ n' m' (hS.gap huv)) fun x y hxy => ⟨hxy.value, hxy.rest, ?_, ?_⟩
  · exact hxy.left.trans (length_afterGap_le u)
  · exact hxy.right.trans (length_afterGap_le v)

/-- A construct as often as it is there, the first one where it stands: what comes before each of
them is read with it. -/
theorem Agree.next_many (h : Agree S 1 V (Grammar.next p) (Grammar.next q)) (hS : Congruent S) :
    Agree S 0 (List.Forall₂ V) (Grammar.next (many p)) (Grammar.next (many q)) := by
  intro u v n m huv
  obtain ⟨n', hn⟩ := exists_gap u n
  obtain ⟨m', hm⟩ := exists_gap v m
  have hpq := h u v n m huv
  simp only [Grammar.next, result_bind, hn, hm, Option.bind_some] at hpq ⊢
  rw [many, many, result_orElse, result_orElse, result_bind, result_bind]
  refine rel_or ?_ (.some ⟨.nil, hS.gap huv, length_afterGap_le u, length_afterGap_le v⟩)
  exact rel_mono (readings_bind hpq fun a b hab => h.repeated.bind fun _ _ has =>
    agree_pure (.cons hab has)) fun _ _ hxy => hxy.mono (fun _ _ h => h) (Nat.zero_le _)

/-- Constructs with commas between. -/
theorem Agree.listOf (h : Agree S 1 V p q) (hS : Congruent S) :
    Agree S 1 (List.Forall₂ V) (listOf p) (listOf q) := by
  have hmore : Agree S 1 V (do literal ","; Grammar.next p) (do literal ","; Grammar.next q) :=
    (agree_literal hS (by decide)).bind fun _ _ _ =>
      (h.next hS).mono (fun _ _ h => h) (Nat.zero_le 1)
  exact h.bind fun _ _ ha => ((hmore.next hS).next_many hS).bind fun _ _ has =>
    agree_pure (.cons ha has)

/-- A construct between brackets, of which something is made. -/
theorem Agree.brackets {f : α → α'} {g : β → β'} {W : α' → β' → Prop} (h : Agree S k V p q)
    (hS : Congruent S) (hW : ∀ a b, V a b → W (f a) (g b)) :
    Agree S 1 W (do literal "["; let a ← Grammar.next p; Grammar.next (literal "]"); return f a)
      (do literal "["; let b ← Grammar.next q; Grammar.next (literal "]"); return g b) := by
  have hclose := ((agree_literal hS (w := "]") (by decide)).next hS).mono (j := 0) (fun _ _ h => h)
    (Nat.zero_le 1)
  exact (agree_literal hS (by decide)).bind fun _ _ _ =>
    ((h.next hS).mono (fun _ _ h => h) (Nat.zero_le k)).bind fun _ _ hab =>
      hclose.bind fun _ _ _ => agree_pure (hW _ _ hab)

/-- A section with a content of one kind. -/
theorem Agree.headed {word : String} (h : Agree S 0 V (Grammar.next p) (Grammar.next q))
    (hS : Congruent S) (hw : IsInkWord word.toList) :
    Agree S 1 V (headed word p) (headed word q) := by
  have hcolon := ((agree_literal hS (w := ":") (by decide)).next hS).mono (j := 0) (fun _ _ h => h)
    (Nat.zero_le 1)
  exact ((agree_literal hS hw).bind fun _ _ _ => hcolon.bind fun _ _ _ => h).named

end

/-! ### Lines -/

section

variable {V : α → β → Prop} {p : Reader α} {q : Reader β}

/-- A construct on a line of its own, if it is not found at the heading of a section. -/
theorem Agree.line (h : Agree S k V p q) (hS : Congruent S) (hp : ∀ u, Closing u → Fails p u)
    (hq : ∀ u, Closing u → Fails q u) :
    Agree S k V (Grammar.next do lineBreaks; Grammar.next p)
      (Grammar.next do lineBreaks; Grammar.next q) := by
  intro u v n m huv
  rcases hS.lines huv with ⟨hiff, hlines⟩ | ⟨hu, hv⟩
  · by_cases hline : AtLineEnd u
    · obtain ⟨n', hn⟩ := hline.exists_next_line p n
      obtain ⟨m', hm⟩ := (hiff.1 hline).exists_next_line q m
      rw [hn, hm]
      refine rel_mono (h _ _ n' m' hlines) fun x y hxy => ⟨hxy.value, hxy.rest, ?_, ?_⟩
      · exact hxy.left.trans (length_afterLines_le u)
      · exact hxy.right.trans (length_afterLines_le v)
    · rw [fails_next_line hline, fails_next_line (mt hiff.2 hline)]
      exact .none
  · rw [fails_next_line_of_fails (hp _ hu), fails_next_line_of_fails (hq _ hv)]
    exact .none

/-- A construct on this line or on one of its own. -/
theorem Agree.lines (h : Agree S k V p q) (hS : Congruent S) (hp : ∀ u, Closing u → Fails p u)
    (hq : ∀ u, Closing u → Fails q u) :
    Agree S k V (Grammar.next do let _ ← many lineBreak; Grammar.next p)
      (Grammar.next do let _ ← many lineBreak; Grammar.next q) := by
  intro u v n m huv
  obtain ⟨n', hn⟩ := exists_next_lines p u n
  obtain ⟨m', hm⟩ := exists_next_lines q v m
  rw [hn, hm]
  rcases hS.lines huv with ⟨-, hlines⟩ | ⟨hu, hv⟩
  · refine rel_mono (h _ _ n' m' hlines) fun x y hxy => ⟨hxy.value, hxy.rest, ?_, ?_⟩
    · exact hxy.left.trans (length_afterLines_le u)
    · exact hxy.right.trans (length_afterLines_le v)
  · rw [hp _ hu, hq _ hv]
    exact .none

end

end TapeMachine.Notation
