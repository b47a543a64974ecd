import Mathlib.Data.List.Basic

/-!
# Results

What came before a result.  Where a computation comes to a value and not to an error, so did each of
its parts; the error of a list is the first fault among its items (`foldlM_eq_error_iff`).
-/

namespace TapeMachine

variable {α β ε ε' : Type}

theorem bind_eq_ok_iff {x : Except ε α} {f : α → Except ε β} {b : β} :
    x >>= f = .ok b ↔ ∃ a, x = .ok a ∧ f a = .ok b := by
  cases x <;> simp [bind, Except.bind]

theorem bind_eq_error_iff {x : Except ε α} {f : α → Except ε β} {e : ε} :
    x >>= f = .error e ↔ x = .error e ∨ ∃ a, x = .ok a ∧ f a = .error e := by
  cases x <;> simp [bind, Except.bind]

theorem map_eq_ok_iff {x : Except ε α} {f : α → β} {b : β} :
    x.map f = .ok b ↔ ∃ a, x = .ok a ∧ f a = b := by
  cases x <;> simp [Except.map]

theorem map_eq_error_iff {x : Except ε α} {f : α → β} {e : ε} :
    x.map f = .error e ↔ x = .error e := by
  cases x <;> simp [Except.map]

theorem mapError_eq_ok_iff {x : Except ε α} {f : ε → ε'} {a : α} :
    x.mapError f = .ok a ↔ x = .ok a := by
  cases x <;> simp [Except.mapError]

/-- Where each item gives a result, so does the list. -/
theorem mapM_eq_ok {f : α → Except ε β} {g : α → β} {as : List α}
    (h : ∀ a ∈ as, f a = .ok (g a)) : as.mapM f = .ok (as.map g) := by
  induction as with
  | nil => rfl
  | cons a as ih =>
      obtain ⟨ha, has⟩ := List.forall_mem_cons.1 h
      rw [List.mapM_cons, ha, ih has]
      rfl

/-- Each of the results of a list is that of one of the items. -/
theorem exists_of_mem_mapM {f : α → Except ε β} {as : List α} {bs : List β}
    (h : as.mapM f = .ok bs) : ∀ b ∈ bs, ∃ a ∈ as, f a = .ok b := by
  induction as generalizing bs with
  | nil =>
      cases h
      exact nofun
  | cons a as ih =>
      rw [List.mapM_cons] at h
      obtain ⟨b, hb, h⟩ := bind_eq_ok_iff.1 h
      obtain ⟨bs', hbs, h⟩ := bind_eq_ok_iff.1 h
      cases h
      refine List.forall_mem_cons.2 ⟨⟨a, List.mem_cons_self, hb⟩, fun b' hb' => ?_⟩
      obtain ⟨a', ha', h'⟩ := ih hbs b' hb'
      exact ⟨a', List.mem_cons_of_mem a ha', h'⟩

/-- A list gives a result where each of its items is good. -/
theorem mapM_eq_ok_iff {f : α → Except ε β} {good : α → Prop} {g : α → β}
    (h : ∀ a b, f a = .ok b ↔ good a ∧ g a = b) {as : List α} {bs : List β} :
    as.mapM f = .ok bs ↔ (∀ a ∈ as, good a) ∧ as.map g = bs := by
  induction as generalizing bs with
  | nil => simp [pure, Except.pure]
  | cons a as ih =>
      rw [List.mapM_cons, bind_eq_ok_iff, List.forall_mem_cons, List.map_cons]
      constructor
      · rintro ⟨b, hb, hbs⟩
        obtain ⟨bs', hbs', ⟨⟩⟩ := bind_eq_ok_iff.1 hbs
        obtain ⟨ha, rfl⟩ := (h a b).1 hb
        obtain ⟨has, rfl⟩ := ih.1 hbs'
        exact ⟨⟨ha, has⟩, rfl⟩
      · rintro ⟨⟨ha, has⟩, rfl⟩
        exact ⟨g a, (h a _).2 ⟨ha, rfl⟩, bind_eq_ok_iff.2 ⟨as.map g, ih.2 ⟨has, rfl⟩, rfl⟩⟩

/-- The computations come to the same value, if to any. -/
def SameValue (x y : Except ε α) : Prop := ∀ a, x = .ok a ↔ y = .ok a

theorem SameValue.refl (x : Except ε α) : SameValue x x := fun _ => Iff.rfl

theorem sameValue_error (e e' : ε) : SameValue (.error e : Except ε α) (.error e') :=
  fun _ => ⟨nofun, nofun⟩

theorem SameValue.bind {x y : Except ε α} {f g : α → Except ε β} (h : SameValue x y)
    (hf : ∀ a, SameValue (f a) (g a)) : SameValue (x >>= f) (y >>= g) := fun b => by
  rw [bind_eq_ok_iff, bind_eq_ok_iff]
  exact exists_congr fun a => and_congr (h a) (hf a b)

/-- Items that are replaced by others with the same values. -/
theorem sameValue_mapM {f : α → Except ε β} {r : α → α} (h : ∀ a, SameValue (f a) (f (r a)))
    (as : List α) : SameValue (as.mapM f) ((as.map r).mapM f) := by
  induction as with
  | nil => exact .refl _
  | cons a as ih =>
      rw [List.map_cons, List.mapM_cons, List.mapM_cons]
      exact (h a).bind fun _ => ih.bind fun _ => .refl _

theorem sameValue_foldlM {f : β → α → Except ε β} {r : α → α}
    (h : ∀ b a, SameValue (f b a) (f b (r a))) (as : List α) (b : β) :
    SameValue (as.foldlM f b) ((as.map r).foldlM f b) := by
  induction as generalizing b with
  | nil => exact .refl _
  | cons a as ih =>
      rw [List.map_cons, List.foldlM_cons, List.foldlM_cons]
      exact (h b a).bind ih

/-! ### Items in another order -/

section Order

variable {f : β → α → Except ε β} {R : β → β → Prop}

/-- From related starts the items come to related values. -/
theorem exists_foldlM_of_rel
    (hstep : ∀ {b b' c a}, R b b' → f b a = .ok c → ∃ c', f b' a = .ok c' ∧ R c c')
    {as : List α} {b b' c : β} (hb : R b b') (h : as.foldlM f b = .ok c) :
    ∃ c', as.foldlM f b' = .ok c' ∧ R c c' := by
  induction as generalizing b b' with
  | nil =>
      cases h
      exact ⟨b', rfl, hb⟩
  | cons a as ih =>
      rw [List.foldlM_cons] at h
      obtain ⟨e, he, h⟩ := bind_eq_ok_iff.1 h
      obtain ⟨e', he', hR⟩ := hstep hb he
      obtain ⟨c', hc', hc⟩ := ih hR h
      refine ⟨c', ?_, hc⟩
      rw [List.foldlM_cons]
      exact bind_eq_ok_iff.2 ⟨e', he', hc'⟩

/-- Where two items that follow each other may change places, the items may come in any order. -/
theorem exists_foldlM_of_perm (hrefl : ∀ b, R b b) (htrans : ∀ {b c d}, R b c → R c d → R b d)
    (hstep : ∀ {b b' c a}, R b b' → f b a = .ok c → ∃ c', f b' a = .ok c' ∧ R c c')
    (hswap : ∀ {b c e a a'}, f b a = .ok c → f c a' = .ok e →
      ∃ c' e', f b a' = .ok c' ∧ f c' a = .ok e' ∧ R e e')
    {as as' : List α} (h : as.Perm as') {b c : β} (hc : as.foldlM f b = .ok c) :
    ∃ c', as'.foldlM f b = .ok c' ∧ R c c' := by
  induction h generalizing b c with
  | nil => exact ⟨c, hc, hrefl c⟩
  | cons a _ ih =>
      rw [List.foldlM_cons] at hc
      obtain ⟨e, he, hc⟩ := bind_eq_ok_iff.1 hc
      obtain ⟨c', hc', hR⟩ := ih hc
      refine ⟨c', ?_, hR⟩
      rw [List.foldlM_cons]
      exact bind_eq_ok_iff.2 ⟨e, he, hc'⟩
  | swap a a' as =>
      rw [List.foldlM_cons] at hc
      obtain ⟨d, hd, hc⟩ := bind_eq_ok_iff.1 hc
      rw [List.foldlM_cons] at hc
      obtain ⟨e, he, hc⟩ := bind_eq_ok_iff.1 hc
      obtain ⟨d', e', hd', he', hR⟩ := hswap hd he
      obtain ⟨c', hc', hR⟩ := exists_foldlM_of_rel hstep hR hc
      refine ⟨c', ?_, hR⟩
      rw [List.foldlM_cons]
      refine bind_eq_ok_iff.2 ⟨d', hd', ?_⟩
      rw [List.foldlM_cons]
      exact bind_eq_ok_iff.2 ⟨e', he', hc'⟩
  | trans _ _ ih ih' =>
      obtain ⟨e, he, hR⟩ := ih hc
      obtain ⟨c', hc', hR'⟩ := ih' he
      exact ⟨c', hc', htrans hR hR'⟩

end Order

/-! ### The first fault -/

/-- Each item may be at fault, given those before it; of those at fault the first one has the fault
`e`. -/
def FirstFault (faulty : List α → α → ε → Prop) (as : List α) (e : ε) : Prop :=
  ∃ before a after, as = before ++ a :: after ∧ faulty before a e ∧
    ∀ bs b cs, before = bs ++ b :: cs → ∀ e', ¬ faulty bs b e'

section FirstFault

variable {faulty : List α → α → ε → Prop} {a : α} {as : List α} {e : ε}

theorem not_firstFault_nil : ¬ FirstFault faulty [] e := by
  rintro ⟨before, a, after, h, -⟩
  simp at h

theorem firstFault_cons : FirstFault faulty (a :: as) e ↔
    faulty [] a e ∨ (∀ e', ¬ faulty [] a e') ∧ FirstFault (fun bs => faulty (a :: bs)) as e := by
  constructor
  · rintro ⟨before, x, after, h, hx, hbefore⟩
    cases before with
    | nil =>
        obtain ⟨rfl, -⟩ := List.cons.inj h
        exact .inl hx
    | cons b before =>
        obtain ⟨rfl, rfl⟩ := List.cons.inj h
        refine .inr ⟨hbefore [] a before rfl, before, x, after, rfl, hx, fun bs b cs hb => ?_⟩
        exact hbefore (a :: bs) b cs (by rw [hb]; rfl)
  · rintro (h | ⟨ha, before, x, after, rfl, hx, hbefore⟩)
    · exact ⟨[], a, as, rfl, h, fun bs b cs hb => by simp at hb⟩
    · refine ⟨a :: before, x, after, rfl, hx, fun bs b cs hb => ?_⟩
      cases bs with
      | nil =>
          obtain ⟨rfl, -⟩ := List.cons.inj hb
          exact ha
      | cons b' bs =>
          obtain ⟨rfl, rfl⟩ := List.cons.inj hb
          exact hbefore bs b cs rfl

theorem firstFault_singleton : FirstFault faulty [a] e ↔ faulty [] a e := by
  simp [firstFault_cons, not_firstFault_nil]

/-- The error of a list is the first fault of its items. -/
theorem mapM_eq_error_iff {f : α → Except ε β} {bad : α → ε → Prop}
    (h : ∀ a e, f a = .error e ↔ bad a e) : as.mapM f = .error e ↔
      FirstFault (fun _ => bad) as e := by
  induction as with
  | nil => exact ⟨nofun, fun h => absurd h not_firstFault_nil⟩
  | cons a as ih =>
      rw [List.mapM_cons, bind_eq_error_iff, firstFault_cons, h]
      refine or_congr_right ?_
      cases ha : f a with
      | error e' => simpa using fun hnone => absurd ((h a e').1 ha) (hnone e')
      | ok b =>
          have hgood : ∀ e', ¬ bad a e' := fun e' he => by simpa [ha] using (h a e').2 he
          rw [and_iff_right hgood, ← ih]
          simp [bind_eq_error_iff, pure, Except.pure]

/-- What is told of the result so far by `I` decides what is wrong with the next item: the error of
the whole is the first fault. -/
theorem foldlM_eq_error_iff {f : β → α → Except ε β} {I : List α → β → Prop}
    (hok : ∀ {before b a c}, I before b → f b a = .ok c → I (before ++ [a]) c)
    (herror : ∀ {before b a}, a ∈ as → I before b → ∀ e, f b a = .error e ↔ faulty before a e)
    {before : List α} {b : β} (hb : I before b) :
    as.foldlM f b = .error e ↔ FirstFault (fun bs => faulty (before ++ bs)) as e := by
  induction as generalizing before b with
  | nil => exact ⟨nofun, fun h => absurd h not_firstFault_nil⟩
  | cons a as ih =>
      have ha := herror List.mem_cons_self hb
      rw [List.foldlM_cons, bind_eq_error_iff, firstFault_cons, List.append_nil, ha]
      refine or_congr_right ?_
      cases hstep : f b a with
      | error e' => simpa using fun hnone => absurd ((ha e').1 hstep) (hnone e')
      | ok c =>
          have hgood : ∀ e', ¬ faulty before a e' := fun e' he => by simpa [hstep] using (ha e').2 he
          rw [and_iff_right hgood]
          simpa using ih (fun hmem => herror (List.mem_cons_of_mem a hmem)) (hok hb hstep)

theorem foldlM_inv {f : β → α → Except ε β} {I : List α → β → Prop}
    (hok : ∀ {before b a c}, I before b → f b a = .ok c → I (before ++ [a]) c)
    {before : List α} {b c : β} (hb : I before b) (h : as.foldlM f b = .ok c) :
    I (before ++ as) c := by
  induction as generalizing before b with
  | nil =>
      cases h
      rwa [List.append_nil]
  | cons a as ih =>
      rw [List.foldlM_cons] at h
      obtain ⟨d, hd, h⟩ := bind_eq_ok_iff.1 h
      rw [List.append_cons]
      exact ih (hok hb hd) h

end FirstFault

end TapeMachine
