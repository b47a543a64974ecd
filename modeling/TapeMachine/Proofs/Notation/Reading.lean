import TapeMachine.Notation.Grammar
import TapeMachine.Proofs.Notation.Spelling

/-!
# Notation — Reading

What a reader makes of a text, whatever the offset.  `Takes p u R v`: on the text `u` the reader `p`
succeeds with a value of which `R` holds, and leaves `v`.  `Fails p u`: it fails.

The readers of the grammar do not agree on who takes the blanks after a construct: a list has taken
the blanks before its closing bracket when it looks for another comma in vain, and a line break
leaves the blanks before the next line.  So `v` is what is left *up to blanks in front*, and a
reader that goes on from there has to do so whatever blanks there are (`TakesOn`, `FailsOn`).  All
readers that go on do: they are of the form `next p`.

* `Takes.bind`, `TakesOn.bind`: one construct after the other.
* `TakesEach.repeated`, `TakesEach.next_many`: a construct as often as it is there.
* `takesEach_led`: how a list of items, as it is written, is one of constructs that are there.
-/

namespace TapeMachine.Notation

variable {α β : Type}

/-! ### Results -/

namespace Reader

variable {p q : Reader α} {c : Cursor}

/-- A reader that reads nothing gives its value. -/
theorem result_pure {a : α} : ((pure a : Reader α) c).result = some (a, c) := rfl

theorem result_bind {k : α → Reader β} :
    ((p >>= k) c).result = (p c).result.bind fun x => (k x.1 x.2).result := by
  change (andThen p k c).result = _
  rw [andThen]
  split <;> simp_all

theorem result_map {f : α → β} :
    ((f <$> p) c).result = (p c).result.map fun x => (f x.1, x.2) := by
  change ((p >>= fun a => pure (f a)) c).result = _
  rw [result_bind]
  cases (p c).result with
  | none => rfl
  | some x => rfl

theorem result_orElse : (p.orElse q c).result = (p c).result.or (q c).result := by
  rw [orElse]
  split <;> simp_all

theorem result_named : (named p c).result = (p c).result := by
  rw [named]
  split <;> simp_all

theorem result_placed :
    (placed p c).result = (p c).result.map fun x => (⟨⟨c.offset, x.2.offset⟩, x.1⟩, x.2) :=
  rfl

theorem result_optional : (optional p c).result =
    some (match (p c).result with
      | some (a, c') => (some a, c')
      | none => (none, c)) := by
  rw [optional, result_orElse, result_map]
  cases (p c).result with
  | none => rfl
  | some x => rfl

theorem result_repeatFrom {done : List α} {k : Nat} {x : Char} {fuel : List Char} :
    (repeatFrom p done k (x :: fuel) c).result =
      match (p c).result with
      | none => some (done.reverse, c)
      | some (a, c') => (repeatFrom p (a :: done) (max k (p c).furthest) fuel c').result := by
  rw [repeatFrom]
  cases h : p c with
  | mk found j => rcases found with _ | ⟨a, c'⟩ <;> simp [h]

theorem result_notAhead :
    (notAhead p c).result = if (p c).result.isSome then none else some ((), c) := by
  rw [notAhead]
  split <;> simp_all

end Reader

open Reader Grammar

/-! ### Blanks -/

theorem Blanks.append {g g' : List Char} (h : Blanks g) (h' : Blanks g') : Blanks (g ++ g') :=
  List.forall_mem_append.2 ⟨h, h'⟩

theorem Blanks.indented {g : List Char} (h : Blanks g) (u : List Char) : Indented (g ++ u) u :=
  ⟨g, h, rfl⟩

theorem Indented.trans {u v w : List Char} : Indented u v → Indented v w → Indented u w := by
  rintro ⟨g, hg, rfl⟩ ⟨g', hg', rfl⟩
  exact ⟨g ++ g', hg.append hg', (List.append_assoc ..).symm⟩

theorem Indented.append {u v : List Char} (w : List Char) :
    Indented u v → Indented (u ++ w) (v ++ w) := by
  rintro ⟨g, hg, rfl⟩
  exact ⟨g, hg, List.append_assoc ..⟩

/-- A text without the blanks in front. -/
def strip (u : List Char) : List Char := u.dropWhile fun a => a = ' ' || a = '\t'

theorem length_strip_le (u : List Char) : (strip u).length ≤ u.length :=
  (List.dropWhile_sublist _).length_le

/-- The texts are the same up to blanks in front. -/
def Alike (u v : List Char) : Prop := strip u = strip v

theorem Alike.refl (u : List Char) : Alike u u := rfl

theorem Alike.symm {u v : List Char} (h : Alike u v) : Alike v u := Eq.symm h

theorem Alike.trans {u v w : List Char} (h : Alike u v) (h' : Alike v w) : Alike u w :=
  Eq.trans h h'

theorem Indented.alike {u v : List Char} : Indented u v → Alike u v := by
  rintro ⟨g, hg, rfl⟩
  exact List.dropWhile_append_of_pos fun c hc => by simpa using hg c hc

/-- A text at whose start there is no gap. -/
def Solid (u : List Char) : Prop := ∀ c ∈ u.head?, c ≠ ' ' ∧ c ≠ '\t' ∧ c ≠ '#'

theorem Solid.strip_eq {u : List Char} (h : Solid u) : strip u = u := by
  cases u with
  | nil => rfl
  | cons c u =>
      obtain ⟨h₁, h₂, -⟩ := h c rfl
      exact List.dropWhile_cons_of_neg (by simp [h₁, h₂])

theorem skipWhile_eq (p : Char → Bool) (u : List Char) (n : Nat) :
    ∃ n', Cursor.skipWhile p u n = ⟨u.dropWhile p, n'⟩ := by
  induction u generalizing n with
  | nil => exact ⟨n, rfl⟩
  | cons c u ih =>
      rw [Cursor.skipWhile, List.dropWhile_cons]
      split
      · exact ih (n + 1)
      · exact ⟨n, rfl⟩

/-- A gap takes the blanks. -/
theorem result_gap {u v : List Char} (h : Alike u v) (hv : Solid v) (n : Nat) :
    ∃ n', (gap ⟨u, n⟩).result = some ((), ⟨v, n'⟩) := by
  obtain ⟨n', hn⟩ := skipWhile_eq (fun a => a = ' ' || a = '\t') u n
  have hu : u.dropWhile (fun a => a = ' ' || a = '\t') = v := Eq.trans h hv.strip_eq
  rw [hu] at hn
  refine ⟨n', ?_⟩
  simp only [gap, hn]
  split
  · exact absurd rfl (hv '#' rfl).2.2
  · rfl

theorem exists_result_gap (c : Cursor) : ∃ c', (gap c).result = some ((), c') := by
  simp only [gap]
  split <;> exact ⟨_, rfl⟩

/-! ### Success and failure -/

/-- On `u` the reader gives a value with the property `R` and leaves `v`, up to blanks in front. -/
def Takes (p : Reader α) (u : List Char) (R : α → Prop) (v : List Char) : Prop :=
  ∀ n, ∃ a v' n', R a ∧ Alike v' v ∧ (p ⟨u, n⟩).result = some (a, ⟨v', n'⟩)

/-- The reader does so whatever blanks are in front. -/
def TakesOn (p : Reader α) (u : List Char) (R : α → Prop) (v : List Char) : Prop :=
  ∀ u', Alike u' u → Takes p u' R v

/-- On `u` the reader fails. -/
def Fails (p : Reader α) (u : List Char) : Prop := ∀ n, (p ⟨u, n⟩).result = none

/-- The reader does so whatever blanks are in front. -/
def FailsOn (p : Reader α) (u : List Char) : Prop := ∀ u', Alike u' u → Fails p u'

section

variable {p q : Reader α} {k : α → Reader β} {u v w : List Char} {R R' : α → Prop} {S : β → Prop}

theorem TakesOn.takes (h : TakesOn p u R v) : Takes p u R v := h u (.refl u)

theorem Takes.mono (h : Takes p u R v) (hR : ∀ a, R a → R' a) (hv : Alike v w) :
    Takes p u R' w := fun n =>
  let ⟨a, v', n', ha, hv', e⟩ := h n
  ⟨a, v', n', hR a ha, hv'.trans hv, e⟩

theorem TakesOn.mono (h : TakesOn p u R v) (hR : ∀ a, R a → R' a) (hv : Alike v w) :
    TakesOn p u R' w := fun u' hu => (h u' hu).mono hR hv

theorem TakesOn.indent (h : TakesOn p u R v) (hw : Indented w u) : TakesOn p w R v :=
  fun w' hw' => h w' (hw'.trans hw.alike)

/-- One construct after the other. -/
theorem Takes.bind (hp : Takes p u R v) (hk : ∀ a, R a → TakesOn (k a) v S w) :
    Takes (p >>= k) u S w := by
  intro n
  obtain ⟨a, v', n', ha, hv, e⟩ := hp n
  obtain ⟨b, w', m, hb, hw, e'⟩ := hk a ha v' hv n'
  refine ⟨b, w', m, hb, hw, ?_⟩
  rw [result_bind, e]
  exact e'

theorem TakesOn.bind (hp : TakesOn p u R v) (hk : ∀ a, R a → TakesOn (k a) v S w) :
    TakesOn (p >>= k) u S w := fun u' hu => (hp u' hu).bind hk

theorem takesOn_pure {a : α} (ha : R a) : TakesOn (pure a) v R v :=
  fun v' hv n => ⟨a, v', n, ha, hv, rfl⟩

theorem Takes.map {f : α → β} (hp : Takes p u R v) (hS : ∀ a, R a → S (f a)) :
    Takes (f <$> p) u S v := hp.bind fun a ha => takesOn_pure (hS a ha)

theorem Fails.bind (hp : Fails p u) : Fails (p >>= k) u := by
  intro n
  rw [result_bind, hp n]
  rfl

theorem Fails.map {f : α → β} (hp : Fails p u) : Fails (f <$> p) u := hp.bind

/-- The second construct is not there. -/
theorem Takes.bind_fails (hp : Takes p u R v) (hk : ∀ a, R a → FailsOn (k a) v) :
    Fails (p >>= k) u := by
  intro n
  obtain ⟨a, v', n', ha, hv, e⟩ := hp n
  rw [result_bind, e]
  exact hk a ha v' hv n'

theorem TakesOn.bind_fails (hp : TakesOn p u R v) (hk : ∀ a, R a → FailsOn (k a) v) :
    FailsOn (p >>= k) u := fun u' hu => (hp u' hu).bind_fails hk

theorem FailsOn.bind (hp : FailsOn p u) : FailsOn (p >>= k) u := fun u' hu => (hp u' hu).bind

theorem Takes.orElse (hp : Takes p u R v) : Takes (p.orElse q) u R v := by
  intro n
  obtain ⟨a, v', n', ha, hv, e⟩ := hp n
  refine ⟨a, v', n', ha, hv, ?_⟩
  rw [result_orElse, e]
  rfl

theorem Fails.orElse_takes (hp : Fails p u) (hq : Takes q u R v) : Takes (p.orElse q) u R v := by
  intro n
  obtain ⟨a, v', n', ha, hv, e⟩ := hq n
  refine ⟨a, v', n', ha, hv, ?_⟩
  rw [result_orElse, hp n]
  exact e

theorem Fails.orElse (hp : Fails p u) (hq : Fails q u) : Fails (p.orElse q) u := by
  intro n
  rw [result_orElse, hp n]
  exact hq n

theorem fails_firstOf {ps : List (Reader α)} (hps : ∀ q ∈ ps, Fails q u) :
    Fails (firstOf ps) u := by
  induction ps with
  | nil => exact fun n => rfl
  | cons q ps ih =>
      obtain ⟨hq, hps⟩ := List.forall_mem_cons.1 hps
      exact hq.orElse (ih hps)

/-- If nothing goes on from any of the readers, nothing goes on from the first that succeeds. -/
theorem fails_firstOf_bind {ps : List (Reader α)} (hps : ∀ p ∈ ps, Fails (p >>= k) u) :
    Fails (firstOf ps >>= k) u := by
  induction ps with
  | nil => exact fun n => rfl
  | cons p ps ih =>
      obtain ⟨hp, hps⟩ := List.forall_mem_cons.1 hps
      intro n
      have hp := hp n
      rw [result_bind] at hp ⊢
      rw [firstOf, result_orElse]
      cases e : (p ⟨u, n⟩).result with
      | none => simpa [result_bind] using ih hps n
      | some x => simpa [e] using hp

theorem Takes.named (hp : Takes p u R v) : Takes (named p) u R v := by
  intro n
  obtain ⟨a, v', n', ha, hv, e⟩ := hp n
  exact ⟨a, v', n', ha, hv, result_named.trans e⟩

theorem Fails.named (hp : Fails p u) : Fails (named p) u := fun n => result_named.trans (hp n)

theorem Takes.placed (hp : Takes p u R v) : Takes (placed p) u (fun x => R x.value) v := by
  intro n
  obtain ⟨a, v', n', ha, hv, e⟩ := hp n
  refine ⟨⟨⟨n, n'⟩, a⟩, v', n', ha, hv, ?_⟩
  rw [result_placed, e]
  rfl

theorem Fails.placed (hp : Fails p u) : Fails (placed p) u := by
  intro n
  rw [result_placed, hp n]
  rfl

theorem Takes.optional (hp : Takes p u R v) :
    Takes (optional p) u (fun x => ∃ a, R a ∧ x = some a) v :=
  (hp.map fun a ha => ⟨a, ha, rfl⟩).orElse

theorem Fails.optional (hp : Fails p u) : Takes (optional p) u (· = none) u :=
  hp.map.orElse_takes (takesOn_pure (R := (· = none)) rfl).takes

theorem Takes.ahead (hp : Takes p u R v) : Takes (ahead p) u (fun _ => True) u := by
  intro n
  obtain ⟨a, v', n', -, -, e⟩ := hp n
  exact ⟨(), u, n, trivial, .refl u, by simp [Reader.ahead, e]⟩

theorem takes_notAhead (hp : Fails p u) : Takes (notAhead p) u (fun _ => True) u := by
  intro n
  refine ⟨(), u, n, trivial, .refl u, ?_⟩
  rw [result_notAhead, hp n]
  rfl

theorem fails_notAhead (hp : Takes p u R v) : Fails (notAhead p) u := by
  intro n
  obtain ⟨a, v', n', -, -, e⟩ := hp n
  rw [result_notAhead, e]
  rfl

theorem Takes.next (hp : Takes p u R v) (hu : Solid u) : TakesOn (next p) u R v := by
  intro u' h n
  obtain ⟨n', e⟩ := result_gap h hu n
  obtain ⟨a, v', m, ha, hv, e'⟩ := hp n'
  refine ⟨a, v', m, ha, hv, ?_⟩
  rw [Grammar.next, result_bind, e]
  exact e'

theorem Fails.next (hp : Fails p u) (hu : Solid u) : FailsOn (next p) u := by
  intro u' h n
  obtain ⟨n', e⟩ := result_gap h hu n
  rw [Grammar.next, result_bind, e]
  exact hp n'

theorem result_next_bind {c : Cursor} :
    (next (p >>= k) c).result = ((next p >>= k) c).result := by
  simp only [Grammar.next, result_bind, Option.bind_assoc]

/-- A construct after a gap, and the one after it. -/
theorem TakesOn.next_bind (hp : TakesOn (next p) u R v) (hk : ∀ a, R a → TakesOn (k a) v S w) :
    TakesOn (next (p >>= k)) u S w := by
  intro u' hu n
  rw [result_next_bind]
  exact (hp u' hu).bind hk n

/-- A construct after a gap, and the one after it is not there. -/
theorem TakesOn.next_bind_fails (hp : TakesOn (next p) u R v) (hk : ∀ a, R a → FailsOn (k a) v) :
    FailsOn (next (p >>= k)) u := by
  intro u' hu n
  rw [result_next_bind]
  exact (hp u' hu).bind_fails hk n

end

/-! ### Repetitions -/

/-- The reader takes one item after the other: of the `i`-th value the property of the `i`-th item
holds, and after the last one the reader fails. -/
inductive TakesEach (p : Reader α) (R : β → α → Prop) : List β → List Char → List Char → Prop
  | nil {u v} : Alike u v → FailsOn p v → TakesEach p R [] u v
  | cons {b bs u v w} : TakesOn p u (R b) v → (strip v).length < (strip u).length → TakesEach p R bs v w →
      TakesEach p R (b :: bs) u w

section

variable {p : Reader α} {R : β → α → Prop} {bs : List β} {u v : List Char}

theorem TakesEach.length_le (h : TakesEach p R bs u v) : bs.length ≤ (strip u).length := by
  induction h with
  | nil => exact Nat.zero_le _
  | cons _ hlt _ ih => exact Nat.succ_le_of_lt (lt_of_le_of_lt ih hlt)

/-- The repetition, with fuel for one item more than there are. -/
theorem TakesEach.repeatFrom (h : TakesEach p R bs u v) {u' : List Char} (hu : Alike u' u)
    {fuel : List Char} (hf : bs.length < fuel.length) (done : List α) (k n : Nat) :
    ∃ as v' n', List.Forall₂ R bs as ∧ Alike v' v ∧
      (repeatFrom p done k fuel ⟨u', n⟩).result = some (done.reverse ++ as, ⟨v', n'⟩) := by
  induction h generalizing u' fuel done k n with
  | nil huv hfail =>
      refine ⟨[], u', n, .nil, hu.trans huv, ?_⟩
      obtain ⟨x, fuel, rfl⟩ := List.exists_cons_of_length_pos hf
      rw [result_repeatFrom, hfail u' (hu.trans huv) n, List.append_nil]
  | cons htake _ _ ih =>
      obtain ⟨x, fuel, rfl⟩ := List.exists_cons_of_length_pos (Nat.zero_lt_of_lt hf)
      obtain ⟨a, w', m, ha, hw, e⟩ := htake u' hu n
      obtain ⟨as, v', n', has, hv, e'⟩ :=
        ih hw (Nat.lt_of_succ_lt_succ hf) (a :: done) (max k (p ⟨u', n⟩).furthest) m
      refine ⟨a :: as, v', n', .cons ha has, hv, ?_⟩
      rw [result_repeatFrom, e]
      simpa using e'

theorem TakesEach.repeated (h : TakesEach p R bs u v) :
    TakesOn (repeated p) u (List.Forall₂ R bs) v := by
  intro u' hu n
  have hlen : (strip u).length ≤ u'.length := by
    rw [← hu]
    exact length_strip_le u'
  have hfuel : bs.length < (' ' :: u').length := Nat.lt_succ_of_le (h.length_le.trans hlen)
  exact h.repeatFrom hu hfuel [] 0 n

/-- A construct as often as it is there, the first one where it stands. -/
theorem TakesEach.next_many (h : TakesEach (next p) R bs u v) (hv : Solid v) :
    TakesOn (next (many p)) u (List.Forall₂ R bs) v := by
  cases h with
  | nil huv hfail =>
      intro u' hu n
      obtain ⟨n', hc⟩ := result_gap (hu.trans huv) hv n
      have e := hfail u' (hu.trans huv) n
      rw [Grammar.next, result_bind, hc] at e
      refine ⟨[], v, n', .nil, .refl v, ?_⟩
      rw [Grammar.next, result_bind, hc]
      simp only [Option.bind_some] at e ⊢
      rw [many, result_orElse, result_bind, e]
      rfl
  | cons htake _ hrest =>
      intro u' hu n
      obtain ⟨c', hc⟩ := exists_result_gap ⟨u', n⟩
      obtain ⟨a, w', m, ha, hw, e⟩ := htake u' hu n
      rw [Grammar.next, result_bind, hc] at e
      obtain ⟨as, v', n', has, hv, e'⟩ := hrest.repeated w' hw m
      refine ⟨a :: as, v', n', .cons ha has, hv, ?_⟩
      rw [Grammar.next, result_bind, hc]
      simp only [Option.bind_some] at e ⊢
      rw [many, result_orElse, result_bind, e, Option.bind_some, result_bind, e']
      rfl

/-- Where a construct is there once, it is there again and again. -/
theorem takes_many_cons {b : β} {w : List Char} (hp : Takes p u (R b) v)
    (h : TakesEach (next p) R bs v w) : Takes (many p) u (List.Forall₂ R (b :: bs)) w :=
  (hp.bind fun _ ha => h.repeated.bind fun _ has => takesOn_pure (.cons ha has)).orElse

/-- Where a construct is not there, it is there no time. -/
theorem takes_many_nil (hp : Fails p u) : Takes (many p) u (· = []) u :=
  Fails.orElse_takes hp.bind (takesOn_pure (R := (· = [])) rfl).takes

end

end TapeMachine.Notation
