import TapeMachine.Proofs.Machine.Halting

/-!
# Machine — Corresponding programs

Two programs correspond (`Program.Corresponds`) when a relation of their configurations holds at the
start and is kept by the rules that come first in related configurations, and the relation leaves
nothing to be seen of what a run depends on: whether a state is final, and whether a configuration
looks like another one.

The courses of such programs go together (`Program.RunsAlong.after`), and so do their reasons to
stop.  Their runs stop after the same number of steps for the same reason, in related
configurations, and each entry of the one trace shows a configuration that is related to the one
that the entry of the other trace shows (`Machine.execute_of_corresponds`).
-/

namespace TapeMachine

variable {p q : Program} {R : Configuration → Configuration → Prop} {f : Rule → Rule}

namespace Program

/-- A relation of configurations is kept when the one program applies a rule and the other one the
rule that `f` makes of it. -/
structure Corresponds (p q : Program) (R : Configuration → Configuration → Prop) (f : Rule → Rule) :
    Prop where
  maxSteps_eq : q.maxSteps = p.maxSteps
  detectLoops_eq : q.detectLoops = p.detectLoops
  initial : R (.initial p) (.initial q)
  ruleAt_eq {c d : Configuration} : R c d → q.ruleAt d = (p.ruleAt c).map f
  apply {c d c' d' : Configuration} {r : Rule} : R c d → p.ruleAt c = some r →
    c.apply r = .ok c' → d.apply (f r) = .ok d' → R c' d'
  finals_iff {c d : Configuration} : R c d → (d.state ∈ q.finals ↔ c.state ∈ p.finals)
  fingerprint_iff {c d c' d' : Configuration} : R c d → R c' d' →
    (c.fingerprint = c'.fingerprint ↔ d.fingerprint = d'.fingerprint)

/-- Two entries for the same step, made in related configurations. -/
def EntriesAlike (p : Program) (R : Configuration → Configuration → Prop) (f : Rule → Rule)
    (t t' : TraceEntry) : Prop :=
  ∃ n c d r, R c d ∧ p.ruleAt c = some r ∧ t = .capture n c r ∧ t' = .capture n d (f r)

/-- Traces with entries that are alike are the same if related configurations look the same. -/
theorem trace_eq_of_entriesAlike {t t' : Array TraceEntry}
    (hcapture : ∀ n r {c d}, R c d → TraceEntry.capture n c r = .capture n d r)
    (h : List.Forall₂ (p.EntriesAlike R id) t.toList t'.toList) : t' = t := by
  have hentries : List.Forall₂ Eq t.toList t'.toList := by
    refine h.imp ?_
    rintro _ _ ⟨n, c, d, r, hcd, -, rfl, rfl⟩
    exact hcapture n r hcd
  rw [List.forall₂_eq_eq_eq] at hentries
  exact (Array.toList_inj.1 hentries).symm

/-- Two programs that correspond, and neither of which breaks a tape within its budget. -/
structure RunsAlong (p q : Program) (R : Configuration → Configuration → Prop) (f : Rule → Rule) :
    Prop where
  corresponds : p.Corresponds q R f
  neverBreaks : p.NeverBreaks p.maxSteps
  neverBreaks_right : q.NeverBreaks q.maxSteps

namespace RunsAlong

variable {c d : Configuration} {n : Nat} {r r' : HaltReason}

theorem of_modest (h : p.Corresponds q R f) (hp : p.WellFormed) (hm : p.Modest)
    (hq : q.WellFormed) (hm' : q.Modest) : p.RunsAlong q R f where
  corresponds := h
  neverBreaks := neverBreaks_of_modest hp hm hm.maxSteps_le
  neverBreaks_right := neverBreaks_of_modest hq hm' hm'.maxSteps_le

/-- **One step** of both programs, from related configurations. -/
theorem next (h : p.RunsAlong q R f) (hn : n < p.maxSteps) (hc : p.after n = some c)
    (hd : q.after n = some d) (hcd : R c d) :
    (p.next? c = none ∧ q.next? d = none) ∨
      ∃ c' d', p.next? c = some c' ∧ q.next? d = some d' ∧ R c' d' := by
  have hrule := h.corresponds.ruleAt_eq hcd
  cases hr : p.ruleAt c with
  | none =>
      rw [hr, Option.map_none] at hrule
      exact .inl ⟨by rw [next?, hr, Option.bind_none], by rw [next?, hrule, Option.bind_none]⟩
  | some r =>
      rw [hr, Option.map_some] at hrule
      obtain ⟨c', hc'⟩ := h.neverBreaks n hn c r hc hr
      obtain ⟨d', hd'⟩ :=
        h.neverBreaks_right n (h.corresponds.maxSteps_eq ▸ hn) d (f r) hd hrule
      exact .inr ⟨c', d', next?_eq_some.2 ⟨r, hr, hc'⟩, next?_eq_some.2 ⟨f r, hrule, hd'⟩,
        h.corresponds.apply hcd hr hc' hd'⟩

/-- **Corresponding courses go together.**  After each number of steps neither program gets so far,
or both are in related configurations. -/
theorem after (h : p.RunsAlong q R f) (hn : n ≤ p.maxSteps) :
    (p.after n = none ∧ q.after n = none) ∨
      ∃ c d, p.after n = some c ∧ q.after n = some d ∧ R c d := by
  induction n with
  | zero => exact .inr ⟨_, _, rfl, rfl, h.corresponds.initial⟩
  | succ n ih =>
      rw [Program.after, Program.after]
      rcases ih (by omega) with ⟨hc, hd⟩ | ⟨c, d, hc, hd, hcd⟩
      · exact .inl ⟨by rw [hc, Option.bind_none], by rw [hd, Option.bind_none]⟩
      · rw [hc, hd, Option.bind_some, Option.bind_some]
        exact h.next hn hc hd hcd

theorem exists_after (h : p.RunsAlong q R f) (hn : n ≤ p.maxSteps) (hc : p.after n = some c) :
    ∃ d, q.after n = some d ∧ R c d := by
  rcases h.after hn with ⟨hnone, -⟩ | ⟨c', d, hc', hd, hcd⟩
  · rw [hc] at hnone
    cases hnone
  · obtain rfl : c = c' := Option.some.inj (hc ▸ hc')
    exact ⟨d, hd, hcd⟩

theorem exists_after_of_right (h : p.RunsAlong q R f) (hn : n ≤ p.maxSteps)
    (hd : q.after n = some d) : ∃ c, p.after n = some c ∧ R c d := by
  rcases h.after hn with ⟨-, hnone⟩ | ⟨c, d', hc, hd', hcd⟩
  · rw [hd] at hnone
    cases hnone
  · obtain rfl : d = d' := Option.some.inj (hd ▸ hd')
    exact ⟨c, hc, hcd⟩

/-- The entries of the two traces are alike, one by one. -/
theorem entries (h : p.RunsAlong q R f) (hn : n ≤ p.maxSteps) (hc : p.after n = some c) :
    List.Forall₂ (p.EntriesAlike R f) (p.entries n) (q.entries n) := by
  induction n generalizing c with
  | zero => exact .nil
  | succ n ih =>
      obtain ⟨a, r, ha, hrule, -⟩ := after_succ_eq_some.1 hc
      obtain ⟨b, hb, hab⟩ := h.exists_after (by omega) ha
      have hrule' : q.ruleAt b = some (f r) := by rw [h.corresponds.ruleAt_eq hab, hrule]; rfl
      rw [Program.entries, Program.entries, entryAt, entryAt, ha, hb, Option.bind_some,
        Option.bind_some, hrule, hrule']
      exact List.rel_append (ih (by omega) ha) (.cons ⟨n, a, b, r, hab, hrule, rfl, rfl⟩ .nil)

/-! ### Reasons to stop -/

theorem repeatsAt_iff (h : p.RunsAlong q R f) (hn : n ≤ p.maxSteps) (hc : p.after n = some c) :
    q.RepeatsAt n ↔ p.RepeatsAt n := by
  obtain ⟨d, hd, hcd⟩ := h.exists_after hn hc
  rw [Program.repeatsAt_iff hc, Program.repeatsAt_iff hd, h.corresponds.detectLoops_eq]
  refine and_congr_right fun _ => ⟨?_, ?_⟩
  · rintro ⟨m, b, h₁, hmn, hb, hfingerprint⟩
    obtain ⟨a, ha, hab⟩ := h.exists_after_of_right (by omega) hb
    exact ⟨m, a, h₁, hmn, ha, (h.corresponds.fingerprint_iff hab hcd).2 hfingerprint⟩
  · rintro ⟨m, a, h₁, hmn, ha, hfingerprint⟩
    obtain ⟨b, hb, hab⟩ := h.exists_after (by omega) ha
    exact ⟨m, b, h₁, hmn, hb, (h.corresponds.fingerprint_iff hab hcd).1 hfingerprint⟩

theorem stopsAt_iff (h : p.RunsAlong q R f) (hn : n ≤ p.maxSteps) :
    q.StopsAt n ↔ p.StopsAt n := by
  rcases h.after hn with ⟨hc, hd⟩ | ⟨c, d, hc, hd, hcd⟩
  · simp [StopsAt, hc, hd]
  · simp only [StopsAt, hc, hd, Option.some.injEq, exists_eq_left', h.repeatsAt_iff hn hc,
      h.corresponds.maxSteps_eq, h.corresponds.ruleAt_eq hcd, Option.map_eq_none_iff]

/-- Where both runs stop they do so for the same reason. -/
theorem reason_eq (h : p.RunsAlong q R f) (hn : n ≤ p.maxSteps) (hc : p.after n = some c)
    (hcd : R c d) (hr : p.HaltsFor n c r) (hr' : q.HaltsFor n d r') : r' = r := by
  have hrepeat_iff := h.repeatsAt_iff hn hc
  have hmax := h.corresponds.maxSteps_eq
  by_cases hrepeat : p.RepeatsAt n
  · rw [hr.loop hrepeat, hr'.loop (hrepeat_iff.2 hrepeat)]
  · have hrepeat' : ¬ q.RepeatsAt n := mt hrepeat_iff.1 hrepeat
    by_cases hlimit : n = p.maxSteps
    · rw [hr.limit hrepeat hlimit, hr'.limit hrepeat' (hlimit.trans hmax.symm)]
    · rw [hr.verdict hrepeat hlimit, hr'.verdict hrepeat' (hmax ▸ hlimit)]
      exact if_congr (h.corresponds.finals_iff hcd) rfl rfl

end RunsAlong

end Program

namespace Machine

variable {m m' : Machine} {n n' : Nat} {r r' : HaltReason}

/-- Runs of corresponding programs stop after the same number of steps. -/
theorem Stopped.eq_of_runsAlong (hs : m.Stopped p n r) (hs' : m'.Stopped q n' r')
    (h : p.RunsAlong q R f) : n' = n := by
  have hn : n ≤ p.maxSteps := hs.steps_eq ▸ hs.steps_le
  have hn' : n' ≤ p.maxSteps := h.corresponds.maxSteps_eq ▸ hs'.steps_eq ▸ hs'.steps_le
  exact le_antisymm (hs'.isLeast.2 ((h.stopsAt_iff hn).2 hs.stopsAt))
    (hs.isLeast.2 ((h.stopsAt_iff hn').1 hs'.stopsAt))

/-- **Corresponding programs run alike.** -/
theorem execute_of_corresponds (h : p.RunsAlong q R f) (hp : p.WellFormed) (hq : q.WellFormed) :
    ∃ m₁ e₁ m₂ e₂, ofProgram p = .ok m₁ ∧ m₁.execute = .ok e₁ ∧
      ofProgram q = .ok m₂ ∧ m₂.execute = .ok e₂ ∧
      e₂.halt = e₁.halt ∧ e₂.totalSteps = e₁.totalSteps ∧ R e₁.configuration e₂.configuration ∧
      List.Forall₂ (p.EntriesAlike R f) e₁.trace.toList e₂.trace.toList := by
  obtain ⟨m₁, m, n, r, hm₁, hrun, hs⟩ := exists_stopped hp h.neverBreaks
  obtain ⟨m₂, m', n', r', hm₂, hrun', hs'⟩ := exists_stopped hq h.neverBreaks_right
  obtain rfl : n' = n := hs.eq_of_runsAlong hs' h
  have hn : n' ≤ p.maxSteps := hs.steps_eq ▸ hs.steps_le
  obtain ⟨d, hd, hrel⟩ := h.exists_after hn hs.after_eq
  obtain rfl : m'.configuration = d := Option.some.inj (hs'.after_eq ▸ hd)
  refine ⟨m₁, _, m₂, _, hm₁, execute_of_run hrun, hm₂, execute_of_run hrun', ?_, ?_, hrel, ?_⟩
  · exact h.reason_eq hn hs.after_eq hrel hs.haltsFor hs'.haltsFor
  · exact hs'.steps_eq.trans hs.steps_eq.symm
  · rw [hs.trace_eq, hs'.trace_eq]
    exact h.entries hn hs.after_eq

end Machine

end TapeMachine
