import TapeMachine.Proofs.Machine.Correspondence

/-!
# Machine — The order of tapes

Tapes are interchangeable.  A program whose tapes are put in another order, together with the heads
and with what each rule reads, writes and moves, goes through the same configurations with their
tapes in that order (`Program.corresponds_arranged`): whatever goes along the tapes of a program
goes along all lists with an item for each of them, and putting two such lists in the same order
keeps the items together (`arrange_zipWith`).  The main theorem is `Machine.execute_arranged`.
-/

namespace TapeMachine

/-! ### Lists in another order -/

section Arrange

variable {α β γ : Type} {n : Nat} {σ : Equiv.Perm (Fin n)} {l l₁ l₂ : List α} {k : List β}

/-- A list in another order: its `i`-th item is the one at place `σ i` before. -/
def arrange (σ : Equiv.Perm (Fin n)) (l : List α) : List α :=
  (List.finRange n).filterMap fun i => l[(σ i : Nat)]?

theorem arrange_eq_map (h : l.length = n) :
    arrange σ l = (List.finRange n).map fun i => l.get ((σ i).cast h.symm) := by
  rw [arrange, ← List.filterMap_eq_map]
  congr 1
  funext i
  exact List.getElem?_eq_getElem (h ▸ (σ i).isLt)

theorem length_arrange (h : l.length = n) : (arrange σ l).length = n := by
  rw [arrange_eq_map h, List.length_map, List.length_finRange]

theorem getElem?_arrange (h : l.length = n) (i : Fin n) :
    (arrange σ l)[(i : Nat)]? = l[(σ i : Nat)]? := by
  rw [arrange_eq_map h, List.getElem?_map, List.getElem?_eq_getElem (by simp), Option.map_some,
    List.getElem_finRange, List.getElem?_eq_getElem (h ▸ (σ i).isLt)]
  rfl

theorem arrange_map (σ : Equiv.Perm (Fin n)) (f : α → β) (l : List α) :
    arrange σ (l.map f) = (arrange σ l).map f := by
  rw [arrange, arrange, List.map_filterMap]
  congr 1
  funext i
  exact List.getElem?_map

theorem mem_of_mem_arrange {a : α} (h : a ∈ arrange σ l) : a ∈ l := by
  obtain ⟨i, -, hi⟩ := List.mem_filterMap.1 h
  exact List.mem_of_getElem? hi

/-- Lists with `n` items are the same if they have the same items at the first `n` places. -/
theorem eq_of_getElem?_eq (h₁ : l₁.length = n) (h₂ : l₂.length = n)
    (h : ∀ i : Fin n, l₁[(i : Nat)]? = l₂[(i : Nat)]?) : l₁ = l₂ := by
  refine List.ext_getElem? fun i => ?_
  rcases Nat.lt_or_ge i n with hlt | hge
  · exact h ⟨i, hlt⟩
  · rw [List.getElem?_eq_none (by omega), List.getElem?_eq_none (by omega)]

/-- No two lists become the same in another order. -/
theorem arrange_inj (h₁ : l₁.length = n) (h₂ : l₂.length = n) :
    arrange σ l₁ = arrange σ l₂ ↔ l₁ = l₂ := by
  refine ⟨fun h => eq_of_getElem?_eq h₁ h₂ fun i => ?_, congrArg _⟩
  have hi := getElem?_arrange (σ := σ) h₁ (σ.symm i)
  rw [h, getElem?_arrange h₂, Equiv.apply_symm_apply] at hi
  exact hi.symm

/-- Items that belong together stay together. -/
theorem arrange_zipWith (f : α → β → γ) (h : l.length = n) (hk : k.length = n) :
    arrange σ (List.zipWith f l k) = List.zipWith f (arrange σ l) (arrange σ k) := by
  have hlen : (List.zipWith f l k).length = n := by rw [List.length_zipWith, h, hk, min_self]
  refine eq_of_getElem?_eq (length_arrange hlen) ?_ fun i => ?_
  · rw [List.length_zipWith, length_arrange h, length_arrange hk, min_self]
  · rw [getElem?_arrange hlen, List.getElem?_zipWith, List.getElem?_zipWith, getElem?_arrange h,
      getElem?_arrange hk]

end Arrange

/-! ### Tapes in another order -/

section

variable {n : Nat} {σ : Equiv.Perm (Fin n)}

/-- The rule for tapes in another order. -/
def Rule.arranged (σ : Equiv.Perm (Fin n)) (r : Rule) : Rule :=
  { r with read := arrange σ r.read, write := arrange σ r.write, moves := arrange σ r.moves }

/-- The configuration with its tapes in another order. -/
def Configuration.arranged (σ : Equiv.Perm (Fin n)) (c : Configuration) : Configuration :=
  { c with tracks := arrange σ c.tracks }

/-- The entry with its tapes in another order, for a step by the rule `r`. -/
def TraceEntry.arranged (σ : Equiv.Perm (Fin n)) (r : Rule) (t : TraceEntry) : TraceEntry :=
  { t with
    contents := arrange σ t.contents
    origins := arrange σ t.origins
    heads := arrange σ t.heads
    symbols := arrange σ t.symbols
    action := (r.arranged σ).describe }

/-- The program with its tapes in another order. -/
def Program.arranged (p : Program) (σ : Equiv.Perm (Fin p.tapeCount)) : Program :=
  { p with
    tapes := arrange σ p.tapes
    heads := arrange σ p.heads
    rules := p.rules.map (.arranged σ) }

theorem Rule.HasArity.arranged {r : Rule} (h : r.HasArity n) : (r.arranged σ).HasArity n :=
  ⟨length_arrange h.1, length_arrange h.2.1, length_arrange h.2.2⟩

namespace Configuration

variable {c d : Configuration}

theorem heads_arranged (c : Configuration) : (c.arranged σ).heads = arrange σ c.heads :=
  (arrange_map σ _ _).symm

theorem symbols_arranged (c : Configuration) : (c.arranged σ).symbols = arrange σ c.symbols :=
  (arrange_map σ _ _).symm

theorem windows_arranged (c : Configuration) : (c.arranged σ).windows = arrange σ c.windows :=
  (arrange_map σ _ _).symm

theorem fingerprint_arranged_inj (hc : c.tracks.length = n) (hd : d.tracks.length = n) :
    (c.arranged σ).fingerprint = (d.arranged σ).fingerprint ↔ c.fingerprint = d.fingerprint := by
  have hheads : arrange σ c.heads = arrange σ d.heads ↔ c.heads = d.heads :=
    arrange_inj (by rw [heads, List.length_map, hc]) (by rw [heads, List.length_map, hd])
  have hwindows : arrange σ c.windows = arrange σ d.windows ↔ c.windows = d.windows :=
    arrange_inj (by rw [windows, List.length_map, hc]) (by rw [windows, List.length_map, hd])
  simp only [fingerprint, heads_arranged, windows_arranged, Fingerprint.mk.injEq, hheads, hwindows]
  rfl

/-- A rule does to tapes in another order what it does to them, in that order. -/
theorem apply_arranged {r : Rule} {d' : Configuration} (hr : r.HasArity n)
    (hc : c.tracks.length = n) (h : c.apply r = .ok d)
    (h' : (c.arranged σ).apply (r.arranged σ) = .ok d') : d' = d.arranged σ := by
  obtain ⟨us, hus, rfl⟩ := exists_tracks_of_apply h
  obtain ⟨us', hus', rfl⟩ := exists_tracks_of_apply h'
  have hlen : us.length = n := (Track.length_applyAll hus).trans hc
  have hlen' : us'.length = n := (Track.length_applyAll hus').trans (length_arrange hc)
  refine congrArg (Configuration.mk r.next)
    (eq_of_getElem?_eq hlen' (length_arrange hlen) fun i => Option.ext fun u => ?_)
  -- The same track, symbol and move come together in both orders.
  have htracks := getElem?_arrange (σ := σ) hc i
  have hwrite := getElem?_arrange (σ := σ) hr.2.1 i
  have hmoves := getElem?_arrange (σ := σ) hr.2.2 i
  simp only [getElem?_arrange hlen, Track.getElem?_applyAll hus, Track.getElem?_applyAll hus']
  simp only [Configuration.arranged, Rule.arranged, htracks, hwrite, hmoves]

end Configuration

theorem TraceEntry.capture_arranged (k : Nat) (c : Configuration) (r : Rule) :
    capture k (c.arranged σ) (r.arranged σ) = (capture k c r).arranged σ r := by
  simp only [capture, arranged, Configuration.heads_arranged, Configuration.symbols_arranged,
    Configuration.windows_arranged, arrange_map]
  rfl

end

/-! ### Programs -/

namespace Program

variable {p : Program} {σ : Equiv.Perm (Fin p.tapeCount)} {c : Configuration}

theorem WellFormed.arranged (hp : p.WellFormed) : (p.arranged σ).WellFormed where
  tapeCount_pos := hp.tapeCount_pos
  tapes_length := length_arrange hp.tapes_length
  heads_length := length_arrange hp.heads_length
  headInRange := by
    have hzip := arrange_zipWith (σ := σ) Prod.mk hp.tapes_length hp.heads_length
    intro x hx
    refine hp.headInRange x (mem_of_mem_arrange (σ := σ) ?_)
    rw [List.zip, hzip]
    exact hx
  hasArity := by
    intro r' hr'
    obtain ⟨r, hr, rfl⟩ := List.mem_map.1 hr'
    exact (hp.hasArity r hr).arranged
  finals_ne_nil := hp.finals_ne_nil
  maxSteps_pos := hp.maxSteps_pos

theorem Modest.arranged (hm : p.Modest) : (p.arranged σ).Modest :=
  ⟨hm.maxSteps_le, fun w hw => hm.length_lt w (mem_of_mem_arrange hw)⟩

theorem initial_arranged (hp : p.WellFormed) :
    Configuration.initial (p.arranged σ) = (Configuration.initial p).arranged σ :=
  congrArg (Configuration.mk p.initial)
    (arrange_zipWith _ hp.tapes_length hp.heads_length).symm

/-- The rule that comes first for symbols in another order. -/
theorem ruleAt_arranged (hp : p.WellFormed) (hc : c.tracks.length = p.tapeCount) :
    (p.arranged σ).ruleAt (c.arranged σ) = (p.ruleAt c).map (.arranged σ) := by
  have hsymbols : c.symbols.length = p.tapeCount := by rw [Configuration.symbols, List.length_map, hc]
  rw [ruleAt, firstRule, arranged, List.find?_map, ruleAt, firstRule,
    Configuration.symbols_arranged]
  congr 1
  refine List.find?_congr fun r hr => ?_
  have hread := arrange_inj (σ := σ) (hp.hasArity r hr).1 hsymbols
  simp only [Function.comp_apply, Rule.arranged, Configuration.arranged, hread]

/-- **Tapes in another order** are gone through in the same way. -/
theorem corresponds_arranged (hp : p.WellFormed) (σ : Equiv.Perm (Fin p.tapeCount)) :
    p.Corresponds (p.arranged σ) (fun c d => c.tracks.length = p.tapeCount ∧ d = c.arranged σ)
      (.arranged σ) where
  maxSteps_eq := rfl
  detectLoops_eq := rfl
  initial := ⟨hp.length_tracks_initial, initial_arranged hp⟩
  ruleAt_eq := by
    rintro c _ ⟨hc, rfl⟩
    exact ruleAt_arranged hp hc
  apply := by
    rintro c _ c' d' r ⟨hc, rfl⟩ hrule hc' hd'
    exact ⟨(Configuration.length_tracks_apply hc').trans hc,
      Configuration.apply_arranged (hp.hasArity r (mem_of_ruleAt hrule)) hc hc' hd'⟩
  finals_iff := by
    rintro c _ ⟨-, rfl⟩
    exact Iff.rfl
  fingerprint_iff := by
    rintro c _ c' _ ⟨hc, rfl⟩ ⟨hc', rfl⟩
    exact (Configuration.fingerprint_arranged_inj hc hc').symm

end Program

namespace Machine

/-- **Tapes are interchangeable.**  A program without defects whose tapes are put in any other order
has no defects.  It halts for the same reason, after the same number of steps, in the same state,
and with the same tapes and heads in that order.  The entries of its trace are those of the program,
one by one, with the same number and state, and with windows, heads and symbols in that order; what
they did is what the rule for the tapes in that order does. -/
theorem execute_arranged (p : Program) (σ : Equiv.Perm (Fin p.tapeCount)) (hp : p.check = .ok ())
    (hm : p.Modest) :
    (p.arranged σ).check = .ok () ∧ ∃ m₁ e₁ m₂ e₂, ofProgram p = .ok m₁ ∧ m₁.execute = .ok e₁ ∧
      ofProgram (p.arranged σ) = .ok m₂ ∧ m₂.execute = .ok e₂ ∧
      e₂.halt = e₁.halt ∧ e₂.totalSteps = e₁.totalSteps ∧ e₂.finalState = e₁.finalState ∧
      e₂.configuration = e₁.configuration.arranged σ ∧
      List.Forall₂ (fun t t' => ∃ r, p.firstRule t.state t.symbols = some r ∧
        t.action = r.describe ∧ t' = t.arranged σ r) e₁.trace.toList e₂.trace.toList := by
  have hwf := Program.check_eq_ok_iff.1 hp
  have hwf' : (p.arranged σ).WellFormed := hwf.arranged
  obtain ⟨m₁, e₁, m₂, e₂, hm₁, he₁, hm₂, he₂, hhalt, hsteps, ⟨-, hend⟩, htrace⟩ :=
    execute_of_corresponds
      (.of_modest (Program.corresponds_arranged hwf σ) hwf hm hwf' hm.arranged) hwf hwf'
  have hstate : e₂.finalState = e₁.finalState := by
    rw [Execution.finalState, Execution.finalState, hend]
    rfl
  refine ⟨Program.check_eq_ok_iff.2 hwf', m₁, e₁, m₂, e₂, hm₁, he₁, hm₂, he₂, hhalt, hsteps,
    hstate, hend, htrace.imp fun t t' ht => ?_⟩
  obtain ⟨n, c, _, r, ⟨-, rfl⟩, hrule, rfl, rfl⟩ := ht
  exact ⟨r, hrule, rfl, TraceEntry.capture_arranged n c r⟩

/-- The two tapes of `carry`, the other way around. -/
theorem execute_arranged_carry : carry.check = .ok () ∧ carry.Modest ∧
    (carry.arranged Fin.revPerm).tapes = [[], ['a', 'a', 'b']] ∧
    (carry.arranged Fin.revPerm).check = .ok () ∧
    ∃ m e, ofProgram (carry.arranged Fin.revPerm) = .ok m ∧ m.execute = .ok e ∧
      e.halt = .accepted ∧ e.totalSteps = 3 ∧ e.finalState = "done" ∧
      e.configuration =
        ⟨"done", [⟨⟨['a', 'a'], -3, '_'⟩, -4⟩, ⟨⟨['_', '_', 'b'], 0, '_'⟩, 2⟩]⟩ ∧
      e.trace.toList.head? = some
        { number := 0, state := "go", contents := [[], ['a', 'a', 'b']], origins := [0, 0],
          heads := [-2, 0], symbols := ['_', 'a'],
          action := "write [a, _], move [L, R], goto go" } := by
  obtain ⟨hcheck, m₁, e₁, m₂, e₂, hm₁, he₁, hm₂, he₂, hhalt, hsteps, hstate, hend, htrace⟩ :=
    execute_arranged carry Fin.revPerm rfl carry_modest
  obtain rfl := Except.ok.inj ((execute_carry hm₁).symm.trans he₁)
  refine ⟨rfl, carry_modest, by decide, hcheck, m₂, e₂, hm₂, he₂, hhalt, hsteps, hstate,
    hend.trans (by decide), ?_⟩
  generalize e₂.trace.toList = entries at htrace
  obtain ⟨t, -, ⟨r, hr, -, rfl⟩, -, rfl⟩ := List.forall₂_cons_left_iff.1 htrace
  cases hr
  exact congrArg some (by decide)

end Machine

end TapeMachine
