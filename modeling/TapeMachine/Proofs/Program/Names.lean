import TapeMachine.Proofs.Program.Course

/-!
# Program — Symbols and states

The symbols and the states that a program mentions, and the program that has others in their place
(`Program.renamed`).  A renaming is faithful to a program if it gives different names to different
symbols and to different states of the program; what it does to others is left open.  Whether a
program is without defects does not depend on the names (`Program.WellFormed.renamed`).
-/

namespace TapeMachine

/-- Lists of items that a function keeps apart are kept apart by mapping it over them. -/
theorem map_eq_map_iff_of_injOn {α β : Type} {f : α → β} {u : Set α} (hf : Set.InjOn f u)
    {l l' : List α} (hl : ∀ a ∈ l, a ∈ u) (hl' : ∀ a ∈ l', a ∈ u) :
    l.map f = l'.map f ↔ l = l' := by
  refine ⟨fun h => ?_, congrArg _⟩
  induction l generalizing l' with
  | nil => exact (List.map_eq_nil_iff.1 h.symm).symm
  | cons a l ih =>
      cases l' with
      | nil => cases h
      | cons a' l' =>
          obtain ⟨ha, hl⟩ := List.forall_mem_cons.1 hl
          obtain ⟨ha', hl'⟩ := List.forall_mem_cons.1 hl'
          obtain ⟨hhead, htail⟩ := List.cons.inj h
          rw [hf ha ha' hhead, ih hl hl' htail]

/-- Other names for symbols and states. -/
structure Renaming where
  symbol : Symbol → Symbol
  state : State → State

/-- The rule with other names. -/
def Rule.renamed (ρ : Renaming) (r : Rule) : Rule where
  state := ρ.state r.state
  read := r.read.map ρ.symbol
  write := r.write.map ρ.symbol
  moves := r.moves
  next := ρ.state r.next

theorem Rule.HasArity.renamed {r : Rule} {n : Nat} (h : r.HasArity n) (ρ : Renaming) :
    (r.renamed ρ).HasArity n :=
  ⟨(List.length_map _).trans h.1, (List.length_map _).trans h.2.1, h.2.2⟩

namespace Program

variable {p : Program} {r : Rule} {s : Symbol} {q : State}

/-! ### The names of a program -/

/-- The symbols of the tapes and the rules. -/
def symbols (p : Program) : Word := p.tapes.flatten ++ p.rules.flatMap fun r => r.read ++ r.write

/-- All symbols of a program, the blank among them. -/
def alphabet (p : Program) : Word := p.blank :: p.symbols

/-- A symbol of a program stands on a tape, or a rule reads or writes it. -/
theorem mem_symbols_iff : s ∈ p.symbols ↔
    (∃ w ∈ p.tapes, s ∈ w) ∨ ∃ r ∈ p.rules, s ∈ r.read ∨ s ∈ r.write := by
  rw [symbols, List.mem_append, List.mem_flatten, List.mem_flatMap]
  simp only [List.mem_append]

/-- A state of a program is the initial one, a final one or one of a rule. -/
theorem mem_states_iff : q ∈ p.states ↔
    q = p.initial ∨ q ∈ p.finals ∨ ∃ r ∈ p.rules, q = r.state ∨ q = r.next := by
  rw [states, StateSet.mem_ofList, List.mem_append, List.mem_cons, List.mem_flatMap, or_assoc]
  simp only [List.mem_cons, List.not_mem_nil, or_false]
  rfl

theorem blank_mem_alphabet : p.blank ∈ p.alphabet := List.mem_cons_self

theorem mem_alphabet_of_tape {w : Word} (hw : w ∈ p.tapes) (hs : s ∈ w) : s ∈ p.alphabet :=
  List.mem_cons_of_mem _ (mem_symbols_iff.2 (.inl ⟨w, hw, hs⟩))

theorem mem_alphabet_of_read (hr : r ∈ p.rules) (hs : s ∈ r.read) : s ∈ p.alphabet :=
  List.mem_cons_of_mem _ (mem_symbols_iff.2 (.inr ⟨r, hr, .inl hs⟩))

theorem mem_alphabet_of_write (hr : r ∈ p.rules) (hs : s ∈ r.write) : s ∈ p.alphabet :=
  List.mem_cons_of_mem _ (mem_symbols_iff.2 (.inr ⟨r, hr, .inr hs⟩))

theorem initial_mem_states (p : Program) : p.initial ∈ p.states := mem_states_iff.2 (.inl rfl)

theorem mem_states_of_final (hq : q ∈ p.finals) : q ∈ p.states := mem_states_iff.2 (.inr (.inl hq))

theorem state_mem_states (hr : r ∈ p.rules) : r.state ∈ p.states :=
  mem_states_iff.2 (.inr (.inr ⟨r, hr, .inl rfl⟩))

theorem next_mem_states (hr : r ∈ p.rules) : r.next ∈ p.states :=
  mem_states_iff.2 (.inr (.inr ⟨r, hr, .inr rfl⟩))

/-! ### Other names -/

/-- The program with other names. -/
def renamed (p : Program) (ρ : Renaming) : Program :=
  { p with
    initial := ρ.state p.initial
    finals := .ofList (p.finals.toList.map ρ.state)
    blank := ρ.symbol p.blank
    tapes := p.tapes.map (·.map ρ.symbol)
    rules := p.rules.map (.renamed ρ) }

theorem mem_finals_renamed {ρ : Renaming} :
    q ∈ (p.renamed ρ).finals ↔ ∃ s ∈ p.finals, ρ.state s = q :=
  StateSet.mem_ofList.trans List.mem_map

theorem WellFormed.renamed (hp : p.WellFormed) (ρ : Renaming) : (p.renamed ρ).WellFormed where
  tapeCount_pos := hp.tapeCount_pos
  tapes_length := (List.length_map _).trans hp.tapes_length
  heads_length := hp.heads_length
  headInRange := by
    intro x hx
    rw [Program.renamed, List.zip_map_left] at hx
    obtain ⟨⟨w, h⟩, hwh, rfl⟩ := List.mem_map.1 hx
    have hrange := hp.headInRange _ hwh
    rwa [HeadInRange, Prod.map_fst, List.length_map]
  hasArity := by
    intro r' hr'
    obtain ⟨r, hr, rfl⟩ := List.mem_map.1 hr'
    exact (hp.hasArity r hr).renamed ρ
  finals_ne_nil := by
    obtain ⟨q, hq⟩ := List.exists_mem_of_ne_nil _ hp.finals_ne_nil
    exact List.ne_nil_of_mem (mem_finals_renamed.2 ⟨q, hq, rfl⟩)
  maxSteps_pos := hp.maxSteps_pos

theorem Modest.renamed (hm : p.Modest) (ρ : Renaming) : (p.renamed ρ).Modest where
  maxSteps_le := hm.maxSteps_le
  length_lt := by
    intro w' hw'
    obtain ⟨w, hw, rfl⟩ := List.mem_map.1 hw'
    rw [List.length_map]
    exact hm.length_lt w hw

end Program

/-- Different symbols of the program get different names, and so do different states. -/
structure Renaming.Faithful (ρ : Renaming) (p : Program) : Prop where
  symbol : Set.InjOn ρ.symbol {s | s ∈ p.alphabet}
  state : Set.InjOn ρ.state {q | q ∈ p.states}

namespace Renaming.Faithful

variable {ρ : Renaming} {p : Program}

theorem symbol_eq_iff {s s' : Symbol} (h : ρ.Faithful p) (hs : s ∈ p.alphabet)
    (hs' : s' ∈ p.alphabet) : ρ.symbol s = ρ.symbol s' ↔ s = s' :=
  h.symbol.eq_iff hs hs'

theorem state_eq_iff {q q' : State} (h : ρ.Faithful p) (hq : q ∈ p.states) (hq' : q' ∈ p.states) :
    ρ.state q = ρ.state q' ↔ q = q' :=
  h.state.eq_iff hq hq'

end Renaming.Faithful

end TapeMachine
