import TapeMachine.Proofs.Machine.Correspondence
import TapeMachine.Proofs.Program.Names
import Mathlib.Data.List.GetD

/-!
# Machine — Other names

No symbol and no state is special.  A program whose symbols and states get other names, by a
renaming that is faithful to it, goes through the same configurations with those names
(`Program.corresponds_renamed`).

To read a renamed tape takes nothing of the renaming.  To write on it or to show its window does:
a symbol is compared with the blank, so no other symbol may get the name of the blank
(`Tape.write_renamed`, `Tape.window_renamed`).  Rules and fingerprints compare all symbols and
states; but a run comes upon none that the program does not mention (`Configuration.Over`).  The
main theorem is `Machine.execute_renamed`.
-/

namespace TapeMachine

/-! ### Tapes -/

namespace Tape

variable {f : Symbol → Symbol} {t : Tape} {w : Word} {b s : Symbol} {p : Int}

/-- The tape with other symbols. -/
def renamed (f : Symbol → Symbol) (t : Tape) : Tape := ⟨t.cells.map f, t.origin, f t.blank⟩

theorem covers_renamed : (t.renamed f).Covers p ↔ t.Covers p := by
  simp only [Covers, renamed, List.length_map]

theorem read_renamed : (t.renamed f).read p = f (t.read p) := by
  simp only [read, renamed, List.getD_map]
  split <;> rfl

/-- A write of another symbol, unless that symbol is taken for the blank. -/
theorem write_renamed (h : f s = f t.blank ↔ s = t.blank) :
    (t.renamed f).write p (f s) = (t.write p s).map (renamed f) := by
  have hempty : (t.cells.map f).isEmpty = t.cells.isEmpty := List.isEmpty_map
  -- Which of the five ways the write goes is told by positions, and once by the blank.
  simp only [write, covers_renamed, growLeft, growRight]
  simp only [renamed, h, hempty, List.length_map]
  split_ifs <;> simp [Except.map, renamed]

/-- The symbols before and after the first one that is not the blank. -/
theorem span_renamed (h : ∀ s ∈ w, f s = f b ↔ s = b) :
    (w.map f).takeWhile (· = f b) = (w.takeWhile (· = b)).map f ∧
      (w.map f).dropWhile (· = f b) = (w.dropWhile (· = b)).map f := by
  induction w with
  | nil => exact ⟨rfl, rfl⟩
  | cons s w ih =>
      obtain ⟨hs, hw⟩ := List.forall_mem_cons.1 h
      obtain ⟨htake, hdrop⟩ := ih hw
      by_cases hb : s = b
      · simp [hb, htake, hdrop]
      · simp [hb, hs]

theorem dropBlanksRight_renamed (h : ∀ s ∈ w, f s = f b ↔ s = b) :
    dropBlanksRight (f b) (w.map f) = (dropBlanksRight b w).map f := by
  have hdrop := (span_renamed (w := w.reverse) fun s hs => h s (List.mem_reverse.1 hs)).2
  rw [dropBlanksRight, ← List.map_reverse, hdrop, ← List.map_reverse, dropBlanksRight]

end Tape

/-- The window with other symbols. -/
def Window.renamed (f : Symbol → Symbol) (w : Window) : Window := ⟨w.origin, w.content.map f⟩

/-- The window of a tape with other symbols, none of which is taken for the blank. -/
theorem Tape.window_renamed {f : Symbol → Symbol} {t : Tape}
    (h : ∀ s ∈ t.cells, f s = f t.blank ↔ s = t.blank) :
    (t.renamed f).window = t.window.renamed f := by
  obtain ⟨cells, origin, blank⟩ := t
  obtain ⟨htake, hdrop⟩ := span_renamed h
  change (Tape.mk (cells.map f) origin (f blank)).window = _
  simp only [window, htake, hdrop]
  cases hrest : cells.dropWhile (· = blank) with
  | nil => rfl
  | cons s w =>
      have hsuffix : s :: w <:+ cells := hrest ▸ List.dropWhile_suffix _
      have hblanks := dropBlanksRight_renamed fun a ha => h a (hsuffix.subset ha)
      simp only [List.map_cons] at hblanks ⊢
      rw [hblanks, Window.renamed, List.length_map]

theorem Tape.mem_cells_of_mem_window {t : Tape} {s : Symbol} (h : s ∈ t.window.content) :
    s ∈ t.cells := by
  obtain ⟨n, -, hw⟩ | ⟨i, j, w, hcells, -, -, hw⟩ := t.exists_pad
  · rw [hw] at h
    cases h
  · rw [hw] at h
    rw [hcells]
    exact List.mem_append_left _ (List.mem_append_right _ h)

/-! ### Configurations -/

/-- The track with other symbols. -/
def Track.renamed (f : Symbol → Symbol) (t : Track) : Track := ⟨t.tape.renamed f, t.head⟩

/-- The configuration with other names. -/
def Configuration.renamed (ρ : Renaming) (c : Configuration) : Configuration :=
  ⟨ρ.state c.state, c.tracks.map (.renamed ρ.symbol)⟩

/-- The entry with other names, for a step by the rule `r`. -/
def TraceEntry.renamed (ρ : Renaming) (r : Rule) (t : TraceEntry) : TraceEntry :=
  { t with
    state := ρ.state t.state
    contents := t.contents.map (·.map ρ.symbol)
    symbols := t.symbols.map ρ.symbol
    action := (r.renamed ρ).describe }

/-- A tape with the blank of a program, and on which only symbols of the program are stored. -/
structure Tape.Over (p : Program) (t : Tape) : Prop where
  blank_eq : t.blank = p.blank
  mem_alphabet : ∀ s ∈ t.cells, s ∈ p.alphabet

/-- A configuration that knows no names but those of a program. -/
structure Configuration.Over (p : Program) (c : Configuration) : Prop where
  state_mem : c.state ∈ p.states
  tape_over : ∀ t ∈ c.tracks, t.tape.Over p

section Over

variable {p : Program} {ρ : Renaming}

theorem Tape.Written.over {t u : Tape} {i : Int} {s : Symbol} (h : t.Written i s u)
    (ht : t.Over p) (hs : s ∈ p.alphabet) : u.Over p := by
  refine ⟨h.blank_eq.trans ht.blank_eq, fun a ha => ?_⟩
  have hblank : t.blank ∈ p.alphabet := ht.blank_eq ▸ Program.blank_mem_alphabet
  cases h with
  | stored =>
      rcases List.mem_or_eq_of_mem_set ha with ha | rfl
      · exact ht.mem_alphabet a ha
      · exact hs
  | blank => exact ht.mem_alphabet a ha
  | first =>
      obtain rfl := List.mem_singleton.1 ha
      exact hs
  | left n =>
      rcases List.mem_cons.1 ha with rfl | ha
      · exact hs
      · rcases List.mem_append.1 ha with ha | ha
        · exact List.eq_of_mem_replicate ha ▸ hblank
        · exact ht.mem_alphabet a ha
  | right n =>
      rcases List.mem_append.1 ha with ha | ha
      · exact ht.mem_alphabet a ha
      · rcases List.mem_append.1 ha with ha | ha
        · exact List.eq_of_mem_replicate ha ▸ hblank
        · exact List.mem_singleton.1 ha ▸ hs

theorem Tape.Over.read_mem {t : Tape} (h : t.Over p) (i : Int) : t.read i ∈ p.alphabet := by
  rw [read_eq]
  split
  · exact h.blank_eq ▸ Program.blank_mem_alphabet
  · cases hcell : t.cells[(i - t.origin).toNat]? with
    | none => exact h.blank_eq ▸ Program.blank_mem_alphabet
    | some s => exact h.mem_alphabet s (List.mem_of_getElem? hcell)

/-- A symbol of the program is taken for the blank only if it is the blank. -/
theorem Tape.Over.eq_blank_iff {t : Tape} {s : Symbol} (h : t.Over p) (hρ : ρ.Faithful p)
    (hs : s ∈ p.alphabet) : ρ.symbol s = ρ.symbol t.blank ↔ s = t.blank :=
  h.blank_eq ▸ hρ.symbol_eq_iff hs Program.blank_mem_alphabet

namespace Configuration

variable {c d : Configuration} {r : Rule}

theorem over_initial (p : Program) : (initial p).Over p where
  state_mem := p.initial_mem_states
  tape_over := by
    intro t ht
    obtain ⟨w, hw, head, rfl⟩ := Program.exists_of_mem_initial ht
    exact ⟨rfl, fun s hs => Program.mem_alphabet_of_tape hw hs⟩

/-- The rules of a program bring no other names. -/
theorem Over.apply (hc : c.Over p) (hr : r ∈ p.rules) (h : c.apply r = .ok d) : d.Over p := by
  obtain ⟨us, hus, rfl⟩ := exists_tracks_of_apply h
  refine ⟨Program.next_mem_states hr, fun u hu => ?_⟩
  obtain ⟨i, hi⟩ := List.mem_iff_getElem?.1 hu
  obtain ⟨t, s, m, ht, hs, -, happly⟩ := (Track.getElem?_applyAll hus).1 hi
  obtain ⟨tape, hwrite, rfl⟩ := Track.exists_write_of_apply happly
  exact (Tape.written_of_write hwrite).over (hc.tape_over t (List.mem_of_getElem? ht))
    (Program.mem_alphabet_of_write hr (List.mem_of_getElem? hs))

theorem Over.symbols_mem (hc : c.Over p) : ∀ s ∈ c.symbols, s ∈ p.alphabet := by
  intro s hs
  obtain ⟨t, ht, rfl⟩ := List.mem_map.1 hs
  exact (hc.tape_over t ht).read_mem t.head

/-! ### What is seen of a renamed configuration -/

theorem heads_renamed (c : Configuration) : (c.renamed ρ).heads = c.heads :=
  List.map_map

theorem symbols_renamed (c : Configuration) :
    (c.renamed ρ).symbols = c.symbols.map ρ.symbol := by
  rw [symbols, symbols, renamed, List.map_map, List.map_map]
  exact List.map_congr_left fun t _ => Tape.read_renamed

theorem Over.windows_renamed (hc : c.Over p) (hρ : ρ.Faithful p) :
    (c.renamed ρ).windows = c.windows.map (.renamed ρ.symbol) := by
  rw [windows, windows, renamed, List.map_map, List.map_map]
  refine List.map_congr_left fun t ht => Tape.window_renamed fun s hs => ?_
  exact (hc.tape_over t ht).eq_blank_iff hρ ((hc.tape_over t ht).mem_alphabet s hs)

theorem Over.window_mem {w : Window} (hc : c.Over p) (hw : w ∈ c.windows) :
    ∀ s ∈ w.content, s ∈ p.alphabet := by
  obtain ⟨t, ht, rfl⟩ := List.mem_map.1 hw
  exact fun s hs => (hc.tape_over t ht).mem_alphabet s (Tape.mem_cells_of_mem_window hs)

/-- Configurations that look alike with other names look alike. -/
theorem Over.fingerprint_renamed_iff (hc : c.Over p) (hd : d.Over p) (hρ : ρ.Faithful p) :
    (c.renamed ρ).fingerprint = (d.renamed ρ).fingerprint ↔ c.fingerprint = d.fingerprint := by
  -- The windows hold symbols of the program, between which the renaming tells.
  have hinj : Set.InjOn (Window.renamed ρ.symbol) {w | ∀ s ∈ w.content, s ∈ p.alphabet} := by
    intro w hw w' hw' h
    obtain ⟨horigin, hcontent⟩ := Window.mk.inj h
    exact congrArg₂ Window.mk horigin ((map_eq_map_iff_of_injOn hρ.symbol hw hw').1 hcontent)
  have hwindows := map_eq_map_iff_of_injOn hinj (fun _ => hc.window_mem) fun _ => hd.window_mem
  have hstate := hρ.state_eq_iff hc.state_mem hd.state_mem
  simp only [fingerprint, heads_renamed, hc.windows_renamed hρ, hd.windows_renamed hρ,
    Fingerprint.mk.injEq, hwindows]
  exact and_congr_left fun _ => hstate

end Configuration

/-! ### Rules -/

theorem Track.applyAll_renamed {ts : List Track} {ss : Word} {ms : List Move}
    (hρ : ρ.Faithful p) (hts : ∀ t ∈ ts, t.tape.Over p) (hss : ∀ s ∈ ss, s ∈ p.alphabet) :
    applyAll (ts.map (renamed ρ.symbol)) (ss.map ρ.symbol) ms =
      (applyAll ts ss ms).map (List.map (renamed ρ.symbol)) := by
  induction ts generalizing ss ms with
  | nil => rfl
  | cons t ts ih =>
      obtain ⟨ht, hts⟩ := List.forall_mem_cons.1 hts
      cases ss with
      | nil => rfl
      | cons s ss =>
          obtain ⟨hs, hss⟩ := List.forall_mem_cons.1 hss
          cases ms with
          | nil => rfl
          | cons m ms =>
              have hwrite := Tape.write_renamed (p := t.head) (ht.eq_blank_iff hρ hs)
              simp only [List.map_cons, applyAll, ih hts hss]
              simp only [apply, renamed, hwrite]
              cases t.tape.write t.head s with
              | error e => rfl
              | ok tape => cases applyAll ts ss ms <;> rfl

/-- A rule with other names does to a configuration with those names what the rule does. -/
theorem Configuration.Over.apply_renamed {c : Configuration} {r : Rule} (hc : c.Over p)
    (hρ : ρ.Faithful p) (hr : r ∈ p.rules) :
    (c.renamed ρ).apply (r.renamed ρ) = (c.apply r).map (renamed ρ) := by
  rw [Configuration.apply, Configuration.apply, renamed, Rule.renamed,
    Track.applyAll_renamed hρ hc.tape_over fun s hs => Program.mem_alphabet_of_write hr hs]
  cases Track.applyAll c.tracks r.write r.moves <;> rfl

theorem TraceEntry.capture_renamed {c : Configuration} (hc : c.Over p) (hρ : ρ.Faithful p) (k : Nat)
    (r : Rule) : capture k (c.renamed ρ) (r.renamed ρ) = (capture k c r).renamed ρ r := by
  simp only [capture, renamed, Configuration.heads_renamed, Configuration.symbols_renamed,
    hc.windows_renamed hρ, List.map_map]
  rfl

end Over

/-! ### Programs -/

namespace Program

variable {p : Program} {ρ : Renaming} {c : Configuration}

theorem initial_renamed (p : Program) (ρ : Renaming) :
    Configuration.initial (p.renamed ρ) = (Configuration.initial p).renamed ρ := by
  simp only [Configuration.initial, Configuration.renamed, renamed, List.map_zipWith,
    List.zipWith_map_left]
  rfl

/-- The rule that comes first for other names. -/
theorem ruleAt_renamed (hc : c.Over p) (hρ : ρ.Faithful p) :
    (p.renamed ρ).ruleAt (c.renamed ρ) = (p.ruleAt c).map (.renamed ρ) := by
  rw [ruleAt, firstRule, renamed, List.find?_map, ruleAt, firstRule,
    Configuration.symbols_renamed]
  congr 1
  refine List.find?_congr fun r hr => ?_
  have hstate := hρ.state_eq_iff (state_mem_states hr) hc.state_mem
  have hread := map_eq_map_iff_of_injOn hρ.symbol (fun s hs => mem_alphabet_of_read hr hs)
    hc.symbols_mem
  simp only [Function.comp_apply, Rule.renamed, Configuration.renamed, hstate, hread]

/-- To halt in a state is to accept, whatever the state is called. -/
theorem state_mem_finals_renamed {q : State} (hq : q ∈ p.states) (hρ : ρ.Faithful p) :
    ρ.state q ∈ (p.renamed ρ).finals ↔ q ∈ p.finals := by
  refine mem_finals_renamed.trans ⟨?_, fun h => ⟨q, h, rfl⟩⟩
  rintro ⟨q', hq', heq⟩
  exact (hρ.state_eq_iff (mem_states_of_final hq') hq).1 heq ▸ hq'

/-- **Programs with other names** are gone through in the same way. -/
theorem corresponds_renamed (hρ : ρ.Faithful p) :
    p.Corresponds (p.renamed ρ) (fun c d => c.Over p ∧ d = c.renamed ρ) (.renamed ρ) where
  maxSteps_eq := rfl
  detectLoops_eq := rfl
  initial := ⟨Configuration.over_initial p, initial_renamed p ρ⟩
  ruleAt_eq := by
    rintro c _ ⟨hc, rfl⟩
    exact ruleAt_renamed hc hρ
  apply := by
    rintro c _ c' d' r ⟨hc, rfl⟩ hrule hc' hd'
    have hr := mem_of_ruleAt hrule
    rw [hc.apply_renamed hρ hr, hc'] at hd'
    exact ⟨hc.apply hr hc', (Except.ok.inj hd').symm⟩
  finals_iff := by
    rintro c _ ⟨hc, rfl⟩
    exact state_mem_finals_renamed hc.state_mem hρ
  fingerprint_iff := by
    rintro c _ c' _ ⟨hc, rfl⟩ ⟨hc', rfl⟩
    exact (hc.fingerprint_renamed_iff hc' hρ).symm

end Program

namespace Machine

/-- **No symbol and no state is special.**  A program without defects whose symbols and states get
other names, different ones for different symbols and states of it, has no defects.  It halts for
the same reason, after the same number of steps, and with the same tapes and heads but for the
names, in windows that start at the same positions.  The entries of its trace are those of the
program, one by one, with the same number, heads and starts of windows, and with other names for
what they show; what they did is what the rule with other names does. -/
theorem execute_renamed (p : Program) (ρ : Renaming) (hp : p.check = .ok ()) (hm : p.Modest)
    (hρ : ρ.Faithful p) :
    (p.renamed ρ).check = .ok () ∧ ∃ m₁ e₁ m₂ e₂, ofProgram p = .ok m₁ ∧ m₁.execute = .ok e₁ ∧
      ofProgram (p.renamed ρ) = .ok m₂ ∧ m₂.execute = .ok e₂ ∧
      e₂.halt = e₁.halt ∧ e₂.totalSteps = e₁.totalSteps ∧
      e₂.configuration = e₁.configuration.renamed ρ ∧
      e₂.configuration.windows = e₁.configuration.windows.map (.renamed ρ.symbol) ∧
      List.Forall₂ (fun t t' => ∃ r, p.firstRule t.state t.symbols = some r ∧
        t.action = r.describe ∧ t' = t.renamed ρ r) e₁.trace.toList e₂.trace.toList := by
  have hwf := Program.check_eq_ok_iff.1 hp
  have hwf' := hwf.renamed ρ
  obtain ⟨m₁, e₁, m₂, e₂, hm₁, he₁, hm₂, he₂, hhalt, hsteps, ⟨hover, hend⟩, htrace⟩ :=
    execute_of_corresponds
      (.of_modest (Program.corresponds_renamed hρ) hwf hm hwf' (hm.renamed ρ)) hwf hwf'
  refine ⟨Program.check_eq_ok_iff.2 hwf', m₁, e₁, m₂, e₂, hm₁, he₁, hm₂, he₂, hhalt, hsteps, hend,
    hend ▸ hover.windows_renamed hρ, htrace.imp fun t t' ht => ?_⟩
  obtain ⟨n, c, _, r, ⟨hc, rfl⟩, hrule, rfl, rfl⟩ := ht
  exact ⟨r, hrule, rfl, TraceEntry.capture_renamed hc hρ n r⟩

/-- The blank of `carry` becomes a letter and a letter an underscore, and the states change
places. -/
def exchange : Renaming where
  symbol s := if s = '_' then 'b' else if s = 'a' then '_' else 'a'
  state q := if q = "go" then "done" else if q = "done" then "go" else ""

theorem exchange_faithful : exchange.Faithful carry where
  symbol := by
    -- Over the lists of names, as there are too many symbols to try.
    have h : (carry.alphabet.all fun s => carry.alphabet.all fun s' =>
        exchange.symbol s = exchange.symbol s' → s = s') = true := by decide
    simp only [List.all_eq_true, decide_eq_true_eq] at h
    exact fun s hs s' hs' => h s hs s' hs'
  state := by
    have h : (carry.states.toList.all fun q => carry.states.toList.all fun q' =>
        exchange.state q = exchange.state q' → q = q') = true := by decide
    simp only [List.all_eq_true, decide_eq_true_eq] at h
    exact fun q hq q' hq' => h q hq q' hq'

/-- The run of `carry` with other names: it accepts in the state that was called `done`, and its
first entry tells of the first rule. -/
theorem execute_renamed_carry : carry.check = .ok () ∧ carry.Modest ∧ exchange.Faithful carry ∧
    (carry.renamed exchange).blank = 'b' ∧
    (carry.renamed exchange).tapes = [['_', '_', 'a'], []] ∧
    (carry.renamed exchange).finals.toList = ["go"] ∧
    (carry.renamed exchange).check = .ok () ∧
    ∃ m e, ofProgram (carry.renamed exchange) = .ok m ∧ m.execute = .ok e ∧ e.halt = .accepted ∧
      e.totalSteps = 3 ∧
      e.configuration = ⟨"go", [⟨⟨['b', 'b', 'a'], 0, 'b'⟩, 2⟩, ⟨⟨['_', '_'], -3, 'b'⟩, -4⟩]⟩ ∧
      e.configuration.windows = [⟨2, ['a']⟩, ⟨-3, ['_', '_']⟩] ∧
      e.trace.toList.head? = some
        { number := 0, state := "done", contents := [['_', '_', 'a'], []], origins := [0, 0],
          heads := [0, -2], symbols := ['_', 'b'],
          action := "write [b, _], move [R, L], goto done" } := by
  obtain ⟨hcheck, m₁, e₁, m₂, e₂, hm₁, he₁, hm₂, he₂, hhalt, hsteps, hend, hwindows, htrace⟩ :=
    execute_renamed carry exchange rfl carry_modest exchange_faithful
  obtain rfl := Except.ok.inj ((execute_carry hm₁).symm.trans he₁)
  refine ⟨rfl, carry_modest, exchange_faithful, rfl, rfl, rfl, hcheck, m₂, e₂, hm₂, he₂, hhalt,
    hsteps, hend.trans (by decide), hwindows.trans (by decide), ?_⟩
  generalize e₂.trace.toList = entries at htrace
  obtain ⟨t, -, ⟨r, hr, -, rfl⟩, -, rfl⟩ := List.forall₂_cons_left_iff.1 htrace
  cases hr
  exact congrArg some (by decide)

end Machine

end TapeMachine
