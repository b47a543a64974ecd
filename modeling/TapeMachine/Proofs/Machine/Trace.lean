import TapeMachine.Proofs.Machine.Halting
import TapeMachine.Proofs.Tape.Rewriting

/-!
# Machine — Traces

The trace of a run derives its end from its start.  An entry shows a configuration by its state, its
heads and its windows (`TraceEntry.fingerprint`); the state and the symbols of the entry say which
rule comes first; and what that rule does to the windows shown is what the next entry shows, or the
configuration at the end of the run (`Fingerprint.apply`).  So whoever has the program and the
trace can replay the run without a machine (`Program.replay`).  The main theorem is
`Machine.trace_derives_run`.
-/

namespace TapeMachine

/-! ### What an entry shows -/

namespace TraceEntry

/-- The windows of the tapes. -/
def windows (t : TraceEntry) : List Window := List.zipWith Window.mk t.origins t.contents

/-- The fingerprint of the configuration that an entry shows. -/
def fingerprint (t : TraceEntry) : Fingerprint := ⟨t.state, t.heads, t.windows⟩

/-- An entry has an item for each of so many tapes. -/
structure HasTapes (n : Nat) (t : TraceEntry) : Prop where
  contents_length : t.contents.length = n
  origins_length : t.origins.length = n
  heads_length : t.heads.length = n
  symbols_length : t.symbols.length = n

theorem windows_capture (n : Nat) (c : Configuration) (r : Rule) :
    (capture n c r).windows = c.windows := by
  rw [windows, capture, List.zipWith_map, List.zipWith_self]
  exact List.map_id _

theorem fingerprint_capture (n : Nat) (c : Configuration) (r : Rule) :
    (capture n c r).fingerprint = c.fingerprint := by
  rw [fingerprint, windows_capture]
  rfl

theorem hasTapes_capture {k : Nat} {c : Configuration} (h : c.tracks.length = k) (n : Nat)
    (r : Rule) : (capture n c r).HasTapes k := by
  refine ⟨?_, ?_, ?_, ?_⟩ <;>
    simp only [capture, Configuration.windows, Configuration.heads, Configuration.symbols,
      List.length_map, h]

end TraceEntry

/-! ### What a rule does to what is shown -/

/-- What is shown after a rule has been applied: its next state, each head as far as its move takes
it, and each window with its symbol written under the head. -/
def Fingerprint.apply (b : Symbol) (r : Rule) (f : Fingerprint) : Fingerprint :=
  ⟨r.next, List.zipWith (fun h m => m.destination h) f.heads r.moves,
    List.zipWith3 (fun w h s => w.write b h s) f.windows f.heads r.write⟩

/-- Takes what is shown one entry further, by the rule that comes first for the state and the
symbols of the entry. -/
def Program.replay (p : Program) (f : Fingerprint) (t : TraceEntry) : Option Fingerprint :=
  (p.firstRule t.state t.symbols).map fun r => f.apply p.blank r

namespace Track

variable {ts us : List Track} {ss : Word} {ms : List Move} {b : Symbol}

theorem windows_applyAll (h : applyAll ts ss ms = .ok us) (hb : ∀ t ∈ ts, t.tape.blank = b) :
    us.map (·.tape.window) =
      List.zipWith3 (fun w h s => w.write b h s) (ts.map (·.tape.window)) (ts.map (·.head)) ss := by
  induction ts generalizing ss ms us with
  | nil => cases h; rfl
  | cons t ts ih =>
      obtain ⟨s, ss', m, ms', u, us', rfl, rfl, rfl, hu, hus⟩ := applyAll_cons_eq_ok.mp h
      obtain ⟨tape, hw, rfl⟩ := exists_write_of_apply hu
      rw [List.forall_mem_cons] at hb
      rw [List.map_cons, ih hus hb.2, Tape.window_write hw, hb.1]
      rfl

/-- Heads clear of the ends of the range of positions go as far as they are told to. -/
theorem heads_applyAll (h : applyAll ts ss ms = .ok us)
    (hr : ∀ t ∈ ts, leastPosition < t.head ∧ t.head < greatestPosition) :
    us.map (·.head) = List.zipWith (fun h m => m.destination h) (ts.map (·.head)) ms := by
  induction ts generalizing ss ms us with
  | nil => cases h; rfl
  | cons t ts ih =>
      obtain ⟨s, ss', m, ms', u, us', rfl, rfl, rfl, hu, hus⟩ := applyAll_cons_eq_ok.mp h
      obtain ⟨tape, -, rfl⟩ := exists_write_of_apply hu
      rw [List.forall_mem_cons] at hr
      rw [List.map_cons, List.map_cons, List.zipWith_cons_cons, ih hus hr.2,
        Move.apply_of_clear hr.1.1 hr.1.2]

end Track

namespace Configuration

variable {c d : Configuration} {b : Symbol} {r : Rule}

/-- The symbols under the heads, read from the windows. -/
theorem symbols_eq_of_windows (hc : c.HasBlank b) :
    c.symbols = List.zipWith (fun w h => (w.tape b).read h) c.windows c.heads := by
  rw [symbols, windows, heads, List.zipWith_map, List.zipWith_self]
  refine List.map_congr_left fun t ht => ?_
  rw [Track.symbol, ← hc t ht, Tape.read_window]

theorem fingerprint_apply (hc : c.HasBlank b)
    (hr : ∀ t ∈ c.tracks, leastPosition < t.head ∧ t.head < greatestPosition)
    (h : c.apply r = .ok d) : d.fingerprint = c.fingerprint.apply b r := by
  obtain ⟨us, hus, rfl⟩ := exists_tracks_of_apply h
  rw [fingerprint, heads, windows, Track.heads_applyAll hus hr, Track.windows_applyAll hus hc]
  rfl

/-- What is shown at the start of a program. -/
theorem fingerprint_initial {p : Program} (h : p.tapes.length = p.heads.length) :
    (initial p).fingerprint =
      ⟨p.initial, p.heads, p.tapes.map fun w => (Tape.ofWord w p.blank).window⟩ := by
  have hparts {ws : List Word} {hs : List Int} (h : ws.length = hs.length) :
      (List.zipWith (fun w h => Track.mk (.ofWord w p.blank) h) ws hs).map (·.head) = hs ∧
        (List.zipWith (fun w h => Track.mk (.ofWord w p.blank) h) ws hs).map (·.tape.window) =
          ws.map fun w => (Tape.ofWord w p.blank).window := by
    induction ws generalizing hs with
    | nil => cases hs <;> simp_all
    | cons w ws ih => cases hs <;> simp_all
  rw [fingerprint, heads, windows, initial, (hparts h).1, (hparts h).2]

end Configuration

/-! ### The entries of a course -/

namespace Program

variable {p : Program} {c d : Configuration} {r : Rule} {low high : Int} {i n : Nat}

theorem length_entries (h : p.after n = some c) : (p.entries n).length = n := by
  induction n generalizing c with
  | zero => rfl
  | succ n ih =>
      obtain ⟨a, r, ha, hrule, -⟩ := after_succ_eq_some.mp h
      rw [entries, entryAt, ha, Option.bind_some, hrule, List.length_append, ih ha]
      rfl

theorem getElem?_entries (h : p.after n = some c) (hi : i < n) :
    (p.entries n)[i]? = p.entryAt i := by
  induction n generalizing c with
  | zero => omega
  | succ n ih =>
      obtain ⟨a, r, ha, hrule, -⟩ := after_succ_eq_some.mp h
      have hlen := length_entries ha
      rw [entries]
      rcases Nat.lt_or_ge i n with hlt | hge
      · rw [List.getElem?_append_left (by omega), ih ha hlt]
      · obtain rfl : i = n := by omega
        rw [List.getElem?_append_right hlen.le, hlen, Nat.sub_self, entryAt, ha, Option.bind_some,
          hrule]
        rfl

/-- The entry for a step of a course shows the configuration before the step, by the rule that is
applied. -/
theorem exists_entry (h : p.after n = some c) (hi : i < n) :
    ∃ a r d, p.after i = some a ∧ p.ruleAt a = some r ∧ a.apply r = .ok d ∧
      p.after (i + 1) = some d ∧ (p.entries n)[i]? = some (.capture i a r) := by
  obtain ⟨d, hd⟩ := exists_after h (k := i + 1) (by omega)
  obtain ⟨a, r, ha, hrule, happly⟩ := after_succ_eq_some.mp hd
  refine ⟨a, r, d, ha, hrule, happly, hd, ?_⟩
  rw [getElem?_entries h hi, entryAt, ha, Option.bind_some, hrule]
  rfl

/-- **One step of a course**, on what is shown. -/
theorem fingerprint_next (hp : p.WellFormed) (hr : p.Room low high) (hc : p.Confined low high n)
    (hi : i < n) (ha : p.after i = some c) (happly : c.apply r = .ok d) :
    d.fingerprint = c.fingerprint.apply p.blank r := by
  refine Configuration.fingerprint_apply (hasBlank_after ha) (fun t ht => ?_) happly
  have hideal : p.idealAfter i = some c.ideal := by
    rw [← ideal_after hp hr (hc.mono hi.le), ha]
    rfl
  have hhead := hc i hi _ hideal t.ideal (List.mem_map_of_mem ht)
  have h₁ := hr.lt_low
  have h₂ := hr.high_le
  simp only [Track.ideal] at hhead
  omega

/-- **A course is replayed by its entries.** -/
theorem foldlM_replay_entries (hp : p.WellFormed) (hr : p.Room low high)
    (hc : p.Confined low high n) (h : p.after n = some c) :
    (p.entries n).foldlM p.replay (Configuration.initial p).fingerprint = some c.fingerprint := by
  induction n generalizing c with
  | zero =>
      cases h
      rfl
  | succ n ih =>
      obtain ⟨a, r, ha, hrule, happly⟩ := after_succ_eq_some.mp h
      rw [entries, entryAt, ha, Option.bind_some, hrule, List.foldlM_append,
        ih (hc.mono (by omega)) ha, fingerprint_next hp hr hc (by omega) ha happly]
      -- The entry is shown by the configuration that the rule was looked up in.
      have hfirst : p.firstRule a.state a.symbols = some r := hrule
      change (p.replay a.fingerprint (.capture n a r) >>= fun f => pure f) = _
      rw [bind_pure, replay, TraceEntry.capture, hfirst]
      rfl

end Program

namespace Machine

variable {p : Program} {m : Machine} {n i : Nat} {t : TraceEntry}

theorem Along.size_trace (h : m.Along p n) : m.trace.size = n := by
  rw [← Array.length_toList, h.trace_eq, Program.length_entries h.after_eq]

/-- Each entry of a trace shows the configuration of the course before its step. -/
theorem Along.exists_capture (h : m.Along p n) (ht : m.trace[i]? = some t) :
    i < n ∧ ∃ c r, p.after i = some c ∧ t = .capture i c r := by
  rw [← Array.getElem?_toList, h.trace_eq] at ht
  have hi : i < n := Program.length_entries h.after_eq ▸ (List.getElem?_eq_some_iff.mp ht).1
  obtain ⟨c, r, -, hc, -, -, -, hentry⟩ := Program.exists_entry h.after_eq hi
  exact ⟨hi, c, r, hc, Option.some.inj (ht.symm.trans hentry)⟩

/-- **The trace is a faithful derivation of the run.**  A run of a program without defects has an
entry for each step.  The first entry shows the start.  Each entry has its number, and an item for
each tape; its symbols are those that its windows show under its heads; and there is a rule that
comes first for its state and symbols, whose description it has, and which makes of what it shows
what the next entry shows, or the configuration at the end if it is the last one.  Replayed from the
start, the entries come to the configuration at the end. -/
theorem trace_derives_run (p : Program) (hp : p.check = .ok ()) (hm : p.Modest) :
    ∃ m₀ e, ofProgram p = .ok m₀ ∧ m₀.execute = .ok e ∧ e.trace.size = e.totalSteps ∧
      (∀ t, e.trace[0]? = some t → t.fingerprint =
        ⟨p.initial, p.heads, p.tapes.map fun w => (Tape.ofWord w p.blank).window⟩) ∧
      (∀ i t, e.trace[i]? = some t → t.number = i ∧ t.HasTapes p.tapeCount ∧
        t.symbols = List.zipWith (fun w h => (w.tape p.blank).read h) t.windows t.heads ∧
        ∃ r, p.firstRule t.state t.symbols = some r ∧ t.action = r.describe ∧
          (e.trace[i + 1]?).elim e.configuration.fingerprint TraceEntry.fingerprint =
            t.fingerprint.apply p.blank r) ∧
      e.trace.toList.foldlM p.replay
        ⟨p.initial, p.heads, p.tapes.map fun w => (Tape.ofWord w p.blank).window⟩ =
          some e.configuration.fingerprint := by
  have hwf := Program.check_eq_ok_iff.mp hp
  have hroom := Program.room_of_modest hm
  have hmax := Program.confined_of_modest hwf hm hm.maxSteps_le
  obtain ⟨m₀, m, N, reason, hm₀, hrun, hs⟩ :=
    exists_stopped hwf (Program.neverBreaks hwf hroom hmax)
  have hconf := hmax.mono (hs.steps_eq ▸ hs.steps_le)
  have hstart := Configuration.fingerprint_initial (hwf.tapes_length.trans hwf.heads_length.symm)
  have hlen := Program.length_entries hs.after_eq
  refine ⟨m₀, _, hm₀, execute_of_run hrun, ?_, fun t ht => ?_, fun i t ht => ?_, ?_⟩
  · rw [← Array.length_toList, hs.trace_eq, hlen, hs.steps_eq]
  · rw [← Array.getElem?_toList, hs.trace_eq] at ht
    have hN := (List.getElem?_eq_some_iff.mp ht).1
    obtain ⟨a, r, d, ha, -, -, -, hentry⟩ := Program.exists_entry hs.after_eq (hlen ▸ hN)
    rw [hentry] at ht
    cases ht
    cases ha
    rw [TraceEntry.fingerprint_capture, hstart]
  · simp only [← Array.getElem?_toList, hs.trace_eq] at ht ⊢
    have hi : i < N := hlen ▸ (List.getElem?_eq_some_iff.mp ht).1
    obtain ⟨a, r, d, ha, hrule, happly, hd, hentry⟩ := Program.exists_entry hs.after_eq hi
    rw [hentry] at ht
    cases ht
    have hhoused := Program.housed_after hwf hroom (hconf.mono hi.le) ha
    refine ⟨rfl, TraceEntry.hasTapes_capture hhoused.length_eq i r, ?_, r, hrule, rfl, ?_⟩
    · rw [TraceEntry.windows_capture]
      exact Configuration.symbols_eq_of_windows (Program.hasBlank_after ha)
    · rw [TraceEntry.fingerprint_capture, ← Program.fingerprint_next hwf hroom hconf hi ha happly]
      rcases Nat.lt_or_ge (i + 1) N with hlt | hge
      · obtain ⟨a', r', -, ha', -, -, -, hentry'⟩ := Program.exists_entry hs.after_eq hlt
        obtain rfl : d = a' := Option.some.inj (hd ▸ ha')
        rw [hentry', Option.elim_some, TraceEntry.fingerprint_capture]
      · obtain rfl : N = i + 1 := by omega
        obtain rfl : m.configuration = d := Option.some.inj (hs.after_eq ▸ hd)
        rw [List.getElem?_eq_none hlen.le, Option.elim_none]
  · rw [hs.trace_eq, ← hstart]
    exact Program.foldlM_replay_entries hwf hroom hconf hs.after_eq

/-- The trace of `carry` has three entries.  The second one shows the machine with one symbol
carried, and replayed from the start they come to the end of the run. -/
theorem trace_derives_run_carry : carry.check = .ok () ∧ carry.Modest ∧
    ∃ m₀ e second, ofProgram carry = .ok m₀ ∧ m₀.execute = .ok e ∧ e.totalSteps = 3 ∧
      e.trace.size = 3 ∧ e.trace[1]? = some second ∧ second.number = 1 ∧
      second.fingerprint = ⟨"go", [1, -3], [⟨1, ['a', 'b']⟩, ⟨-2, ['a']⟩]⟩ ∧
      second.symbols = ['a', '_'] ∧ second.action = "write [_, a], move [R, L], goto go" ∧
      e.trace.toList.foldlM carry.replay ⟨"go", [0, -2], [⟨0, ['a', 'a', 'b']⟩, ⟨0, []⟩]⟩ =
        some ⟨"done", [2, -4], [⟨2, ['b']⟩, ⟨-3, ['a', 'a']⟩]⟩ := by
  obtain ⟨m₀, e, hm₀, he, hsize, -, hentry, hreplay⟩ := trace_derives_run carry rfl carry_modest
  obtain rfl := Except.ok.inj ((execute_carry hm₀).symm.trans he)
  obtain ⟨hnumber, -, hsymbols, r, hr, haction, -⟩ := hentry 1 _ rfl
  cases hr
  exact ⟨rfl, carry_modest, m₀, _, _, hm₀, he, rfl, hsize, rfl, hnumber, rfl, hsymbols, haction,
    hreplay⟩

end Machine

end TapeMachine
