import TapeMachine.Proofs.Machine.Correspondence

/-!
# Machine — Padding

Programs that the ideal machine cannot tell apart (`Program.SameCourse`) run alike, whatever cells
their tapes store.  They correspond, by configurations that are the same ideal one
(`Program.SameCourse.corresponds`); such configurations show the same, so that not only the reason
to stop and the number of steps are the same but the traces as well
(`Machine.execute_of_sameCourse`).

Blanks at the end of a content are not seen by the ideal machine, which makes them invisible in the
runs of the machine that stores them (`Machine.execute_padded`).
-/

namespace TapeMachine

/-- An entry shows a configuration as the ideal one. -/
theorem TraceEntry.capture_eq {b : Symbol} {c d : Configuration} (hc : c.HasBlank b)
    (hd : d.HasBlank b) (h : c.ideal = d.ideal) (n : Nat) (r : Rule) :
    capture n c r = capture n d r := by
  have hf := (Configuration.fingerprint_eq_iff hc hd).2 h
  have hstate : c.state = d.state := congrArg Fingerprint.state hf
  have hheads : c.heads = d.heads := congrArg Fingerprint.heads hf
  have hwindows : c.windows = d.windows := congrArg Fingerprint.windows hf
  have hsymbols : c.symbols = d.symbols := by
    rw [← Configuration.symbols_ideal, h, Configuration.symbols_ideal]
  simp only [capture, hstate, hheads, hwindows, hsymbols]

namespace Program

variable {p q : Program}

/-- The ideal machine starts in the same configuration and takes the same rules, and the same is
asked of its runs. -/
structure SameCourse (p q : Program) : Prop where
  blank_eq : q.blank = p.blank
  finals_eq : q.finals = p.finals
  maxSteps_eq : q.maxSteps = p.maxSteps
  detectLoops_eq : q.detectLoops = p.detectLoops
  firstRule_eq : ∀ s w, q.firstRule s w = p.firstRule s w
  idealStart_eq : q.idealStart = p.idealStart

/-- Programs of the same course correspond, by configurations that are the same ideal one. -/
theorem SameCourse.corresponds (h : p.SameCourse q) :
    p.Corresponds q (fun c d => c.HasBlank p.blank ∧ d.HasBlank p.blank ∧ d.ideal = c.ideal) id where
  maxSteps_eq := h.maxSteps_eq
  detectLoops_eq := h.detectLoops_eq
  initial := by
    refine ⟨hasBlank_after (n := 0) rfl, h.blank_eq ▸ hasBlank_after (n := 0) rfl, ?_⟩
    rw [Configuration.ideal_initial, Configuration.ideal_initial, h.idealStart_eq]
  ruleAt_eq := by
    rintro c d ⟨-, -, hcd⟩
    rw [Option.map_id, id, ruleAt_ideal, ruleAt_ideal, hcd, h.firstRule_eq]
  apply := by
    rintro c d c' d' r ⟨hc, hd, hcd⟩ - hc' hd'
    exact ⟨hc.apply hc', hd.apply hd', Configuration.ideal_eq_of_apply hcd hd' hc'⟩
  finals_iff := by
    rintro c d ⟨-, -, hcd⟩
    rw [h.finals_eq, ← Configuration.state_ideal, hcd, Configuration.state_ideal]
  fingerprint_iff := by
    rintro c d c' d' ⟨hc, hd, hcd⟩ ⟨hc', hd', hcd'⟩
    rw [Configuration.fingerprint_eq_iff hc hc', Configuration.fingerprint_eq_iff hd hd', hcd, hcd']

/-- Two programs of the same course that are without defects and modest. -/
structure RunsLike (p q : Program) : Prop where
  course : p.SameCourse q
  wellFormed : p.WellFormed
  modest : p.Modest
  wellFormed_right : q.WellFormed
  modest_right : q.Modest

end Program

namespace Machine

variable {p q : Program}

/-- Programs that the ideal machine cannot tell apart run alike. -/
theorem execute_of_sameCourse (h : p.RunsLike q) :
    ∃ m₁ e₁ m₂ e₂, ofProgram p = .ok m₁ ∧ m₁.execute = .ok e₁ ∧
      ofProgram q = .ok m₂ ∧ m₂.execute = .ok e₂ ∧
      e₂.halt = e₁.halt ∧ e₂.totalSteps = e₁.totalSteps ∧ e₂.trace = e₁.trace ∧
      e₂.configuration.fingerprint = e₁.configuration.fingerprint := by
  have hwf := h.wellFormed
  have hwf' := h.wellFormed_right
  obtain ⟨m₁, e₁, m₂, e₂, hm₁, he₁, hm₂, he₂, hhalt, hsteps, ⟨hc, hd, hideal⟩, hentries⟩ :=
    execute_of_corresponds
      (.of_modest h.course.corresponds hwf h.modest hwf' h.modest_right) hwf hwf'
  refine ⟨m₁, e₁, m₂, e₂, hm₁, he₁, hm₂, he₂, hhalt, hsteps, ?_,
    (Configuration.fingerprint_eq_iff hd hc).2 hideal⟩
  refine Program.trace_eq_of_entriesAlike (fun n r _ _ hcd => ?_) hentries
  obtain ⟨hc, hd, hcd⟩ := hcd
  exact TraceEntry.capture_eq hc hd hcd.symm n r

end Machine

/-! ### Blanks at the end of contents -/

theorem IdealTrack.ofWord_append_blanks (b : Symbol) (w : Word) (n : Nat) (h : Int) :
    ofWord b (w ++ List.replicate n b) h = ofWord b w h := by
  rw [ofWord, ofWord]
  congr 1
  funext q
  simp only [List.getD_eq_getElem?_getD]
  grind

namespace Program

variable {p : Program} {tapes : List Word}

/-- The program with other contents of its tapes. -/
def withContents (p : Program) (tapes : List Word) : Program := { p with tapes }

/-- The contents `tapes` are those of the program with any number of blanks at the end of each. -/
def Pads (p : Program) (tapes : List Word) : Prop :=
  List.Forall₂ (fun w v => ∃ n, v = w ++ List.replicate n p.blank) p.tapes tapes

theorem Pads.sameCourse (h : p.Pads tapes) : p.SameCourse (p.withContents tapes) where
  blank_eq := rfl
  finals_eq := rfl
  maxSteps_eq := rfl
  detectLoops_eq := rfl
  firstRule_eq _ _ := rfl
  idealStart_eq := by
    have htracks {ws vs : List Word} (hs : List Int)
        (h : List.Forall₂ (fun w v => ∃ n, v = w ++ List.replicate n p.blank) ws vs) :
        List.zipWith (IdealTrack.ofWord p.blank) vs hs =
          List.zipWith (IdealTrack.ofWord p.blank) ws hs := by
      induction h generalizing hs with
      | nil => rfl
      | cons hw _ ih =>
          obtain ⟨n, rfl⟩ := hw
          cases hs with
          | nil => rfl
          | cons i hs =>
              rw [List.zipWith_cons_cons, List.zipWith_cons_cons, ih,
                IdealTrack.ofWord_append_blanks]
    exact congrArg (IdealConfiguration.mk p.initial) (htracks p.heads h)

end Program

namespace Machine

/-- **Blank padding is invisible.**  Two programs without defects, of which one has more blanks at
the end of some of its tapes, halt for the same reason, a loop included, after the same number of
steps, with the same trace, and in the end they show the same state, heads and windows. -/
theorem execute_padded (p : Program) (tapes : List Word) (hpads : p.Pads tapes)
    (hp : p.check = .ok ()) (hm : p.Modest) (hq : (p.withContents tapes).check = .ok ())
    (hlen : ∀ w ∈ tapes, w.length < 1099511627776) :
    ∃ m₁ e₁ m₂ e₂, ofProgram p = .ok m₁ ∧ m₁.execute = .ok e₁ ∧
      ofProgram (p.withContents tapes) = .ok m₂ ∧ m₂.execute = .ok e₂ ∧
      e₂.halt = e₁.halt ∧ e₂.totalSteps = e₁.totalSteps ∧ e₂.trace = e₁.trace ∧
      e₂.finalState = e₁.finalState ∧ e₂.configuration.heads = e₁.configuration.heads ∧
      e₂.configuration.windows = e₁.configuration.windows := by
  have hlike : p.RunsLike (p.withContents tapes) :=
    ⟨hpads.sameCourse, Program.check_eq_ok_iff.1 hp, hm, Program.check_eq_ok_iff.1 hq,
      ⟨hm.maxSteps_le, hlen⟩⟩
  obtain ⟨m₁, e₁, m₂, e₂, hm₁, he₁, hm₂, he₂, hhalt, hsteps, htrace, hend⟩ :=
    execute_of_sameCourse hlike
  exact ⟨m₁, e₁, m₂, e₂, hm₁, he₁, hm₂, he₂, hhalt, hsteps, htrace,
    congrArg Fingerprint.state hend, congrArg Fingerprint.heads hend,
    congrArg Fingerprint.windows hend⟩

/-- A loop of three steps, on a tape that is empty or that stores blanks. -/
theorem execute_padded_blink : blink.Pads [['_', '_']] ∧ blink.check = .ok () ∧ blink.Modest ∧
    (blink.withContents [['_', '_']]).check = .ok () ∧
    (∀ w ∈ [['_', '_']], w.length < 1099511627776) ∧
    ∃ m e, ofProgram (blink.withContents [['_', '_']]) = .ok m ∧ m.execute = .ok e ∧
      e.halt = .loopDetected ∧ e.totalSteps = 3 ∧ e.finalState = "on" ∧
      e.configuration.heads = [-3] ∧ e.configuration.windows = [⟨-3, ['x']⟩] := by
  have hpads : blink.Pads [['_', '_']] := .cons ⟨2, rfl⟩ .nil
  obtain ⟨m₁, e₁, m₂, e₂, hm₁, he₁, hm₂, he₂, hhalt, hsteps, -, hstate, hheads, hwindows⟩ :=
    execute_padded blink [['_', '_']] hpads rfl blink_modest rfl (by decide)
  obtain ⟨m, hrun, hs, hend⟩ := exists_run_blink hm₁
  obtain rfl := Except.ok.inj ((execute_of_run hrun).symm.trans he₁)
  simp only [Execution.finalState, hend] at hstate hheads hwindows
  exact ⟨hpads, rfl, blink_modest, rfl, by decide, m₂, e₂, hm₂, he₂, hhalt,
    hsteps.trans hs.steps_eq, hstate, hheads, hwindows⟩

end Machine

end TapeMachine
