import TapeMachine.CommandLine.Session
import TapeMachine.Proofs.Loader
import TapeMachine.Proofs.Machine.Reset

/-!
# Command line — Plans

A session first finds out what there is to do, and makes no step of a machine then (`plan`).  Either
it comes to its end, or it comes to a machine and lets it run (`Plan.carryOut`); nothing else is
ever run (`session_eq`).  The options may have put another budget, other contents of the tapes and
no watch for loops into the program by then, but the limits are checked after that, and the machine
is made last (`exists_admitted_of_plan`).  The main theorem is `programs_admitted`.
-/

namespace TapeMachine

/-! ### The runs of admitted programs -/

namespace Machine

variable {p : Program} {m m' : Machine} {outcome : Outcome} {cs : List Call}

/-- The machine keeps within the budget and the tapes of a program, with an entry for each step. -/
structure Bounded (p : Program) (m : Machine) : Prop where
  program_eq : m.program = p
  steps_le : m.steps ≤ p.maxSteps
  size_trace : m.trace.size = m.steps
  length_tracks : m.configuration.tracks.length = p.tapeCount

theorem Bounded.advance {r : Rule} {c : Configuration} (h : m.Bounded p)
    (hs : m.steps < m.program.maxSteps) (hc : m.configuration.apply r = .ok c) :
    (m.advance r c).Bounded p where
  program_eq := h.program_eq
  steps_le := h.program_eq ▸ hs
  size_trace := (Array.size_push _).trans (congrArg (· + 1) h.size_trace)
  length_tracks := (Configuration.length_tracks_apply hc).trans h.length_tracks

theorem Bounded.of_step (h : m.Bounded p) (hs : m.step = .ok (m', outcome)) : m'.Bounded p := by
  cases stepped_of_step hs with
  | rests => exact h
  | limit | verdict => exact ⟨h.program_eq, h.steps_le, h.size_trace, h.length_tracks⟩
  | unwatched _ hlt _ hc => exact h.advance hlt hc
  | fresh _ hlt _ hc | seen _ hlt _ hc =>
      have hnext := h.advance hlt hc
      exact ⟨hnext.program_eq, hnext.steps_le, hnext.size_trace, hnext.length_tracks⟩

theorem check_of_ofProgram (h : ofProgram p = .ok m) : p.check = .ok () := by
  obtain ⟨⟨⟩, hcheck, -⟩ := bind_eq_ok_iff.1 h
  exact hcheck

theorem bounded_start (hp : p.WellFormed) {table : RuleTable} :
    Bounded p ⟨p, table, .initial p, .empty, #[], 0, none⟩ :=
  ⟨rfl, Nat.zero_le _, rfl, hp.length_tracks_initial⟩

/-- No call takes a machine beyond the budget of its program, or to another number of tapes. -/
theorem bounded_of_calls (hm : ofProgram p = .ok m) (h : m.calls cs = .ok m') : m'.Bounded p := by
  have hp : p.WellFormed := Program.check_eq_ok_iff.1 (check_of_ofProgram hm)
  obtain ⟨table, rfl⟩ := exists_table_of_ofProgram hm
  refine calls_induction (fun _ _ _ => Bounded.of_step) (fun m hb => ?_) h (bounded_start hp)
  obtain rfl := hb.program_eq
  exact bounded_start hp

end Machine

namespace CommandLine

/-! ### Plans -/

/-- What a session comes to before any step is made: its end, or a machine to be run. -/
inductive Plan where
  | ends (result : Result)
  | runs (o : Options) (m : Machine)

/-- The end of a session that understood its command line. -/
def Result.ofOutput : Except Trouble String → Result
  | .ok text => { exit := 0, output := text }
  | .error t => { exit := 1, errors := t.report }

/-- What there is to do with a program. -/
def Plan.ofProgram (o : Options) (p : Program) : Plan :=
  if o.lint then .ends (.ofOutput (.ok (String.join (p.findings.map (·.message ++ "\n")))))
  else match Machine.ofProgram p with
    | .error defect => .ends (.ofOutput (.error (.error (.structural defect))))
    | .ok m => .runs o m

/-- What there is to do for a command line that is understood, where `read` tells what the files
hold. -/
def Plan.ofOptions (read : String → Except ReadFault String) (o : Options) : Plan :=
  if o.list then .ends (.ofOutput (.ok listing))
  else match (chosen (μ := Id) ⟨read, 0⟩ o).bind (adjust o) with
    | .error t => .ends (.ofOutput (.error t))
    | .ok p => .ofProgram o p

/-- What there is to do for a command line. -/
def plan (read : String → Except ReadFault String) (args : List String) : Plan :=
  match Options.read args with
  | .error .usage => .ends { exit := usageExit, errors := usage }
  | .error .help => .ends { exit := 0, output := usage }
  | .error .version => .ends { exit := 0, output := "tape-machine 0.1.0\n" }
  | .ok o => .ofOptions read o

section

variable {μ : Type → Type} [Monad μ]

/-- Lets a machine run, for a limited time if the options say so. -/
def runMachine (clock : μ Nat) (o : Options) (m : Machine) : μ (Except Trouble Execution) := do
  let stopped ← match o.timeout with
    | none => pure (.ok m)
    | some timeout => do
      let start ← clock
      runTimed (return (← clock) - start) timeout m
  return stopped.bind fun m => m.execute.mapError Trouble.breakdown

/-- Does what there is to do. -/
def Plan.carryOut (clock : μ Nat) : Plan → μ Result
  | .ends result => return result
  | .runs o m => do return .ofOutput ((← runMachine clock o m).map (summary o))

end

/-! ### Sessions -/

section

variable {μ : Type → Type} [Monad μ]

theorem runProgram_of_error (host : Host μ) (o : Options) {p : Program} {d : Defect}
    (h : Machine.ofProgram p = .error d) :
    runProgram host o p = pure (.error (.error (.structural d))) := by
  rw [runProgram, h]

theorem runProgram_of_ok (host : Host μ) (o : Options) {p : Program} {m : Machine}
    (h : Machine.ofProgram p = .ok m) : runProgram host o p = runMachine host.clock o m := by
  rw [runProgram, h]
  rfl

variable [LawfulMonad μ] (clock : μ Nat) (read : String → Except ReadFault String)

/-- Of the world, the choice of a program takes the content of a file alone. -/
theorem chosen_eq (o : Options) :
    chosen ⟨fun path => pure (read path), clock⟩ o = pure (chosen (μ := Id) ⟨read, 0⟩ o) := by
  rw [chosen, chosen]
  cases o.program with
  | some path => exact pure_bind _ _
  | none => cases o.builtIn <;> rfl

theorem output_eq (o : Options) :
    Result.ofOutput <$> output ⟨fun path => pure (read path), clock⟩ o =
      (Plan.ofOptions read o).carryOut clock := by
  rw [output, Plan.ofOptions]
  -- Every way but the last comes to an end without a look at the clock.
  cases o.list with
  | true => exact map_pure _ _
  | false =>
      simp only [chosen_eq, pure_bind]
      cases (chosen (μ := Id) ⟨read, 0⟩ o).bind (adjust o) with
      | error t => exact map_pure _ _
      | ok p =>
          simp only [Plan.ofProgram]
          cases o.lint with
          | true => exact map_pure _ _
          | false =>
              cases hm : Machine.ofProgram p with
              | error d =>
                  simp only [runProgram_of_error _ o hm, pure_bind, Except.map]
                  exact map_pure _ _
              | ok m =>
                  simp only [runProgram_of_ok _ o hm, Plan.carryOut, Bool.false_eq_true, if_false,
                    bind_pure_comp, Functor.map_map]

/-- **A session** makes its plan and carries it out. -/
theorem session_eq (args : List String) :
    session ⟨fun path => pure (read path), clock⟩ args = (plan read args).carryOut clock := by
  rw [session, plan]
  cases Options.read args with
  | error refusal => cases refusal <;> rfl
  | ok o =>
      rw [← output_eq, map_eq_pure_bind]
      exact bind_congr fun result => by cases result <;> rfl

end

variable {read : String → Except ReadFault String} {args : List String} {o o' : Options}
  {p q : Program} {m : Machine}

/-- The program with what the options put into the place of its parts. -/
def adjusted (o : Options) (p : Program) : Program :=
  { p with
    tapes := replaceTapes p.blank p.tapes o.inputs
    maxSteps := o.maxSteps.getD p.maxSteps
    detectLoops := p.detectLoops && !o.noLoopDetection }

/-- The limits are checked after everything that the options change. -/
theorem adjust_eq_ok_iff : adjust o p = .ok q ↔
    o.inputs.length ≤ p.tapes.length ∧ ({} : Limits).check q = .ok () ∧ q = adjusted o p := by
  rw [adjust]
  split
  · next h => exact ⟨nofun, fun h' => absurd h'.1 (Nat.not_le.2 h)⟩
  · next h =>
      constructor
      · intro h'
        obtain ⟨⟨⟩, hl, h'⟩ := bind_eq_ok_iff.1 h'
        cases h'
        exact ⟨Nat.not_lt.1 h, mapError_eq_ok_iff.1 hl, rfl⟩
      · rintro ⟨-, hl, rfl⟩
        exact bind_eq_ok_iff.2 ⟨(), mapError_eq_ok_iff.2 hl, rfl⟩

theorem Plan.ofProgram_eq_runs_iff :
    Plan.ofProgram o p = .runs o' m ↔ o.lint = false ∧ Machine.ofProgram p = .ok m ∧ o = o' := by
  rw [Plan.ofProgram]
  cases o.lint with
  | true => simp
  | false => cases Machine.ofProgram p <;> simp [and_comm]

theorem Plan.ofOptions_eq_runs_iff :
    Plan.ofOptions read o = .runs o' m ↔ o.list = false ∧
      ∃ p, (chosen (μ := Id) ⟨read, 0⟩ o).bind (adjust o) = .ok p ∧
        Plan.ofProgram o p = .runs o' m := by
  rw [Plan.ofOptions]
  cases o.list with
  | true => simp
  | false => cases (chosen (μ := Id) ⟨read, 0⟩ o).bind (adjust o) <;> simp

theorem chosen_of_path {path : String} (read : String → Except ReadFault String)
    (h : o.program = some path) : chosen (μ := Id) ⟨read, 0⟩ o =
      (Loader.file {} path (read path)).mapError (Trouble.unloadable path) := by
  rw [chosen, h]
  rfl

/-- When a plan is to run a machine. -/
theorem plan_eq_runs_iff : plan read args = .runs o m ↔
    Options.read args = .ok o ∧ o.list = false ∧ o.lint = false ∧
      ∃ p, (chosen (μ := Id) ⟨read, 0⟩ o).bind (adjust o) = .ok p ∧
        Machine.ofProgram p = .ok m := by
  rw [plan]
  cases Options.read args with
  | error refusal => cases refusal <;> simp
  | ok o' =>
      simp only [Plan.ofOptions_eq_runs_iff, Plan.ofProgram_eq_runs_iff, Except.ok.injEq]
      constructor
      · rintro ⟨hlist, p, hp, hlint, hm, rfl⟩
        exact ⟨rfl, hlist, hlint, p, hp, hm⟩
      · rintro ⟨rfl, hlist, hlint, p, hp, hm⟩
        exact ⟨hlist, p, hp, hlint, hm, rfl⟩

/-- A machine that is to be run was made of a program that is admitted. -/
theorem exists_admitted_of_plan (h : plan read args = .runs o m) :
    ∃ p, p.Admitted {} ∧ Machine.ofProgram p = .ok m := by
  obtain ⟨-, -, -, p, hp, hm⟩ := plan_eq_runs_iff.1 h
  obtain ⟨q, -, hadjust⟩ := bind_eq_ok_iff.1 hp
  exact ⟨p, Program.admitted_iff.2
    ⟨(adjust_eq_ok_iff.1 hadjust).2.1, Machine.check_of_ofProgram hm⟩, hm⟩

/-- **No program gets past the limits.**  A file whose program is loaded within limits, be it a text
or a request, is not longer than they say, and its program is admitted: it keeps within the limits,
has no defects, and has a machine.  So it is with a text and the usual limits, and with the program
of a request, which has no length.  A session, whatever the files hold, does nothing but carry out
its plan.  If that is to run a machine, then the machine was made of a program that is admitted by
the usual limits; and no calls take the machine to more than 1000000 steps since its start, each
with an entry in the trace, or to more than 10 tapes. -/
theorem programs_admitted :
    (∀ (l : Limits) path content p, Loader.file l path content = .ok p →
      ∃ text, content = .ok text ∧ text.utf8ByteSize ≤ l.maxSize ∧ p.Admitted l) ∧
    (∀ text p, Loader.text text = .ok p →
      text.utf8ByteSize ≤ ({} : Limits).maxSize ∧ p.Admitted {}) ∧
    (∀ (l : Limits) (r : Request) p, r.program l = .ok p → p.Admitted l) ∧
    ∀ (read : String → Except ReadFault String) (args : List String),
      (∀ {μ : Type → Type} [Monad μ] [LawfulMonad μ] (clock : μ Nat),
        session ⟨fun path => pure (read path), clock⟩ args = (plan read args).carryOut clock) ∧
      ∀ o m, plan read args = .runs o m → ∃ p, p.Admitted {} ∧ Machine.ofProgram p = .ok m ∧
        ∀ cs m', m.calls cs = .ok m' → m'.trace.size = m'.steps ∧ m'.steps ≤ 1000000 ∧
          m'.configuration.tracks.length ≤ 10 := by
  refine ⟨fun l path content p => Loader.admitted_of_file, fun text p h => ?_,
    fun l r p h => (Request.program_eq_ok_iff.1 h).2, fun read args =>
    ⟨fun clock => session_eq clock read args, fun o m h => ?_⟩⟩
  · obtain ⟨hsize, h⟩ := Loader.text_eq_ok_iff.1 h
    exact ⟨hsize, (Loader.described_eq_ok_iff.1 h).2⟩
  · obtain ⟨p, hp, hm⟩ := exists_admitted_of_plan h
    obtain ⟨hsteps, htapes⟩ := Limits.check_eq_ok_iff.1 hp.within
    refine ⟨p, hp, hm, fun cs m' hcalls => ?_⟩
    have hb := Machine.bounded_of_calls hm hcalls
    exact ⟨hb.size_trace, hb.steps_le.trans hsteps, hb.length_tracks ▸ htapes⟩

/-- A text for a program that goes to the right as long as it reads an `a`. -/
def strideText : String := "name: n\ntape: a\nrules:\n  q:\n    a, R, q\n  f:"

/-- The program of `strideText`. -/
def stride : Program where
  name := "n"
  initial := "q"
  finals := .ofList ["f"]
  blank := '_'
  tapes := [['a']]
  heads := [0]
  tapeCount := 1
  rules := [⟨"q", ['a'], ['a'], [.right], "q"⟩]
  maxSteps := 1000
  detectLoops := true

/-- `stride` with another content of its tape and another budget. -/
def longStride : Program :=
  { stride with tapes := [['a', 'a']], maxSteps := 7, detectLoops := false }

theorem file_strideText : Loader.file {} "n.tur" (.ok strideText) = .ok stride := by
  decide +kernel

/-- A command line for `longStride`. -/
def strideArgs : List String := ["-p", "n.tur", "-iaa", "--max-steps=7", "--no-loop-detection"]

theorem exists_plan_stride :
    ∃ o m, plan (fun _ => .ok strideText) strideArgs = .runs o m ∧ m.program = longStride := by
  obtain ⟨m, hm, hlive⟩ :=
    Machine.exists_ofProgram (p := longStride) (Program.check_eq_ok_iff.1 (by decide))
  refine ⟨{ program := some "n.tur", inputs := ["aa"], maxSteps := some 7, noLoopDetection := true },
    m, plan_eq_runs_iff.2 ⟨by decide +kernel, rfl, rfl, longStride, ?_, hm⟩, hlive.program_eq⟩
  rw [chosen_of_path _ rfl, file_strideText]
  exact adjust_eq_ok_iff.2 ⟨by decide, by decide, by decide +kernel⟩

/-- `stride` comes in as a file, as a text and as a request, and is run as `longStride`. -/
theorem programs_admitted_stride :
    (∃ text, (.ok strideText : Except ReadFault String) = .ok text ∧
      text.utf8ByteSize ≤ ({} : Limits).maxSize ∧ stride.Admitted {}) ∧
    (strideText.utf8ByteSize ≤ ({} : Limits).maxSize ∧ stride.Admitted {}) ∧
    (Request.ofProgram stride).program {} = .ok stride ∧ stride.Admitted {} ∧
    session (μ := Id) ⟨fun _ => pure (.ok strideText), pure 7⟩ strideArgs =
      (plan (fun _ => .ok strideText) strideArgs).carryOut (μ := Id) (pure 7) ∧
    ∃ o m, plan (fun _ => .ok strideText) strideArgs = .runs o m ∧ m.program = longStride ∧
      ∃ p, p.Admitted {} ∧ Machine.ofProgram p = .ok m ∧
        ∀ cs m', m.calls cs = .ok m' → m'.trace.size = m'.steps ∧ m'.steps ≤ 1000000 ∧
          m'.configuration.tracks.length ≤ 10 := by
  have htext : Loader.text strideText = .ok stride := by decide +kernel
  have hrequest : (Request.ofProgram stride).program {} = .ok stride := by decide +kernel
  obtain ⟨o, m, hplan, hprogram⟩ := exists_plan_stride
  obtain ⟨hfiles, htexts, hrequests, hsessions⟩ := programs_admitted
  obtain ⟨hsession, hruns⟩ := hsessions (fun _ => .ok strideText) strideArgs
  exact ⟨hfiles {} "n.tur" (.ok strideText) stride file_strideText,
    htexts strideText stride htext, hrequest, hrequests {} _ stride hrequest,
    hsession (pure 7), o, m, hplan, hprogram, hruns o m hplan⟩

end CommandLine

end TapeMachine
