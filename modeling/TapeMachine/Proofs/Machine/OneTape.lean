import TapeMachine.Proofs.Machine.Controls
import TapeMachine.Proofs.Program.Strip

/-!
# Machine — Runs on one tape

A program with one tape is run on a word.  If it comes to a halt on a strip with the word and some
blanks around it, then every run of it on that word with a budget beyond the steps to that halt
stops there, whether it looks for loops or not, and the tape shows what the strip holds
(`Program.haltsAfter_of_reachesIn`).  The run is accepted in a final state
(`Program.accepts_of_reaches`), and a decision on the strip is one about the word
(`Program.decides_of_reaches`).
-/

namespace TapeMachine

namespace Program

variable {p : Program} {a : IdealConfiguration} {low high : Int} {n k N : Nat} {w : Word}

/-- A program with other tapes at the start; its heads stay where they are. -/
def withTapes (p : Program) (tapes : List Word) : Program := { p with tapes }

theorem WellFormed.withTapes (hp : p.WellFormed) (hcount : p.tapeCount = 1) (hheads : p.heads = [0])
    (w : Word) : (p.withTapes [w]).WellFormed where
  tapeCount_pos := hp.tapeCount_pos
  tapes_length := hcount.symm
  heads_length := hp.heads_length
  headInRange := by
    intro x hx
    have hpair : (p.withTapes [w]).tapes.zip (p.withTapes [w]).heads = [(w, 0)] := by
      change [w].zip p.heads = _
      rw [hheads]
      rfl
    rw [hpair, List.mem_singleton] at hx
    subst hx
    simp only [HeadInRange, maxHeadOffset]
    omega
  hasArity := hp.hasArity
  finals_ne_nil := hp.finals_ne_nil
  maxSteps_pos := hp.maxSteps_pos

/-- A program on a word starts as on a strip with the word and some blanks around it. -/
theorem idealStart_withTapes (p : Program) (hheads : p.heads = [0]) (w : Word) (i j : Nat) :
    (p.withTapes [w]).idealStart =
      (Strip.mk p.initial (List.replicate i p.blank) (w ++ List.replicate j p.blank)).ideal
        p.blank (-i) := by
  rw [idealStart, Strip.ideal, Strip.cells, List.reverse_replicate, ← List.append_assoc,
    Tape.read_pad]
  change IdealConfiguration.mk p.initial (List.zipWith (IdealTrack.ofWord p.blank) [w] p.heads) = _
  rw [hheads, List.length_replicate, neg_add_cancel]
  refine congrArg (fun f => IdealConfiguration.mk p.initial [IdealTrack.mk f 0]) ?_
  funext q
  rw [Tape.read, sub_zero]

theorem reachesIn_withTapes {t u : Strip} (h : Strip.ReachesIn p n t u) (tapes : List Word) :
    Strip.ReachesIn (p.withTapes tapes) n t u := by
  refine h.mono fun _ _ hstep => ?_
  cases hstep with
  | right h => exact .right h
  | left h => exact .left h
  | stay h => exact .stay h

/-! ### The end of a course -/

/-- After its end a course comes to nothing. -/
theorem idealAfter_eq_none (ha : p.idealAfter N = some a)
    (hnone : p.firstRule a.state a.symbols = none) (h : N < n) : p.idealAfter n = none := by
  induction h with
  | refl => rw [idealAfter, ha, Option.bind_some, idealNext?, hnone, Option.map_none]
  | step _ ih => rw [idealAfter, ih, Option.bind_none]

/-- Heads that are in an interval up to the end of the course are there for good. -/
theorem confined_of_end (hconf : p.Confined low high (N + 1)) (ha : p.idealAfter N = some a)
    (hnone : p.firstRule a.state a.symbols = none) (n : Nat) : p.Confined low high n := by
  intro k _ c hc
  rcases Nat.lt_or_ge N k with hlt | hge
  · rw [idealAfter_eq_none ha hnone hlt] at hc
    cases hc
  · exact hconf k (by omega) c hc

end Program

namespace Machine

variable {p : Program} {a : IdealConfiguration} {low high : Int} {N M : Nat}

/-- A run with a budget beyond the end of the course stops at the end. -/
theorem exists_execute_of_end (hp : p.WellFormed) (hr : p.Room low high)
    (hconf : p.Confined low high (N + 1)) (ha : p.idealAfter N = some a)
    (hnone : p.firstRule a.state a.symbols = none) (hM : N < M) (d : Bool) :
    ∃ m₀ e, ofProgram (p.withControls M d) = .ok m₀ ∧ m₀.execute = .ok e ∧ e.totalSteps = N ∧
      e.halt = (if a.state ∈ p.finals then .accepted else .rejected) ∧
      e.configuration.ideal = a ∧ e.configuration.HasBlank p.blank := by
  have hwf := hp.withControls (Nat.zero_lt_of_lt hM) d
  have hroom := hr.withControls M d
  have hconf' (n : Nat) : (p.withControls M d).Confined low high n :=
    (Program.confined_of_end hconf ha hnone n).withControls M d
  obtain ⟨m₀, m, n, reason, hm₀, hrun, hs⟩ :=
    exists_stopped hwf (Program.neverBreaks hwf hroom (hconf' _))
  have hideal := Program.ideal_after hwf hroom (hconf' N)
  rw [Program.idealAfter_withControls, ha, Option.map_eq_some_iff] at hideal
  obtain ⟨c, hc, rfl⟩ := hideal
  have hrule : (p.withControls M d).ruleAt c = none :=
    (Program.ruleAt_ideal (p.withControls M d) c).trans hnone
  obtain ⟨rfl, rfl, hreason⟩ := hs.eq_end hc hrule
    (fun k hk => Program.not_repeatsAt_of_ruleAt_eq_none hwf hroom (hconf' N) hc hrule hk) hM
  exact ⟨m₀, _, hm₀, execute_of_run hrun, hs.steps_eq, hreason, rfl,
    Program.hasBlank_after (p := p.withControls M d) hc⟩

end Machine

/-! ### What the tape shows -/

/-- The window of a tape that stores a trimmed word shows that word. -/
theorem Tape.contents_of_trimmed {b : Symbol} {w : Word} (hw : Trimmed b w) (o : Int) :
    (Tape.mk w o b).contents = w := by
  by_cases hnil : w = []
  · rw [hnil]
    rfl
  · have hread := read_window (Tape.mk w o b)
    have hne : (Tape.mk w o b).window.content ≠ [] := fun hc => by
      rw [Window.tape, hc] at hread
      have horigin := congrFun (hread.symm.trans (read_replicate 0 _ b)) o
      exact read_origin_ne hnil hw horigin
    exact (eq_of_read_eq hne (window_trimmed (Tape.mk w o b)) hnil hw hread).2

/-- A tape that is read like a strip shows what the strip holds between its blanks. -/
theorem Configuration.contents_of_ideal {c : Configuration} {b : Symbol} {low : Int} {t : Strip}
    {i j : Nat} {w : Word} (hc : c.HasBlank b) (h : c.ideal = t.ideal b low)
    (hcells : t.cells = List.replicate i b ++ w ++ List.replicate j b) (hw : Trimmed b w) :
    c.tapes.map (·.contents) = [w] := by
  obtain ⟨s, tracks⟩ := c
  have htracks := congrArg IdealConfiguration.tracks h
  obtain ⟨track, rfl⟩ := List.length_eq_one_iff.mp
    ((List.length_map _).symm.trans (congrArg List.length htracks))
  have hread : track.tape.read = (Tape.mk w (low + i) b).read := by
    rw [← Tape.read_pad w low b i j, ← hcells]
    exact congrArg IdealTrack.cells (List.singleton_inj.mp htracks)
  have hb : track.tape.blank = (Tape.mk w (low + i) b).blank := hc track (by simp)
  have hwindow := (Tape.window_eq_window_iff hb).mpr hread
  exact congrArg (· :: []) ((congrArg Window.content hwindow).trans (Tape.contents_of_trimmed hw _))

/-- A strip on which a program has come to a halt and to a decision: in a final state, with a word
between the blanks, if something holds, and in another state otherwise. -/
structure Strip.Decided (p : Program) (φ : Prop) (v : Word) (u : Strip) : Prop where
  stuck : u.Stuck p
  accepts : φ → u.state ∈ p.finals ∧
    ∃ k n, u.cells = List.replicate k p.blank ++ v ++ List.replicate n p.blank
  rejects : ¬ φ → u.state ∉ p.finals

section Decided

variable {p : Program} {u : Strip} {v : Word} {k n : Nat} {φ : Prop}

theorem Strip.Decided.of_holds (hφ : φ) (hu : u.Stuck p) (hfinal : u.state ∈ p.finals)
    (hcells : u.cells = List.replicate k p.blank ++ v ++ List.replicate n p.blank) :
    u.Decided p φ v where
  stuck := hu
  accepts _ := ⟨hfinal, k, n, hcells⟩
  rejects h := absurd hφ h

theorem Strip.Decided.of_not (hφ : ¬ φ) (hu : u.Stuck p) (hstate : u.state ∉ p.finals) :
    u.Decided p φ v where
  stuck := hu
  accepts h := absurd h hφ
  rejects _ := hstate

end Decided

namespace Program

variable {p : Program} {u : Strip} {w v : Word} {i j k n N : Nat} {P Q : Execution → Prop} {φ : Prop}

/-- A program with one tape halts on a word: with every budget beyond a number of steps it makes so
many steps, whether it looks for loops or not, and comes to what is required of a run. -/
def HaltsOn (p : Program) (w : Word) (P : Execution → Prop) : Prop :=
  ∃ N, ∀ M d, N < M → ∃ m₀ e, Machine.ofProgram ((p.withTapes [w]).withControls M d) = .ok m₀ ∧
    m₀.execute = .ok e ∧ e.totalSteps = N ∧ P e

/-- A program with one tape halts on a word after so many steps: with every budget beyond these it
makes so many, whether it looks for loops or not, and comes to what is required of a run. -/
def HaltsAfter (p : Program) (N : Nat) (w : Word) (P : Execution → Prop) : Prop :=
  ∀ M d, N < M → ∃ m₀ e, Machine.ofProgram ((p.withTapes [w]).withControls M d) = .ok m₀ ∧
    m₀.execute = .ok e ∧ e.totalSteps = N ∧ P e

theorem HaltsAfter.mono (h : p.HaltsAfter n w P) (hPQ : ∀ e, P e → Q e) : p.HaltsAfter n w Q := by
  intro M d hM
  obtain ⟨m₀, e, hm₀, he, hsteps, hP⟩ := h M d hM
  exact ⟨m₀, e, hm₀, he, hsteps, hPQ e hP⟩

theorem HaltsAfter.haltsOn (h : p.HaltsAfter n w P) : p.HaltsOn w P := ⟨n, h⟩

theorem HaltsOn.mono (h : p.HaltsOn w P) (hPQ : ∀ e, P e → Q e) : p.HaltsOn w Q := by
  obtain ⟨N, hN⟩ := h
  exact (HaltsAfter.mono hN hPQ).haltsOn

/-- **A program that comes to a halt on a strip** halts on the word there after as many steps.  It
accepts in a final state and rejects in any other, and the tape shows what the strip holds between
its blanks. -/
theorem haltsAfter_of_reachesIn (hp : p.WellFormed) (hcount : p.tapeCount = 1)
    (hheads : p.heads = [0]) (hsize : i + w.length + j < 4398046511104)
    (h : Strip.ReachesIn p N ⟨p.initial, List.replicate i p.blank, w ++ List.replicate j p.blank⟩ u)
    (hu : u.Stuck p) : p.HaltsAfter N w fun e =>
      e.halt = (if u.state ∈ p.finals then .accepted else .rejected) ∧ e.finalState = u.state ∧
      ∀ k v n, u.cells = List.replicate k p.blank ++ v ++ List.replicate n p.blank →
        Trimmed p.blank v → e.finalTapes = [v] := by
  have hstart := p.idealStart_withTapes hheads w i j
  obtain ⟨hN, hall⟩ := Strip.idealAfter_of_reachesIn hstart (reachesIn_withTapes h [w])
  have hlen : (Strip.mk p.initial (List.replicate i p.blank)
      (w ++ List.replicate j p.blank)).cells.length = i + w.length + j := by
    simp only [Strip.cells, List.length_append, List.length_reverse, List.length_replicate]
    omega
  intro M d hM
  have hroom : (p.withTapes [w]).Room (-i) (-i + (i + w.length + j : Nat) + 1) := by
    refine ⟨by omega, fun v hv => ?_, ?_, ?_, ?_⟩
    · rw [List.mem_singleton.mp hv]
      omega
    all_goals simp only [leastPosition, greatestPosition, Tape.capacity]; omega
  have hconf : (p.withTapes [w]).Confined (-i) (-i + (i + w.length + j : Nat) + 1) (N + 1) := by
    intro k hk c hc
    obtain ⟨v, hv, hkv⟩ := hall k (by omega)
    obtain rfl := Option.some.inj (hkv ▸ hc)
    have hwithin := Strip.headsWithin_ideal p.blank (-i) v
    rwa [Strip.length_eq_of_reaches hv, hlen] at hwithin
  obtain ⟨m₀, e, hm₀, he, hsteps, hhalt, hideal, hblank⟩ :=
    Machine.exists_execute_of_end (hp.withTapes hcount hheads w) hroom hconf hN
      (Strip.firstRule_of_stuck (p := p.withTapes [w]) hu p.blank (-i)) hM d
  refine ⟨m₀, e, hm₀, he, hsteps, hhalt, congrArg IdealConfiguration.state hideal,
    fun k v n hcells hv => ?_⟩
  exact Configuration.contents_of_ideal hblank hideal hcells hv

theorem haltsOn_of_reaches (hp : p.WellFormed) (hcount : p.tapeCount = 1) (hheads : p.heads = [0])
    (hsize : i + w.length + j < 4398046511104)
    (h : Strip.Reaches p ⟨p.initial, List.replicate i p.blank, w ++ List.replicate j p.blank⟩ u)
    (hu : u.Stuck p) : p.HaltsOn w fun e =>
      e.halt = (if u.state ∈ p.finals then .accepted else .rejected) ∧ e.finalState = u.state ∧
      ∀ k v n, u.cells = List.replicate k p.blank ++ v ++ List.replicate n p.blank →
        Trimmed p.blank v → e.finalTapes = [v] := by
  obtain ⟨N, hN⟩ := reflTransGen_iff_inSteps.mp h
  exact (haltsAfter_of_reachesIn hp hcount hheads hsize hN hu).haltsOn

/-- A program that comes to a halt in a final state on a strip accepts the word after as many steps,
with what the strip holds between its blanks on the tape. -/
theorem accepts_of_reachesIn (hp : p.WellFormed) (hcount : p.tapeCount = 1) (hheads : p.heads = [0])
    (hsize : i + w.length + j < 4398046511104)
    (h : Strip.ReachesIn p N ⟨p.initial, List.replicate i p.blank, w ++ List.replicate j p.blank⟩ u)
    (hu : u.Stuck p) (hfinal : u.state ∈ p.finals)
    (hcells : u.cells = List.replicate k p.blank ++ v ++ List.replicate n p.blank)
    (hv : Trimmed p.blank v) : p.HaltsAfter N w fun e =>
      e.halt = .accepted ∧ e.finalState = u.state ∧ e.finalTapes = [v] :=
  (haltsAfter_of_reachesIn hp hcount hheads hsize h hu).mono fun _ ⟨hhalt, hstate, htapes⟩ =>
    ⟨hhalt.trans (if_pos hfinal), hstate, htapes k v n hcells hv⟩

theorem accepts_of_reaches (hp : p.WellFormed) (hcount : p.tapeCount = 1) (hheads : p.heads = [0])
    (hsize : i + w.length + j < 4398046511104)
    (h : Strip.Reaches p ⟨p.initial, List.replicate i p.blank, w ++ List.replicate j p.blank⟩ u)
    (hu : u.Stuck p) (hfinal : u.state ∈ p.finals)
    (hcells : u.cells = List.replicate k p.blank ++ v ++ List.replicate n p.blank)
    (hv : Trimmed p.blank v) : p.HaltsOn w fun e =>
      e.halt = .accepted ∧ e.finalState = u.state ∧ e.finalTapes = [v] := by
  obtain ⟨N, hN⟩ := reflTransGen_iff_inSteps.mp h
  exact (accepts_of_reachesIn hp hcount hheads hsize hN hu hfinal hcells hv).haltsOn

/-- A program that comes to a decision on a strip decides about the word. -/
theorem decides_of_reaches (hp : p.WellFormed) (hcount : p.tapeCount = 1) (hheads : p.heads = [0])
    (hsize : i + w.length + j < 4398046511104)
    (h : Strip.Reaches p ⟨p.initial, List.replicate i p.blank, w ++ List.replicate j p.blank⟩ u)
    (hu : u.Decided p φ v) (hv : Trimmed p.blank v) : p.HaltsOn w fun e =>
      (φ → e.halt = .accepted ∧ e.finalTapes = [v]) ∧ (¬ φ → e.halt = .rejected) := by
  refine (haltsOn_of_reaches hp hcount hheads hsize h hu.stuck).mono
    fun e ⟨hhalt, _, htapes⟩ => ⟨fun hφ => ?_, fun hφ => hhalt.trans (if_neg (hu.rejects hφ))⟩
  obtain ⟨hfinal, k, n, hcells⟩ := hu.accepts hφ
  exact ⟨hhalt.trans (if_pos hfinal), htapes k v n hcells hv⟩

end Program

end TapeMachine
