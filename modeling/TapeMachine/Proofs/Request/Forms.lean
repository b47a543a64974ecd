import TapeMachine.Request
import Mathlib.Logic.Relation

/-!
# Request — Forms

A request can say the same in many ways (`Request.Rephrased`).  What is given singly can be given as
a list of one item, and a list overrules whatever stands beside it; heads and a number of tapes that
are left out can be written out.  This is so for the tapes and the heads of a request, and for each
of the three parts of each of its rules.

However often a request is rephrased, its program is the same under the same limits, and so is the
error if it has none (`Request.program_eq_of_rephrased`).
-/

namespace TapeMachine

/-- A list and a single item, in place of others that mean the same: a single item is given as a
list, or what stands beside a list is given up or changed. -/
inductive Respelled {α : Type} :
    Option (List α) → Option α → Option (List α) → Option α → Prop where
  | listed (a : α) : Respelled none (some a) (some [a]) none
  | overruled (as : List α) (one one' : Option α) : Respelled (some as) one (some as) one'

theorem Respelled.pick_eq {α : Type} {many many' : Option (List α)} {one one' : Option α}
    (h : Respelled many one many' one') : pick many' one' = pick many one := by
  cases h <;> rfl

/-! ### Rules -/

namespace RequestRule

variable {r r' : RequestRule} {rs : List RequestRule} {i : Nat}

/-- A rule of a request, one of whose parts is given in another way. -/
inductive Rephrased (r : RequestRule) : RequestRule → Prop where
  | read {many : Option Word} {one : Option Symbol}
      (h : Respelled r.readSymbols r.readSymbol many one) :
      Rephrased r { r with readSymbols := many, readSymbol := one }
  | write {many : Option Word} {one : Option Symbol}
      (h : Respelled r.writeSymbols r.writeSymbol many one) :
      Rephrased r { r with writeSymbols := many, writeSymbol := one }
  | moves {many : Option (List Move)} {one : Option Move}
      (h : Respelled r.moves r.move many one) :
      Rephrased r { r with moves := many, move := one }

/-- It is the same rule, and where a part is missing it is the same part. -/
theorem Rephrased.rule_eq (h : r.Rephrased r') (index : Nat) : r'.rule index = r.rule index := by
  cases h with
  | read h => rw [rule, h.pick_eq, rule]
  | write h => rw [rule, h.pick_eq, rule]
  | moves h => rw [rule, h.pick_eq, rule]

theorem rulesFrom_set (hr : rs[i]? = some r) (h : ∀ index, r'.rule index = r.rule index)
    (index : Nat) : rulesFrom index (rs.set i r') = rulesFrom index rs := by
  induction rs generalizing i index with
  | nil => rfl
  | cons q qs ih =>
      cases i with
      | zero =>
          cases hr
          rw [List.set_cons_zero, rulesFrom, h, rulesFrom]
      | succ i => rw [List.set_cons_succ, rulesFrom, ih hr, rulesFrom]

end RequestRule

/-! ### Requests -/

namespace Request

variable {r r' : Request}

/-- The tapes that a request gives, in either way. -/
def givenTapes (r : Request) : Option (List Word) := pick r.tapes r.tape

/-- A request that is put in another way, in one place. -/
inductive Rephrased (r : Request) : Request → Prop where
  | tapes {many : Option (List Word)} {one : Option Word}
      (h : Respelled r.tapes r.tape many one) : Rephrased r { r with tapes := many, tape := one }
  /-- A head for each tape, the single head for the first one and position 0 for the others. -/
  | heads (hs : List Int) (hnone : r.heads = none)
      (hlength : ∀ ws, r.givenTapes = some ws → hs.length = ws.length)
      (hfirst : ∀ h, hs[0]? = some h → h = r.head.getD 0)
      (hothers : ∀ (i : Nat) (h : Int), hs[i + 1]? = some h → h = 0) :
      Rephrased r { r with heads := some hs }
  | head (hs : List Int) (hsome : r.heads = some hs) (head : Option Int) :
      Rephrased r { r with head }
  | tapeCount (n : Nat) (hnone : r.tapeCount = none)
      (hn : ∀ ws, r.givenTapes = some ws → n = ws.length) :
      Rephrased r { r with tapeCount := some n }
  | rule {i : Nat} {q q' : RequestRule} (hq : r.rules[i]? = some q) (h : q.Rephrased q') :
      Rephrased r { r with rules := r.rules.set i q' }

/-- The program that a request asks for, given its tapes and its rules. -/
def assembled (r : Request) (tapes : List Word) (rules : List Rule) : Program where
  name := r.name.getD defaultName
  initial := r.initial
  finals := .ofList r.finals
  blank := r.blank
  tapes
  heads := r.headsFor tapes.length
  tapeCount := r.tapeCount.getD tapes.length
  rules
  maxSteps := r.maxSteps
  detectLoops := r.detectLoops

theorem draft_of_givenTapes {ws : List Word} (h : r.givenTapes = some ws) :
    r.draft = (RequestRule.rulesFrom 0 r.rules).map (r.assembled ws) := by
  have hpick : pick r.tapes r.tape = some ws := h
  rw [draft, hpick]
  cases RequestRule.rulesFrom 0 r.rules <;> rfl

theorem draft_of_not_givenTapes (h : r.givenTapes = none) :
    r.draft = .error (.invalid .noTape) := by
  have hpick : pick r.tapes r.tape = none := h
  rw [draft, hpick]
  rfl

/-- Requests with the same tapes and rules ask for the same program if it is put together in the
same way from them. -/
theorem draft_eq_of_assembled (hgiven : r'.givenTapes = r.givenTapes)
    (hrules : RequestRule.rulesFrom 0 r'.rules = RequestRule.rulesFrom 0 r.rules)
    (h : ∀ ws rules, r.givenTapes = some ws → r'.assembled ws rules = r.assembled ws rules) :
    r'.draft = r.draft := by
  cases hws : r.givenTapes with
  | none => rw [draft_of_not_givenTapes (hgiven.trans hws), draft_of_not_givenTapes hws]
  | some ws =>
      rw [draft_of_givenTapes (hgiven.trans hws), draft_of_givenTapes hws, hrules,
        funext fun rules => h ws rules hws]

/-- Heads that are left out are those of a list with the single head in front. -/
theorem headsFor_eq {hs : List Int} (hnone : r.heads = none)
    (hfirst : ∀ h, hs[0]? = some h → h = r.head.getD 0)
    (hothers : ∀ (i : Nat) (h : Int), hs[i + 1]? = some h → h = 0) : r.headsFor hs.length = hs := by
  cases hs with
  | nil => simp only [headsFor, hnone, List.length_nil]
  | cons h hs =>
      have hzero : hs = List.replicate hs.length 0 := List.eq_replicate_iff.2 ⟨rfl, fun x hx => by
        obtain ⟨i, hi⟩ := List.mem_iff_getElem?.1 hx
        exact hothers i x hi⟩
      simp only [headsFor, hnone, List.length_cons]
      rw [← hzero, hfirst h rfl]

/-- **What a request asks for does not depend on how it is put.** -/
theorem Rephrased.draft_eq (h : r.Rephrased r') : r'.draft = r.draft := by
  cases h with
  | tapes h => exact draft_eq_of_assembled h.pick_eq rfl fun _ _ _ => rfl
  | heads hs hnone hlength hfirst hothers =>
      refine draft_eq_of_assembled rfl rfl fun ws rules hws => ?_
      have hheads : r.headsFor ws.length = hs := by
        rw [← hlength ws hws]
        exact headsFor_eq hnone hfirst hothers
      simp only [assembled, hheads]
      rfl
  | head hs hsome head =>
      refine draft_eq_of_assembled rfl rfl fun ws rules _ => ?_
      have hheads : ({ r with head } : Request).headsFor ws.length = r.headsFor ws.length := by
        simp only [headsFor, hsome]
      simp only [assembled, hheads]
  | tapeCount n hnone hn =>
      refine draft_eq_of_assembled rfl rfl fun ws rules hws => ?_
      simp only [assembled, hnone, hn ws hws]
      rfl
  | rule hq h =>
      exact draft_eq_of_assembled rfl (RequestRule.rulesFrom_set hq h.rule_eq 0) fun _ _ _ => rfl

/-- **A request can be rephrased at will.**  A request that is rephrased any number of times, in any
of its places, comes to the same program under the same limits, or to the same error. -/
theorem program_eq_of_rephrased (h : Relation.ReflTransGen Rephrased r r') (l : Limits) :
    r'.program l = r.program l := by
  have hdraft : r'.draft = r.draft := by
    induction h with
    | refl => rfl
    | tail _ h ih => exact h.draft_eq.trans ih
  rw [program, hdraft, program]

/-- A request for one tape, that leaves out what it can. -/
def terse : Request where
  name := none
  tape := some ['1', '0']
  tapes := none
  tapeCount := none
  blank := '_'
  initial := "q0"
  finals := ["h"]
  rules := [
    ⟨"q0", "q0", some '0', some '1', some .left, none, none, none⟩,
    ⟨"q0", "h", some '1', none, some .stay, none, some ['0'], none⟩]
  maxSteps := 10
  head := some 1
  heads := none
  detectLoops := true

/-- The same request in other words: most of it is in lists, and beside them are a tape and a symbol
that do not count. -/
def wordy : Request :=
  { terse with
    tape := some ['x']
    tapes := some [['1', '0']]
    tapeCount := some 1
    rules := [
      ⟨"q0", "q0", none, none, none, some ['0'], some ['1'], some [.left]⟩,
      ⟨"q0", "h", some '1', some 'x', some .stay, none, some ['0'], none⟩]
    head := none
    heads := some [1] }

theorem program_eq_of_rephrased_wordy :
    Relation.ReflTransGen Rephrased terse wordy ∧ wordy.program {} = terse.program {} ∧
      ∃ p, wordy.program {} = .ok p ∧ p.tapes = [['1', '0']] ∧ p.heads = [1] := by
  have h : Relation.ReflTransGen Rephrased terse wordy :=
    .head (.tapes (.listed ['1', '0'])) <|
    .head (.tapes (.overruled [['1', '0']] none (some ['x']))) <|
    .head (.heads [1] rfl (fun _ hws => by cases hws; rfl) (fun _ hh => by cases hh; rfl)
      (fun _ _ hh => by cases hh)) <|
    .head (.head [1] rfl none) <|
    .head (.tapeCount 1 rfl (fun _ hws => by cases hws; rfl)) <|
    .head (.rule (i := 0) rfl (.read (.listed '0'))) <|
    .head (.rule (i := 0) rfl (.write (.listed '1'))) <|
    .head (.rule (i := 0) rfl (.moves (.listed Move.left))) <|
    .head (.rule (i := 1) rfl (.write (.overruled ['0'] none (some 'x')))) .refl
  exact ⟨h, program_eq_of_rephrased h {}, _, rfl, rfl, rfl⟩

end Request

end TapeMachine
