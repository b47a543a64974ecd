import TapeMachine.Proofs.Json.Fields
import TapeMachine.Proofs.StateSet
import TapeMachine.Request.Wire

/-!
# Request — Wire format

**What is written is read back** (`wire_round_trip`): rules, programs, limits, the entries of a
trace and requests, with the rules of these.  Their numbers have to be in range, as they are on
every wire (`InRange`).  For each type, the members that it writes give the fields that it
reads.
-/

namespace TapeMachine

open Json

/-! ### Ranges -/

/-- The numbers of a program are in range. -/
structure Program.InRange (p : Program) : Prop where
  heads : ∀ i ∈ p.heads, IsPosition i
  tapeCount : p.tapeCount ≤ greatestCount
  maxSteps : p.maxSteps ≤ greatestCount

/-- The limits are in range. -/
structure Limits.InRange (l : Limits) : Prop where
  maxSteps : l.maxSteps ≤ greatestCount
  maxTapes : l.maxTapes ≤ greatestCount
  maxSize : l.maxSize ≤ greatestCount

/-- The numbers of an entry are in range. -/
structure TraceEntry.InRange (e : TraceEntry) : Prop where
  number : e.number ≤ greatestCount
  origins : ∀ i ∈ e.origins, IsPosition i
  heads : ∀ i ∈ e.heads, IsPosition i

/-- The numbers of a request are in range. -/
structure Request.InRange (r : Request) : Prop where
  tapeCount : ∀ n ∈ r.tapeCount, n ≤ greatestCount
  maxSteps : r.maxSteps ≤ greatestCount
  head : ∀ i ∈ r.head, IsPosition i
  heads : ∀ is ∈ r.heads, ∀ i ∈ is, IsPosition i

/-! ### What each type writes -/

theorem Move.carries (m : Move) : Carries Move.decode m.toJson m :=
  ⟨.string _, by cases m <;> rfl⟩

theorem StateSet.carries (set : StateSet) : Carries StateSet.decode set.toJson set := by
  have h : Carries (Decode.list Decode.string) set.toJson set.toList :=
    .list fun s _ => .text s
  refine ⟨h.proper, ?_⟩
  rw [StateSet.decode, h.decode_eq]
  exact congrArg Except.ok (ofList_eq fun _ => Iff.rfl)

theorem Rule.carries (r : Rule) : Carries Rule.decode r.toJson r := by
  refine Carries.record "Transition" ?_ (by decide)
  exact (Fields.Given.start Rule.mk)
    |>.required "state" (.text r.state)
    |>.required "read" (.list fun c _ => .char c)
    |>.required "write" (.list fun c _ => .char c)
    |>.required "directions" (.list fun m _ => m.carries)
    |>.required "next_state" (.text r.next)

theorem Program.carries {p : Program} (h : p.InRange) : Carries Program.decode p.toJson p := by
  refine Carries.record "Program" ?_ (by decide)
  exact (Fields.Given.start Program.mk)
    |>.required "name" (.text p.name)
    |>.required "initial_state" (.text p.initial)
    |>.required "final_states" p.finals.carries
    |>.required "blank" (.char p.blank)
    |>.required "tapes" (.list fun cs _ => .chars cs)
    |>.required "heads" (.list fun i hi => .int (h.heads i hi))
    |>.required "num_tapes" (.nat h.tapeCount)
    |>.required "rules" (.list fun r _ => r.carries)
    |>.required "max_steps" (.nat h.maxSteps)
    |>.required "detect_loops" (.boolean p.detectLoops)

theorem Limits.carries {l : Limits} (h : l.InRange) : Carries Limits.decode l.toJson l := by
  refine Carries.record "Limits" ?_ (by decide)
  exact (Fields.Given.start Limits.mk)
    |>.defaulted "max_steps" _ (.nat h.maxSteps)
    |>.defaulted "max_tapes" _ (.nat h.maxTapes)
    |>.defaulted "max_program_size" _ (.nat h.maxSize)

theorem TraceEntry.carries {e : TraceEntry} (h : e.InRange) :
    Carries TraceEntry.decode e.toJson e := by
  refine Carries.record "ExecutionStep" ?_ (by decide)
  exact (Fields.Given.start TraceEntry.mk)
    |>.required "step_number" (.nat h.number)
    |>.required "current_state" (.text e.state)
    |>.required "tape_contents" (.list fun cs _ => .chars cs)
    |>.required "tape_origins" (.list fun i hi => .int (h.origins i hi))
    |>.required "head_positions" (.list fun i hi => .int (h.heads i hi))
    |>.required "symbols_read" (.list fun c _ => .char c)
    |>.required "action_taken" (.text e.action)

theorem RequestRule.carries (r : RequestRule) : Carries RequestRule.decode r.toJson r := by
  refine Carries.record "RequestTransition" ?_ (by decide)
  exact (Fields.Given.start RequestRule.mk)
    |>.required "current_state" (.text r.current)
    |>.required "next_state" (.text r.next)
    |>.optional "read_symbol" Json.char nofun (fun c _ => Carries.char c)
    |>.optional "write_symbol" Json.char nofun (fun c _ => Carries.char c)
    |>.optional "move_direction" Move.toJson nofun (fun m _ => m.carries)
    |>.optional "read_symbols" (Json.list .char) nofun (fun _ _ => Carries.list fun c _ => .char c)
    |>.optional "write_symbols" (Json.list .char) nofun (fun _ _ => Carries.list fun c _ => .char c)
    |>.optional "move_directions" (Json.list Move.toJson) nofun
      (fun _ _ => Carries.list fun m _ => m.carries)

theorem Request.carries {r : Request} (h : r.InRange) : Carries Request.decode r.toJson r := by
  refine Carries.record "SimulationRequest" ?_ (by decide)
  have hgiven : Fields.Given fields _ r := (Fields.Given.start Request.mk)
    |>.optional "name" Json.text nofun (fun s _ => Carries.text s)
    |>.optional "initial_tape" Json.chars nofun (fun cs _ => Carries.chars cs)
    |>.optional "initial_tapes" (Json.list .chars) nofun
      (fun _ _ => Carries.list fun cs _ => .chars cs)
    |>.optional "num_tapes" Json.nat nofun (fun n hn => Carries.nat (h.tapeCount n hn))
    |>.defaulted "blank_symbol" defaultBlank (.char r.blank)
    |>.defaulted "initial_state" defaultInitial (.text r.initial)
    |>.defaulted "final_states" [] (.list fun s _ => .text s)
    |>.defaulted "transitions" [] (.list fun r _ => r.carries)
    |>.defaulted "max_steps" defaultMaxSteps (.nat h.maxSteps)
    |>.optional "head_position" Json.int nofun (fun i hi => Carries.int (h.head i hi))
    |>.optional "head_positions" (Json.list .int) nofun
      (fun is his => Carries.list fun i hi => .int (h.heads is his i hi))
    |>.defaulted "detect_loops" true (.boolean r.detectLoops)
  simpa only [List.append_assoc, List.nil_append, List.cons_append] using hgiven

/-! ### Round trip -/

/-- **What is written is read back.** -/
theorem wire_round_trip :
    (∀ r : Rule, decodeText Rule.decode r.toJson.compact = .ok r) ∧
    (∀ r : RequestRule, decodeText RequestRule.decode r.toJson.compact = .ok r) ∧
    (∀ p : Program, p.InRange → decodeText Program.decode p.toJson.compact = .ok p) ∧
    (∀ l : Limits, l.InRange → decodeText Limits.decode l.toJson.compact = .ok l) ∧
    (∀ e : TraceEntry, e.InRange → decodeText TraceEntry.decode e.toJson.compact = .ok e) ∧
    (∀ r : Request, r.InRange → Request.ofText r.toJson.compact = .ok r) := by
  refine ⟨fun r => r.carries.decodeText, fun r => r.carries.decodeText,
    fun p h => (Program.carries h).decodeText, fun l h => (Limits.carries h).decodeText,
    fun e h => (TraceEntry.carries h).decodeText, fun r h => ?_⟩
  rw [Request.ofText, (Request.carries h).decodeText]
  rfl

/-- A request with names and symbols that have to be escaped, or are far up in Unicode. -/
def Request.thorny : Request :=
  { name := some "\"\\\n\x00\x1f", tape := none,
    tapes := some [['"', '\\', '\x7f'], [], ['😀', 'é']], tapeCount := some greatestCount,
    blank := '\t', initial := "", finals := ["\\u0041", "/"],
    rules := [⟨"", "\r", some '😀', none, some .stay, some [], none, some [.left, .right]⟩],
    maxSteps := greatestCount, head := none, heads := some [leastPosition, 0, greatestPosition],
    detectLoops := false }

/-- A program with as great numbers as there are. -/
def Program.thorny : Program :=
  { name := "\x08\x0c", initial := "é", finals := .ofList ["😀", "\""], blank := '\\',
    tapes := [['"'], []], heads := [greatestPosition, leastPosition], tapeCount := greatestCount,
    rules := [⟨"é", ['\x00'], [], [.stay, .left], "😀"⟩], maxSteps := greatestCount,
    detectLoops := true }

theorem wire_round_trip_thorny :
    (Program.thorny.InRange ∧ Request.thorny.InRange) ∧
    decodeText Program.decode Program.thorny.toJson.compact = .ok Program.thorny ∧
    decodeText Limits.decode (Limits.toJson ⟨greatestCount, 0, greatestCount⟩).compact =
      .ok ⟨greatestCount, 0, greatestCount⟩ ∧
    decodeText TraceEntry.decode
      (TraceEntry.toJson ⟨0, "\"", [[]], [leastPosition], [greatestPosition], ['😀'], "\\"⟩).compact =
      .ok ⟨0, "\"", [[]], [leastPosition], [greatestPosition], ['😀'], "\\"⟩ ∧
    Request.ofText Request.thorny.toJson.compact = .ok Request.thorny :=
  have hprogram : Program.thorny.InRange := ⟨by decide, by decide, by decide⟩
  have hrequest : Request.thorny.InRange := ⟨by decide, by decide, by decide, by decide⟩
  ⟨⟨hprogram, hrequest⟩, wire_round_trip.2.2.1 _ hprogram,
    wire_round_trip.2.2.2.1 _ ⟨by decide, by decide, by decide⟩,
    wire_round_trip.2.2.2.2.1 _ ⟨by decide, by decide, by decide⟩,
    wire_round_trip.2.2.2.2.2 _ hrequest⟩

end TapeMachine
