import TapeMachine.Json.Decode
import TapeMachine.Json.Printer
import TapeMachine.Request

/-!
# Request — Wire format

Requests, answers and the data they are made of as JSON. A type `T` has the members `T.toJson`, its
fields in declaration order, and `T.decode`, which reads that back. A field that is `none` is left
out.
-/

namespace TapeMachine

open Json

namespace Move

/-- The names of the moves; to stay has two. -/
def names : List (String × Move) := [("L", .left), ("R", .right), ("N", .stay), ("S", .stay)]

/-- A move by its letter. -/
def toJson (m : Move) : Json := .text m.letter

/-- Reads a move. -/
def decode : Decoder Move := Decode.variant names

end Move

namespace HaltReason

/-- The name of a halt reason. -/
def name : HaltReason → String
  | .accepted => "accepted"
  | .rejected => "rejected"
  | .stepLimit => "step_limit"
  | .loopDetected => "loop_detected"

/-- A halt reason by its name. -/
def toJson (r : HaltReason) : Json := .text r.name

/-- Reads a halt reason. -/
def decode : Decoder HaltReason :=
  Decode.variant ([.accepted, .rejected, .stepLimit, .loopDetected].map fun r => (r.name, r))

end HaltReason

namespace Rule

/-- A rule with its parts in lists. -/
def toJson (r : Rule) : Json :=
  .record [
    ("state", .text r.state),
    ("read", .list .char r.read),
    ("write", .list .char r.write),
    ("directions", .list Move.toJson r.moves),
    ("next_state", .text r.next)]

/-- The fields of a rule. -/
def fields : Fields Rule :=
  (Fields.start Rule.mk)
    |>.required "state" Decode.string
    |>.required "read" (Decode.list Decode.char)
    |>.required "write" (Decode.list Decode.char)
    |>.required "directions" (Decode.list Move.decode)
    |>.required "next_state" Decode.string

/-- Reads a rule. -/
def decode : Decoder Rule := fields.decoder "Transition"

end Rule

namespace StateSet

/-- A set as the list of its states in ascending order. -/
def toJson (s : StateSet) : Json := .list .text s.toList

/-- Reads a set from a list in any order. -/
def decode : Decoder StateSet := fun j => (Decode.list Decode.string j).map .ofList

end StateSet

namespace Program

/-- A program, whether it has defects or not. -/
def toJson (p : Program) : Json :=
  .record [
    ("name", .text p.name),
    ("initial_state", .text p.initial),
    ("final_states", p.finals.toJson),
    ("blank", .char p.blank),
    ("tapes", .list .chars p.tapes),
    ("heads", .list .int p.heads),
    ("num_tapes", .nat p.tapeCount),
    ("rules", .list Rule.toJson p.rules),
    ("max_steps", .nat p.maxSteps),
    ("detect_loops", .boolean p.detectLoops)]

/-- The fields of a program. -/
def fields : Fields Program :=
  (Fields.start Program.mk)
    |>.required "name" Decode.string
    |>.required "initial_state" Decode.string
    |>.required "final_states" StateSet.decode
    |>.required "blank" Decode.char
    |>.required "tapes" (Decode.list Decode.chars)
    |>.required "heads" (Decode.list Decode.position)
    |>.required "num_tapes" Decode.count
    |>.required "rules" (Decode.list Rule.decode)
    |>.required "max_steps" Decode.count
    |>.required "detect_loops" Decode.bool

/-- Reads a program. -/
def decode : Decoder Program := fields.decoder "Program"

end Program

namespace Limits

/-- The limits of a host. -/
def toJson (l : Limits) : Json :=
  .record [
    ("max_steps", .nat l.maxSteps),
    ("max_tapes", .nat l.maxTapes),
    ("max_program_size", .nat l.maxSize)]

/-- The fields of limits, all of which may be missing. -/
def fields : Fields Limits :=
  let usual : Limits := {}
  (Fields.start Limits.mk)
    |>.defaulted "max_steps" Decode.count usual.maxSteps
    |>.defaulted "max_tapes" Decode.count usual.maxTapes
    |>.defaulted "max_program_size" Decode.count usual.maxSize

/-- Reads limits. -/
def decode : Decoder Limits := fields.decoder "Limits"

end Limits

namespace TraceEntry

/-- An entry of a trace. -/
def toJson (e : TraceEntry) : Json :=
  .record [
    ("step_number", .nat e.number),
    ("current_state", .text e.state),
    ("tape_contents", .list .chars e.contents),
    ("tape_origins", .list .int e.origins),
    ("head_positions", .list .int e.heads),
    ("symbols_read", .list .char e.symbols),
    ("action_taken", .text e.action)]

/-- The fields of an entry. -/
def fields : Fields TraceEntry :=
  (Fields.start TraceEntry.mk)
    |>.required "step_number" Decode.count
    |>.required "current_state" Decode.string
    |>.required "tape_contents" (Decode.list Decode.chars)
    |>.required "tape_origins" (Decode.list Decode.position)
    |>.required "head_positions" (Decode.list Decode.position)
    |>.required "symbols_read" (Decode.list Decode.char)
    |>.required "action_taken" Decode.string

/-- Reads an entry. -/
def decode : Decoder TraceEntry := fields.decoder "ExecutionStep"

end TraceEntry

namespace RequestRule

/-- A rule of a request. -/
def toJson (r : RequestRule) : Json :=
  .record (
    [("current_state", .text r.current), ("next_state", .text r.next)] ++
    Json.present "read_symbol" (r.readSymbol.map .char) ++
    Json.present "write_symbol" (r.writeSymbol.map .char) ++
    Json.present "move_direction" (r.move.map Move.toJson) ++
    Json.present "read_symbols" (r.readSymbols.map (.list .char)) ++
    Json.present "write_symbols" (r.writeSymbols.map (.list .char)) ++
    Json.present "move_directions" (r.moves.map (.list Move.toJson)))

/-- The fields of a rule of a request. -/
def fields : Fields RequestRule :=
  (Fields.start RequestRule.mk)
    |>.required "current_state" Decode.string
    |>.required "next_state" Decode.string
    |>.optional "read_symbol" Decode.char
    |>.optional "write_symbol" Decode.char
    |>.optional "move_direction" Move.decode
    |>.optional "read_symbols" (Decode.list Decode.char)
    |>.optional "write_symbols" (Decode.list Decode.char)
    |>.optional "move_directions" (Decode.list Move.decode)

/-- Reads a rule of a request. -/
def decode : Decoder RequestRule := fields.decoder "RequestTransition"

end RequestRule

namespace Request

/-- The initial state of a request that names none. -/
def defaultInitial : State := "q0"

/-- A request. -/
def toJson (r : Request) : Json :=
  .record (
    Json.present "name" (r.name.map .text) ++
    Json.present "initial_tape" (r.tape.map .chars) ++
    Json.present "initial_tapes" (r.tapes.map (.list .chars)) ++
    Json.present "num_tapes" (r.tapeCount.map .nat) ++
    [("blank_symbol", .char r.blank),
      ("initial_state", .text r.initial),
      ("final_states", .list .text r.finals),
      ("transitions", .list RequestRule.toJson r.rules),
      ("max_steps", .nat r.maxSteps)] ++
    Json.present "head_position" (r.head.map .int) ++
    Json.present "head_positions" (r.heads.map (.list .int)) ++
    [("detect_loops", .boolean r.detectLoops)])

/-- The fields of a request. -/
def fields : Fields Request :=
  (Fields.start Request.mk)
    |>.optional "name" Decode.string
    |>.optional "initial_tape" Decode.chars
    |>.optional "initial_tapes" (Decode.list Decode.chars)
    |>.optional "num_tapes" Decode.count
    |>.defaulted "blank_symbol" Decode.char defaultBlank
    |>.defaulted "initial_state" Decode.string defaultInitial
    |>.defaulted "final_states" (Decode.list Decode.string) []
    |>.defaulted "transitions" (Decode.list RequestRule.decode) []
    |>.defaulted "max_steps" Decode.count defaultMaxSteps
    |>.optional "head_position" Decode.position
    |>.optional "head_positions" (Decode.list Decode.position)
    |>.defaulted "detect_loops" Decode.bool true

/-- Reads a request. -/
def decode : Decoder Request := fields.decoder "SimulationRequest"

/-- The request that a text holds. -/
def ofText (text : String) : Except Error Request :=
  (Json.decodeText decode text).mapError Error.request

end Request

namespace Response

/-- An answer. -/
def toJson (r : Response) : Json :=
  .record [
    ("success", .boolean r.success),
    ("accepted", .boolean r.accepted),
    ("final_state", .text r.finalState),
    ("final_tapes", .list .chars r.finalTapes),
    ("total_steps", .nat r.totalSteps),
    ("halted", .boolean r.halted),
    ("halt_reason", r.haltReason.toJson),
    ("loop_detected", .boolean r.loopDetected),
    ("execution_time", .number r.executionTime),
    ("message", .text r.message),
    ("num_tapes", .nat r.tapeCount),
    ("execution_steps", .list TraceEntry.toJson r.steps)]

/-- The fields of an answer. -/
def fields : Fields Response :=
  (Fields.start Response.mk)
    |>.required "success" Decode.bool
    |>.required "accepted" Decode.bool
    |>.required "final_state" Decode.string
    |>.required "final_tapes" (Decode.list Decode.chars)
    |>.required "total_steps" Decode.count
    |>.required "halted" Decode.bool
    |>.required "halt_reason" HaltReason.decode
    |>.required "loop_detected" Decode.bool
    |>.required "execution_time" Decode.number
    |>.required "message" Decode.string
    |>.required "num_tapes" Decode.count
    |>.required "execution_steps" (Decode.list TraceEntry.decode)

/-- Reads an answer. -/
def decode : Decoder Response := fields.decoder "SimulationResponse"

end Response

end TapeMachine
