import TapeMachine.CommandLine.Session

/-!
# Main

The program: one session of the command line on this computer.
-/

open TapeMachine CommandLine

/-- The text of a file of this computer. -/
def readHere (path : String) : IO (Except ReadFault String) := do
  try
    let bytes ← IO.FS.readBinFile path
    return match String.fromUTF8? bytes with
      | some text => .ok text
      | none => .error .notUtf8
  catch e => return .error (match e with
    | .noFileOrDirectory .. => .notFound
    | .inappropriateType .. => .isADirectory
    | e => .other (toString e))

/-- Runs a session and writes what it says. -/
def main (args : List String) : IO UInt32 := do
  let result ← session ⟨readHere, IO.monoMsNow⟩ args
  (← IO.getStdout).putStr result.output
  (← IO.getStderr).putStr result.errors
  return result.exit.toUInt32
