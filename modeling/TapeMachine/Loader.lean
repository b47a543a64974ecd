import TapeMachine.Folder
import TapeMachine.Notation
import TapeMachine.Request.Wire

/-!
# Loader

Programs from files. A file whose name ends in `.json` holds a request, any other file holds a
program in the text notation. `Loader.directory` loads the program files of a directory one by one,
in the order of their names.
-/

namespace TapeMachine

namespace Loader

/-- The program that a text describes, within limits. -/
def described (limits : Limits) (text : String) : Except Error Program := do
  let p ← Program.parse text.toList
  limits.check p
  return p

/-- The program that a text describes, within the usual limits. -/
def text (text : String) : Except Error Program := do
  let limits : Limits := {}
  limits.checkSize text.utf8ByteSize
  described limits text

/-- The program that the request in a text asks for, within limits. -/
def request (limits : Limits) (text : String) : Except Error Program := do
  let r ← Request.ofText text
  r.program limits

/-- The program of the file at a path, of which reading gave `content`. -/
def file (limits : Limits) (path : String) (content : Except ReadFault String) :
    Except Error Program := do
  let text ← content.mapError (Error.file path)
  limits.checkSize text.utf8ByteSize
  if Path.hasExtension path "json" then request limits text else described limits text

/-- Whether an entry of a directory is a program file. -/
def isProgramFile : String × Entry → Bool
  | (name, .file _) => Path.hasExtension name "tur" || Path.hasExtension name "json"
  | (_, .folder) => false

/-- The program of one file of a directory at a path, with the path of the file. -/
def member (directory : String) (folder : Folder) (name : String) :
    Except Error (String × Program) :=
  let path := Path.join directory name
  match file {} path (folder.read name) with
  | .ok p => .ok (path, p)
  | .error e => .error (.program path e)

/-- The programs of a directory at a path. -/
def directory (path : String) : Folder.Listing → List (Except Error (String × Program))
  | .missing => [.error (.noDirectory path)]
  | .unreadable fault => [.error (.directory path fault)]
  | .entries folder =>
    let names := (folder.filter isProgramFile).map Prod.fst
    (names.mergeSort (· ≤ ·)).map (member path folder)

end Loader

end TapeMachine
