import TapeMachine.Error
import TapeMachine.Path

/-!
# Folder

A folder of a file system: files with their bytes, and folders without anything in them. A path is
followed part by part from the folder, and only a folder can be gone through; a path that starts
with a stroke is not one from the folder, and leads nowhere.
-/

namespace TapeMachine

/-- What a name in a folder stands for. -/
inductive Entry where
  | file (bytes : ByteArray)
  | folder

/-- The names in a folder and what they stand for, in any order. -/
abbrev Folder := List (String × Entry)

namespace Folder

/-- The greatest length of a name, in bytes. -/
def maxNameLength : Nat := 255

/-- The greatest length of a path, in bytes. -/
def maxPathLength : Nat := 4095

/-- Where a path has led to so far. -/
inductive Place where
  /-- A folder around the folder itself. -/
  | outer
  /-- The folder itself. -/
  | top
  /-- A folder in it. -/
  | inner
  | file (bytes : ByteArray)

/-- What a name in the folder leads to. -/
def entry (folder : Folder) (name : String) : Except ReadFault Place :=
  match folder.lookup name with
  | none => .error .notFound
  | some .folder => .ok .inner
  | some (.file bytes) => .ok (.file bytes)

/-- What a part of a path leads to. Two points lead to the folder around, and what is in the folders
around the folder itself is not known. -/
def enter (folder : Folder) (name : String) : Place → Except ReadFault Place
  | .file _ => .error .notADirectory
  | place =>
    if name = "" ∨ name = "." then .ok place
    else if maxNameLength < name.utf8ByteSize then .error .nameTooLong
    else match place, name with
      | .inner, ".." => .ok .top
      | _, ".." => .ok .outer
      | .top, name => folder.entry name
      | _, _ => .error .notFound

/-- Where a path leads from the folder. -/
def find (folder : Folder) (path : String) : Except ReadFault Place :=
  if '\x00' ∈ path.toList then .error .nulInPath
  else if maxPathLength < path.utf8ByteSize then .error .nameTooLong
  else
    let start : Place := if path.startsWith "/" then .outer else .top
    ((Path.parts [] path.toList).map String.ofList).foldlM (fun place part => folder.enter part place)
      start

/-- The text of the file that a path leads to. -/
def read (folder : Folder) (path : String) : Except ReadFault String :=
  match folder.find path with
  | .error fault => .error fault
  | .ok (.file bytes) => match String.fromUTF8? bytes with
    | some text => .ok text
    | none => .error .notUtf8
  | .ok _ => .error .isADirectory

/-- What can be said of the content of a directory. -/
inductive Listing where
  /-- Nothing is there. -/
  | missing
  /-- Something is there, but it has no content to list. -/
  | unreadable (fault : ReadFault)
  | entries (content : Folder)

/-- What is in the folder that a path leads to. -/
def list (folder : Folder) (path : String) : Listing :=
  match folder.find path with
  | .error _ => .missing
  | .ok .top => .entries folder
  | .ok .inner => .entries []
  | .ok .outer => .entries []
  | .ok (.file _) => .unreadable .notADirectory

end Folder

end TapeMachine
