/-!
# Path

Paths of files, as texts whose parts are separated by strokes.
-/

namespace TapeMachine.Path

/-- The parts of a path, empty ones included: there is one more than there are strokes. `done` holds
the part so far, last character first. -/
def parts (done : List Char) : List Char → List (List Char)
  | [] => [done.reverse]
  | c :: cs => if c = '/' then done.reverse :: parts [] cs else parts (c :: done) cs

/-- A path seen from a directory: a path that starts with a stroke is seen the same from
everywhere. -/
def join (directory path : String) : String :=
  if path.startsWith "/" ∨ directory = "" then path
  else if directory.endsWith "/" then directory ++ path
  else directory ++ "/" ++ path

/-- The name of the file that a path leads to, unless it leads to no name. -/
def fileName? (path : String) : Option (List Char) :=
  match ((parts [] path.toList).filter fun p => p ≠ [] ∧ p ≠ ['.']).getLast? with
  | some ['.', '.'] => none
  | last => last

/-- What follows the last point of a file name, unless there is nothing before it. -/
def extension? (name : List Char) : Option (List Char) :=
  let after := name.reverse.takeWhile (· ≠ '.')
  let before := (name.reverse.drop after.length).drop 1
  if after.length = name.length ∨ before = [] then none else some after.reverse

/-- Whether a path leads to a file with an extension. -/
def hasExtension (path : String) (extension : String) : Bool :=
  (fileName? path).bind extension? == some extension.toList

end TapeMachine.Path
