/-!
# File paths

Parts of a path as text. Components are separated by slashes; empty components and single dots
count for nothing, except for a dot at the very start of a relative path.

* `Path.parent?`, `Path.fileName?`, `Path.stem?`, `Path.extension?`, `Path.join`.
-/

namespace RobotMachine.Path

/-- The front of a path that is no component to go up from: the root, or a leading dot. -/
def anchor : List Char → List Char
  | '/' :: _ => ['/']
  | ['.'] | '.' :: '/' :: _ => ['.']
  | _ => []

/-- A piece between slashes that counts for nothing. -/
def isIdle (piece : List Char) : Bool :=
  piece == [] || piece == ['.']

/-- The pieces of a path between its slashes, behind the anchor and without idle ones at the end,
last piece first. -/
def reversedPieces (path : List Char) : List (List Char) :=
  ((path.drop (anchor path).length).splitOn '/').reverse.dropWhile isIdle

/-- The last component of a path, unless the path ends in the root, a leading dot or two dots. -/
def fileName? (path : String) : Option String :=
  match reversedPieces path.toList with
  | [] => none
  | last :: _ => if last = ['.', '.'] then none else some (String.ofList last)

/-- A path without its last component; none for the root and for the empty path. -/
def parent? (path : String) : Option String :=
  let front := anchor path.toList
  match reversedPieces path.toList with
  | [] => if front = ['.'] then some "" else none
  | _ :: before =>
    let pieces := (before.dropWhile isIdle).reverse
    some (String.ofList (front ++ ['/'].intercalate pieces))

/-- The text in front of the last dot of a file name and the text behind it. A dot at the very
start does not count. -/
def splitName (name : String) : String × Option String :=
  let reversed := name.toList.reverse
  let after := reversed.takeWhile (· ≠ '.')
  match reversed.drop after.length with
  | [] | [_] => (name, none)
  | _ :: before => (String.ofList before.reverse, some (String.ofList after.reverse))

/-- The file name without its extension. -/
def stem? (path : String) : Option String :=
  (fileName? path).map fun name => (splitName name).1

/-- What follows the last dot of the file name. -/
def extension? (path : String) : Option String :=
  (fileName? path).bind fun name => (splitName name).2

/-- A name inside a directory. -/
def join (directory name : String) : String :=
  if directory = "" then name
  else if directory.toList.getLast? = some '/' then directory ++ name
  else directory ++ "/" ++ name

end RobotMachine.Path
