import RobotMachine.Console.Shell

/-!
# A directory in memory

The surroundings of a command as a value: the files of the directory that it runs in, the
environment variables, and what it has printed. A directory exists if a file lies in it. Around the
directory there are only the directories above it. A path has at most 4095 bytes, and a component of
a path at most 255.
-/

namespace RobotMachine

structure Workspace where
  /-- The files with their contents; a name is a list of components. -/
  files : List (List String × List UInt8) := []
  environment : List (String × String) := []
  output : String := ""
  errors : String := ""
  /-- The files that were written, with their new contents, newest first. -/
  written : List (List String × List UInt8) := []

/-- What stands at a place of the directory. -/
inductive Entry
  | missing
  | directory
  | file (bytes : List UInt8)

namespace Workspace

/-- The name of a file as a list of components. -/
def nameOf (path : String) : List String :=
  (path.toList.splitOn '/').map String.ofList

/-- The place at which a path starts: the root of the file system or the directory itself. -/
def start (path : String) : List String :=
  if path.startsWith "/" then ["/"] else []

/-- Whether a place is a directory around the directory in memory. -/
def isAround (place : List String) : Bool :=
  place = ["/"] || place.all (· == "..")

def entry (w : Workspace) (place : List String) : Entry :=
  match w.files.lookup place with
  | some bytes => .file bytes
  | none =>
    if isAround place ∨ w.files.any fun (name, _) => place.isPrefixOf name then .directory
    else .missing

/-- The directory above a place. The root is above itself. -/
def above (place : List String) : List String :=
  if place = ["/"] then place
  else if isAround place then ".." :: place
  else place.dropLast

/-- Follows components from a place. Only a directory can be gone on from. -/
def follow (w : Workspace) (place : List String) : List String → Except FileError (List String)
  | [] => .ok place
  | component :: components =>
    match w.entry place with
    | .missing => .error .notFound
    | .file _ => .error .notDirectory
    | .directory =>
      if component = "" ∨ component = "." then w.follow place components
      else if component = ".." then w.follow (above place) components
      else if component.utf8ByteSize > 255 then .error .nameTooLong
      else w.follow (place ++ [component]) components

/-- The place that the given components of a path lead to. The path as a whole is refused first if
it is empty or too long. -/
def locate (w : Workspace) (path : String) (components : List String) :
    Except FileError (List String) :=
  if path = "" then .error .notFound
  else if path.utf8ByteSize > 4095 then .error .nameTooLong
  else w.follow (start path) components

def read (w : Workspace) (path : String) : Except FileError (List UInt8) := do
  match w.entry (← w.locate path (nameOf path)) with
  | .missing => .error .notFound
  | .directory => .error .isDirectory
  | .file bytes => .ok bytes

/-- Whether a path leads to something. -/
def contains (w : Workspace) (path : String) : Bool :=
  match w.locate path (nameOf path) with
  | .error _ => false
  | .ok place =>
    match w.entry place with
    | .missing => false
    | .directory | .file _ => true

/-- The workspace with a file replaced or added. -/
def put (w : Workspace) (name : List String) (bytes : List UInt8) : Workspace :=
  { w with
    files := (name, bytes) :: w.files.filter (·.1 ≠ name)
    written := (name, bytes) :: w.written.filter (·.1 ≠ name) }

/-- The components in front of the last one, with slashes at the end of the path left aside. -/
def frontOf (path : String) : List String :=
  (((nameOf path).reverse.dropWhile (· == "")).drop 1).reverse

/-- The workspace after writing a file. A path with a slash at its end names no file, whether
something is there or not; all in front of its last component must be directories still. -/
def write (w : Workspace) (path : String) (bytes : List UInt8) : Except FileError Workspace := do
  if path.endsWith "/" then
    match w.entry (← w.locate path (frontOf path)) with
    | .missing => .error .notFound
    | .file _ => .error .notDirectory
    | .directory => .error .isDirectory
  else
    let place ← w.locate path (nameOf path)
    match w.entry place with
    | .directory => .error .isDirectory
    | .missing | .file _ => .ok (w.put place bytes)

instance : Shell (StateM Workspace) where
  readFile path := return (← get).read path
  writeFile path bytes := do
    match (← get).write path bytes with
    | .ok w => set w; return .ok ()
    | .error e => return .error e
  pathExists path := return (← get).contains path
  environment name := return (← get).environment.lookup name
  print text := modify fun w => { w with output := w.output ++ text }
  printError text := modify fun w => { w with errors := w.errors ++ text }
  logLine level message := modify fun w =>
    { w with errors := w.errors ++ "[" ++ level.name ++ "] " ++ message ++ "\n" }

end Workspace

end RobotMachine
