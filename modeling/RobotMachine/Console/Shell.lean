import RobotMachine.Log.Level

/-!
# What a command sees of the world

A command reads and writes files, looks at environment variables, and prints. It is written against
`Shell`, so that it runs on the real file system and on a `Workspace` alike.
-/

namespace RobotMachine

/-- Why the operating system refuses a file. -/
inductive FileError
  | notFound
  | notDirectory
  | isDirectory
  | nameTooLong
  | other (description : String)
  deriving DecidableEq, Repr

def FileError.message : FileError → String
  | notFound => "No such file or directory (os error 2)"
  | notDirectory => "Not a directory (os error 20)"
  | isDirectory => "Is a directory (os error 21)"
  | nameTooLong => "File name too long (os error 36)"
  | other description => description

class Shell (m : Type → Type) where
  readFile : String → m (Except FileError (List UInt8))
  writeFile : String → List UInt8 → m (Except FileError Unit)
  pathExists : String → m Bool
  environment : String → m (Option String)
  print : String → m Unit
  printError : String → m Unit
  /-- Writes a log line, whatever its level. -/
  logLine : Level → String → m Unit

namespace Shell

variable {m : Type → Type} [Monad m] [Shell m]

def printLine (line : String) : m Unit :=
  print (line ++ "\n")

def printErrorLine (line : String) : m Unit :=
  printError (line ++ "\n")

/-- Writes a log line if its level is enabled. -/
def log (minimum level : Level) (message : String) : m Unit :=
  if level.isEnabled minimum then logLine level message else pure ()

/-- The text of a file, or why it cannot be read. -/
def readText (path : String) : m (Except String String) := do
  match ← readFile path with
  | .error e => return .error e.message
  | .ok bytes =>
    match String.fromUTF8? bytes.toByteArray with
    | some text => return .ok text
    | none => return .error "stream did not contain valid UTF-8"

end Shell

end RobotMachine
