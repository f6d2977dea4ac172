import RobotMachine.Assembly.Error
import RobotMachine.Text.Blank
import RobotMachine.Text.Column
import RobotMachine.Text.Lines

/-!
# Diagnostics

An assembly error as it is shown: on one line, or with the source line that it is about and a caret
under the place.
-/

namespace RobotMachine

/-- An error as messages need it. -/
structure Diagnostic where
  kind : ErrorKind
  line : Nat
  column : Nat
  message : String
  deriving DecidableEq, Repr

def AssemblyError.diagnostic (e : AssemblyError) : Diagnostic :=
  ⟨e.cause.kind, e.line, e.column, e.cause.message⟩

namespace Diagnostic

/-- The error on one line. -/
def text (d : Diagnostic) : String :=
  toString d.line ++ ":" ++ toString d.column ++ ": " ++ d.kind.name ++ ": " ++ d.message

/-- The blanks in front of a caret that stands under a byte column of a line: one for each byte in
front of the column, with a tab where the line has one. -/
def underline (line : List Char) (column : Nat) : List Char :=
  let blanks := line.flatMap fun c => if c = '\t' then ['\t'] else List.replicate c.utf8Size ' '
  blanks.take (column - 1)

/-- The source line that an error is about, with the caret under it. -/
def excerpt (d : Diagnostic) (line : List Char) : String :=
  let line := dropEndWhile (· == '\r') line
  "     |\n" ++ padLeft 4 ' ' (toString d.line) ++ " | " ++ String.ofList line ++ "\n" ++
    "     | " ++ String.ofList (underline line d.column) ++ "^\n"

/-- The error in a file, with the source line if the source has it. -/
def render (d : Diagnostic) (file source : String) : String :=
  let head := "error: " ++ d.kind.name ++ ": " ++ d.message ++ "\n" ++ " --> " ++ file ++ ":" ++
    toString d.line ++ ":" ++ toString d.column ++ "\n"
  match (linesOf source.toList)[d.line - 1]? with
  | some line => head ++ d.excerpt line
  | none => head

end Diagnostic

/-- The rendering of an assembly error in a file. -/
def AssemblyError.render (e : AssemblyError) (file source : String) : String :=
  e.diagnostic.render file source

end RobotMachine
