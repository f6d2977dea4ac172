import RobotMachine.Assembly.Assemble
import RobotMachine.Assembly.Diagnostic
import RobotMachine.Console.Path
import RobotMachine.Console.Shell
import RobotMachine.Program.Image
import RobotMachine.Program.Listing

/-!
# The compiler command

Assembles a source file and writes the image of the program, by default beside the source.
-/

namespace RobotMachine.Compile

structure Options where
  output : Option String := none
  listing : Bool := false
  deriving DecidableEq, Repr

inductive OptionError
  | missingArgument (flag : String)
  | unexpected (argument : String)
  deriving DecidableEq, Repr

def Options.parse (o : Options) : List String → Except OptionError Options
  | [] => .ok o
  | argument :: arguments =>
    if argument = "--output" ∨ argument = "-o" then
      match arguments with
      | [] => .error (.missingArgument argument)
      | path :: arguments => parse { o with output := path } arguments
    else if argument = "--listing" ∨ argument = "-l" then parse { o with listing := true } arguments
    else .error (.unexpected argument)

def usage (program : String) : String :=
  "\n".intercalate [
    "Robot Assembly Compiler",
    "",
    "USAGE:",
    "    " ++ program ++ " <input.asm> [OPTIONS]",
    "",
    "ARGS:",
    "    <input.asm>    Assembly source file to compile",
    "",
    "OPTIONS:",
    "    -o, --output <file>    Output file path (defaults to <input>.bin)",
    "    -l, --listing          Print the disassembly listing",
    "    -h, --help             Print this help message",
    "",
    "EXAMPLES:",
    "    # Compile to default output name",
    "    " ++ program ++ " square.asm",
    "",
    "    # Compile with explicit output",
    "    " ++ program ++ " square.asm -o square.bin",
    "",
    "    # Compile and show what each line became",
    "    " ++ program ++ " square.asm --listing",
    ""]

/-- The image beside a source: the same name with the extension `bin`. -/
def defaultOutput (input : String) : String :=
  Path.join ((Path.parent? input).getD ".") ((Path.stem? input).getD "" ++ ".bin")

variable {m : Type → Type} [Monad m] [Shell m]

def report (level : Level) (message : String) : m Unit :=
  Shell.log .info level message

/-- Compiles a source file and gives the exit code. -/
def compile (input : String) (o : Options) : m UInt8 := do
  let source ← match ← Shell.readText input with
    | .ok source => pure source
    | .error reason =>
      report .error ("Failed to read " ++ input ++ ": " ++ reason)
      return 1
  let output := o.output.getD (defaultOutput input)
  let directory := (Path.parent? output).getD ""
  if directory ≠ "" then
    if !(← Shell.pathExists directory) then
      report .error ("Output directory does not exist: " ++ directory)
      return 1
  match assemble source with
  | .error e =>
    Shell.printErrorLine (e.render input source)
    report .error "Assembly failed"
    return 1
  | .ok program =>
    if o.listing then Shell.print (program.listing source)
    let image := program.toImage
    match ← Shell.writeFile output image with
    | .error e =>
      report .error ("Failed to write output file: " ++ e.message)
      return 1
    | .ok () =>
      report .info ("Compiled " ++ input ++ " -> " ++ output ++ " (" ++
        toString program.code.length ++ " instructions, " ++ toString program.data.length ++
        " data bytes, " ++ toString image.length ++ " bytes)")
      return 0

/-- Runs the command with its arguments, the first of which is its own name. -/
def main (arguments : List String) : m UInt8 := do
  let program := arguments.headD ""
  match arguments.tail with
  | [] =>
    report .info (usage program)
    return 1
  | input :: rest =>
    if input = "--help" ∨ input = "-h" then
      report .info (usage program)
      return 0
    match Options.parse {} rest with
    | .ok o => compile input o
    | .error (.missingArgument flag) =>
      report .error (flag ++ " requires an argument")
      return 1
    | .error (.unexpected argument) =>
      report .error ("Unexpected argument: " ++ argument ++ "\n")
      report .info (usage program)
      return 1

end RobotMachine.Compile
