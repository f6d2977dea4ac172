import RobotMachine.Assembly.Diagnostic
import RobotMachine.Console.Path
import RobotMachine.Console.Shell
import RobotMachine.Console.Trace
import RobotMachine.Program.Image
import RobotMachine.Service.Request
import RobotMachine.Text.Numeral

/-!
# The run command

Loads a program, runs it, prints the commands that it gave the robot, takes steps back if asked to,
and prints the registers.
-/

namespace RobotMachine.Run

structure Options where
  budget : Option Nat := none
  trace : Bool := false
  back : Nat := 0
  deriving DecidableEq, Repr

inductive OptionError
  | missingArgument (flag : String)
  | invalidNumber (flag value : String)
  | unexpected (argument : String)
  deriving DecidableEq, Repr

/-- The number below 2^64 that a text denotes: decimal digits, with a plus in front of them or
not. -/
def number? (text : String) : Option Nat :=
  let digits := match text.toList with
    | '+' :: digits => digits
    | digits => digits
  (readNumeral 10 0x10000000000000000 digits).toOption

def Options.parse (o : Options) : List String → Except OptionError Options
  | [] => .ok o
  | "--trace" :: arguments => parse { o with trace := true } arguments
  | ["--max-steps"] => .error (.missingArgument "--max-steps")
  | "--max-steps" :: value :: arguments =>
    match number? value with
    | some n => parse { o with budget := n } arguments
    | none => .error (.invalidNumber "--max-steps" value)
  | ["--back"] => .error (.missingArgument "--back")
  | "--back" :: value :: arguments =>
    match number? value with
    | some n => parse { o with back := n } arguments
    | none => .error (.invalidNumber "--back" value)
  | argument :: _ => .error (.unexpected argument)

def defaultBudget : Nat := 100000

def usage (program : String) : String :=
  "\n".intercalate [
    "Robot Assembly Runner",
    "",
    "USAGE:",
    "    " ++ program ++ " <program> [OPTIONS]",
    "",
    "ARGS:",
    "    <program>    Assembly source, or a .bin image built by `assembler`",
    "",
    "OPTIONS:",
    "    --max-steps <n>    Step budget (defaults to 100000)",
    "    --trace            Print each instruction as it executes",
    "    --back <n>         Step back n instructions after the run",
    "    -h, --help         Print this help message",
    "",
    "ENVIRONMENT:",
    "    ASMBOT_MAX_STEPS    Step budget when --max-steps is not given",
    "    ASMBOT_LOG          Minimum log level (debug, info, warn, error)",
    "",
    "EXAMPLES:",
    "    # Run a program until it halts",
    "    " ++ program ++ " square.asm",
    "",
    "    # Watch every step, then rewind the last three",
    "    " ++ program ++ " square.asm --trace --back 3",
    "",
    "    # Run an assembled image with a small budget",
    "    " ++ program ++ " square.bin --max-steps 500",
    ""]

/-- A report as one line of the way back. -/
def describe (r : StepReport) : String :=
  match r.line with
  | some line => "pc=" ++ wordHex r.pc ++ " line " ++ toString line
  | none => "pc=" ++ wordHex r.pc

variable {m : Type → Type} [Monad m] [Shell m]

/-! ## Loading -/

/-- Says what a service that has just loaded a program says. -/
def noteLoaded (minimum : Level) (p : Program) : m Unit := do
  Shell.log minimum .debug ("loaded " ++ toString p.code.length ++ " code words")
  Shell.log minimum .info ("loaded program: " ++ toString p.code.length ++ " instructions, " ++
    toString p.data.length ++ " data bytes")

/-- The program of an image file, or of a source file; none, with the reason said, if there is
none. -/
def readProgram (minimum : Level) (path : String) : m (Option Program) := do
  if Path.extension? path = some "bin" then
    match ← Shell.readFile path with
    | .error e =>
      Shell.log minimum .error ("Failed to read " ++ path ++ ": " ++ e.message)
      return none
    | .ok bytes =>
      match Program.ofImage bytes with
      | .ok p =>
        Shell.log minimum .debug "emulator worker started"
        return some p
      | .error e =>
        Shell.log minimum .error (path ++ ": " ++ e.message)
        return none
  else
    match ← Shell.readText path with
    | .error reason =>
      Shell.log minimum .error ("Failed to read " ++ path ++ ": " ++ reason)
      return none
    | .ok source =>
      Shell.log minimum .debug "emulator worker started"
      match assemble source with
      | .ok p => return some p
      | .error e =>
        Shell.printErrorLine (e.render path source)
        Shell.log minimum .error "Assembly failed"
        return none

/-- The emulator with the program of a file loaded; none, with the reason said, if there is none. -/
def load (minimum : Level) (path : String) : m (Option Emulator) := do
  match ← readProgram minimum path with
  | none => return none
  | some p =>
    match Emulator.serveLoad {} .never 0 p with
    | (.ok _, e) =>
      noteLoaded minimum p
      Shell.log minimum .info ("Loaded " ++ path)
      return some e
    | (.error (.machine err), _) =>
      Shell.log minimum .error ("Failed to load " ++ path ++ ": " ++ err.message)
      return none
    | (.error _, _) => return none

/-! ## Running -/

/-- Says how a run went. -/
def reportRun (minimum : Level) (budget : Nat) (s : RunSummary) : m Unit := do
  let commands := s.commands.map Command.name
  Shell.printLine ("commands: " ++ if commands = [] then "(none)" else " ".intercalate commands)
  if s.halted then
    Shell.log minimum .info ("Halted after " ++ toString s.steps ++ " steps")
  else
    Shell.log minimum .warn
      ("Step budget of " ++ toString budget ++ " exhausted without halting")

/-- Says why a run failed. -/
def reportFailure (minimum : Level) (err : MachineError) : m Unit := do
  if err.isFault then Shell.log minimum .debug ("engine faulted: " ++ err.message)
  Shell.log minimum .error err.message

/-- Steps back up to `count` times, beginning with the `n`-th time, and says where that leads. -/
def stepBack (minimum : Level) (n : Nat) : (count : Nat) → Emulator → m Emulator
  | 0, e => return e
  | count + 1, e =>
    match e.stepBack with
    | (.ok r, e) => do
      Shell.printLine ("back " ++ padLeft 3 ' ' (toString n) ++ ": " ++ describe r)
      stepBack minimum (n + 1) count e
    | (.error err, e) => do
      Shell.log minimum .warn ("Cannot step back: " ++ err.message)
      return e

/-- Runs a loaded emulator, with a trace or without. -/
def perform (trace : Bool) (budget : Nat) (e : Emulator) :
    m (Except MachineError RunSummary × Emulator) := do
  if trace then
    let (steps, outcome, e) := e.trace budget
    steps.forM fun t => Shell.print t.text
    return (outcome, e)
  else
    return e.run budget

/-- Runs the program of a file and gives the exit code. -/
def run (minimum : Level) (path : String) (budget : Nat) (o : Options) : m UInt8 := do
  match ← load minimum path with
  | none => return 1
  | some e =>
    let (outcome, e) ← perform o.trace budget e
    match outcome with
    | .ok s => reportRun minimum budget s
    | .error err => reportFailure minimum err
    let e ← stepBack minimum 1 o.back e
    Shell.printLine e.machine.registers.text
    return match outcome with
      | .ok _ => 0
      | .error _ => 1

/-! ## The command -/

/-- The minimum level of log lines, from the environment. -/
def minimumLevel : m Level := do
  match ← Shell.environment "ASMBOT_LOG" with
  | none => return .info
  | some name =>
    match Level.ofName? name with
    | some level => return level
    | none =>
      Shell.log .info .warn ("ASMBOT_LOG: " ++ Level.unknownMessage name)
      return .info

/-- The step budget, from the options, from the environment or by default; none, with the reason
said, if the environment holds no number. -/
def stepBudget (minimum : Level) (o : Options) : m (Option Nat) := do
  match o.budget with
  | some n => return some n
  | none =>
    match ← Shell.environment "ASMBOT_MAX_STEPS" with
    | none => return some defaultBudget
    | some value =>
      match number? value with
      | some n => return some n
      | none =>
        Shell.log minimum .error ("ASMBOT_MAX_STEPS is not a number: " ++ value)
        return none

/-- Runs the command with its arguments, the first of which is its own name. -/
def main (arguments : List String) : m UInt8 := do
  let program := arguments.headD ""
  match arguments.tail with
  | [] =>
    Shell.printErrorLine (usage program)
    return 1
  | path :: rest =>
    if path = "--help" ∨ path = "-h" then
      Shell.printErrorLine (usage program)
      return 0
    let minimum ← minimumLevel
    match Options.parse {} rest with
    | .error (.missingArgument flag) =>
      Shell.printErrorLine (flag ++ " requires an argument")
      return 1
    | .error (.invalidNumber flag value) =>
      Shell.printErrorLine (flag ++ ": invalid number '" ++ value ++ "'")
      return 1
    | .error (.unexpected argument) =>
      Shell.printErrorLine ("Unexpected argument: " ++ argument ++ "\n")
      Shell.printErrorLine (usage program)
      return 1
    | .ok o =>
      match ← stepBudget minimum o with
      | none => return 1
      | some budget => run minimum path budget o

end RobotMachine.Run
