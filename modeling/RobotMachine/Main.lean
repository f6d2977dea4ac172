import RobotMachine.Console.Compile
import RobotMachine.Console.Run

/-!
# The command line

The commands on the real file system. The first argument is the name of the command, and stays the
first argument of it.
-/

namespace RobotMachine

/-- The number of an operating system error without the sign that some libraries give it. -/
def systemErrorNumber (code : UInt32) : UInt32 :=
  if code < 0x80000000 then code else 0 - code

/-- The refusals of the operating system that commands have words for. -/
def FileError.ofIO (e : IO.Error) : FileError :=
  match e with
  | .noFileOrDirectory .. => .notFound
  | .inappropriateType _ code _ =>
    if systemErrorNumber code = 21 then .isDirectory else .notDirectory
  | .invalidArgument _ code _ =>
    if systemErrorNumber code = 36 then .nameTooLong else .other (toString e)
  | _ => .other (toString e)

instance : Shell IO where
  readFile path := return match ← (IO.FS.readBinFile path).toBaseIO with
    | .ok bytes => .ok bytes.toList
    | .error e => .error (.ofIO e)
  writeFile path bytes := return match ← (IO.FS.writeBinFile path bytes.toByteArray).toBaseIO with
    | .ok () => .ok ()
    | .error e => .error (.ofIO e)
  pathExists path := return match ← (IO.FS.Handle.mk path .read).toBaseIO with
    | .ok _ => true
    | .error _ => false
  environment name := IO.getEnv name
  print text := IO.print text
  printError text := IO.eprint text
  logLine level message := IO.eprintln ("[" ++ level.name ++ "] " ++ message)

end RobotMachine

open RobotMachine in
/-- Runs a command with its arguments. -/
def main (arguments : List String) : IO UInt32 := do
  match arguments.head? with
  | some "assembler" => return (← Compile.main arguments).toUInt32
  | some "asmbot" => return (← Run.main arguments).toUInt32
  | _ =>
    IO.eprintln "The first argument names the command: assembler or asmbot"
    return 1
