import RobotMachine.Execution.Emulator
import RobotMachine.Instruction.Disassembly

/-!
# Tracing a run

A traced run shows, before each step, the word at the program counter as an instruction, and after
it the commands that the step gave. The trace looks at memory by itself, without asking whether the
emulator would fetch the word.

* `Emulator.trace`: a run with its trace.
-/

namespace RobotMachine

/-- What stands at a program counter. -/
inductive Glimpse
  | instruction (i : Instruction)
  | undecodable (fault : WordFault)
  | unreadable
  deriving DecidableEq

def Glimpse.text : Glimpse → String
  | instruction i => i.text
  | undecodable fault => "?? (" ++ fault.message ++ ")"
  | unreadable => "??"

/-- One step of a trace. A step that faults gives no commands. -/
structure TraceStep where
  pc : UInt32
  glimpse : Glimpse
  commands : List Command
  deriving DecidableEq

def TraceStep.text (t : TraceStep) : String :=
  wordHex t.pc ++ "  " ++ t.glimpse.text ++ "\n" ++
    String.join (t.commands.map fun c => "            -> " ++ c.name ++ "\n")

namespace Emulator

/-- What stands at the program counter of an emulator. -/
def glimpse (e : Emulator) : Glimpse :=
  match e.machine.memory.readWord e.machine.pc with
  | .error _ => .unreadable
  | .ok w =>
    match Instruction.decode w with
    | .ok i => .instruction i
    | .error fault => .undecodable fault

/-- Steps until the machine halts, an instruction faults, or `budget` steps are made, and traces
every step. -/
def trace : (budget : Nat) → Emulator →
    List TraceStep × Except MachineError RunSummary × Emulator
  | 0, e => ([], .ok ⟨0, false, []⟩, e)
  | budget + 1, e =>
    let shown (commands : List Command) : TraceStep := ⟨e.machine.pc, e.glimpse, commands⟩
    match e.tick with
    | (.error err, left) => ([shown []], .error err, left)
    | (.ok stores, left) =>
      if left.state = .halted then ([shown (commandsOf stores)], .ok ⟨1, true, stores⟩, left)
      else
        let (steps, rest, last) := trace budget left
        (shown (commandsOf stores) :: steps, rest.map (·.after stores), last)

end Emulator

end RobotMachine
