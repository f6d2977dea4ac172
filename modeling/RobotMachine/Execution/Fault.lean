import RobotMachine.Instruction.Basic
import RobotMachine.Machine.Basic

/-!
# Why the emulator refuses an operation

A fault is an instruction that could not be fetched or executed; the other causes are operations
asked for at the wrong time or with too much to load, and they change nothing.
-/

namespace RobotMachine

/-- Why there is no instruction at the program counter. -/
inductive FetchFault
  | outsideProgram
  | misaligned
  | undecodable (fault : WordFault)
  deriving DecidableEq, Repr

def FetchFault.message : FetchFault → String
  | .outsideProgram => "outside the loaded program"
  | .misaligned => "misaligned program counter"
  | .undecodable fault => fault.message

inductive MachineError
  | fetch (pc : UInt32) (fault : FetchFault)
  | memory (fault : MemoryFault)
  | notReady (state : Lifecycle)
  | nothingToUndo
  | programTooLarge (words : Nat)
  | dataTooLarge (bytes : Nat)
  deriving DecidableEq, Repr

namespace MachineError

/-- Whether an error of a step leaves the emulator faulted. -/
def isFault : MachineError → Bool
  | fetch .. | memory .. => true
  | notReady .. | nothingToUndo | programTooLarge .. | dataTooLarge .. => false

def message : MachineError → String
  | fetch pc fault => "decode fault at " ++ wordHex pc ++ ": " ++ fault.message
  | memory fault => fault.message
  | notReady state => "operation not allowed while " ++ state.name
  | nothingToUndo => "nothing to undo"
  | programTooLarge words =>
    "program of " ++ toString words ++ " words exceeds the " ++ toString regionWords ++
      "-word code region"
  | dataTooLarge bytes =>
    "data image of " ++ toString bytes ++ " bytes exceeds the " ++ toString regionSize ++
      "-byte data region"

end MachineError

end RobotMachine
