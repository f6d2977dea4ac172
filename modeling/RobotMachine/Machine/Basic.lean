import RobotMachine.Machine.Memory
import RobotMachine.Machine.Register

/-!
# The machine and its lifecycle

`Machine` is what instructions act on: the registers and the memory. `Lifecycle` says how far the
emulator has come with it.
-/

namespace RobotMachine

/-- Registers and memory. -/
structure Machine where
  registers : RegisterFile := {}
  memory : Memory := {}
  deriving DecidableEq

/-- The state of an emulator: ready once it is reset, running after a step, halted after the step
that halts, and faulted, until the next reset, after an instruction that could not be executed. -/
inductive Lifecycle
  | uninitialized
  | ready
  | running
  | halted
  | faulted
  deriving DecidableEq, Repr

namespace Lifecycle

def name : Lifecycle → String
  | uninitialized => "uninitialized"
  | ready => "ready"
  | running => "running"
  | halted => "halted"
  | faulted => "faulted"

/-- Whether a step is allowed. -/
def canStep : Lifecycle → Bool
  | ready | running => true
  | uninitialized | halted | faulted => false

/-- Whether steps may be taken back. -/
def canRewind : Lifecycle → Bool
  | ready | running | halted => true
  | uninitialized | faulted => false

end Lifecycle

end RobotMachine
