import RobotMachine.Execution.Fault
import RobotMachine.Machine.Mailbox

/-!
# Step records

Each step leaves a record of what it overwrites: the program counter, the flags, the registers it
writes and the bytes it stores over. Undoing the newest record puts all of it back.
-/

namespace RobotMachine

/-- What a step overwrites, as it was before the step. -/
structure StepRecord where
  /-- The state to resume in. -/
  prior : Lifecycle
  pc : UInt32
  flags : Flags
  registers : List (Register × UInt32)
  memory : List Store
  deriving DecidableEq

/-- The bytes in each of some ranges; the first range outside the regions decides the fault. -/
def Memory.capture (m : Memory) : List (UInt32 × Nat) → Except MemoryFault (List Store)
  | [] => .ok []
  | (address, length) :: ranges => do
    let bytes ← m.read address length
    let stores ← m.capture ranges
    return ⟨address, bytes⟩ :: stores

/-- Writes captured bytes back in the given order. A write that fails stops this, and what was
written before it stays written. -/
def Memory.restore : List Store → Memory → Except MemoryFault Unit × Memory
  | [], m => (.ok (), m)
  | s :: stores, m =>
    match m.write s.address s.bytes with
    | .ok m => Memory.restore stores m
    | .error fault => (.error fault, m)

namespace StepRecord

/-- The record of a step that writes some registers and some ranges of bytes. -/
def capture (prior : Lifecycle) (m : Machine) (registers : List Register)
    (ranges : List (UInt32 × Nat)) : Except MemoryFault StepRecord :=
  (m.memory.capture ranges).map fun memory =>
    { prior, pc := m.registers.pc, flags := m.registers.flags,
      registers := registers.map fun r => (r, m.registers.get r), memory }

/-- Puts back what was captured, the last capture first. -/
def restore (record : StepRecord) (m : Machine) : Except MemoryFault Unit × Machine :=
  match Memory.restore record.memory.reverse m.memory with
  | (.error fault, memory) => (.error fault, { m with memory })
  | (.ok (), memory) =>
    let registers := record.registers.reverse.foldl (fun file (r, value) => file.set r value)
      m.registers
    (.ok (), { memory, registers := { registers with pc := record.pc, flags := record.flags } })

end StepRecord

/-- The records of the steps that can be undone, newest first. -/
abbrev History := List StepRecord

/-- Undoes the newest step and gives the state to resume in. If its record cannot be restored it
stays in the history, and the machine keeps what was restored. -/
def History.undo (m : Machine) : History → Except MachineError Lifecycle × Machine × History
  | [] => (.error .nothingToUndo, m, [])
  | record :: older =>
    match record.restore m with
    | (.ok (), m) => (.ok record.prior, m, older)
    | (.error fault, m) => (.error (.memory fault), m, record :: older)

/-- Undoes every step, newest first, and counts them. Gives the state to resume in, which is the
given one if there is nothing to undo. -/
def History.undoAll : History → Machine → Lifecycle →
    Except MachineError Nat × Lifecycle × Machine × History
  | [], m, state => (.ok 0, state, m, [])
  | record :: older, m, state =>
    match record.restore m with
    | (.ok (), m) =>
      let (undone, rest) := History.undoAll older m record.prior
      (undone.map (· + 1), rest)
    | (.error fault, m) => (.error (.memory fault), state, m, record :: older)

end RobotMachine
