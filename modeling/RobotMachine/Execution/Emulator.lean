import RobotMachine.Execution.Effects
import RobotMachine.Execution.History
import RobotMachine.Program.Basic

/-!
# The reversible emulator

A machine with a lifecycle state, the history of its steps, and the number and source lines of the
code words that are loaded. Each operation that can fail gives its answer together with the emulator
that it leaves.

* `Emulator.loadProgram`, `Emulator.writeMemory`: what is put into a ready machine.
* `Emulator.step`, `Emulator.run`: forwards.
* `Emulator.stepBack`, `Emulator.replayToStart`: backwards.
-/

namespace RobotMachine

/-- A copy of what an observer may see. -/
structure Snapshot where
  state : Lifecycle
  machine : Machine
  deriving DecidableEq

/-- The word in the mailbox. -/
def Snapshot.mailbox (s : Snapshot) : UInt32 :=
  UInt32.ofNat (LittleEndian.number (s.machine.memory.data.slice 0 wordSize (by decide)))

/-- What an operation reports: the machine, the program counter with its source line, and the
stores that the operation made. -/
structure StepReport where
  snapshot : Snapshot
  pc : UInt32
  line : Option Nat
  stores : List Store
  deriving DecidableEq

/-- The outcome of a run. -/
structure RunSummary where
  steps : Nat
  halted : Bool
  stores : List Store
  deriving DecidableEq

def RunSummary.commands (s : RunSummary) : List Command :=
  commandsOf s.stores

/-- The summary of a run with one more step before it. -/
def RunSummary.after (stores : List Store) (s : RunSummary) : RunSummary :=
  { s with steps := s.steps + 1, stores := stores ++ s.stores }

/-- The emulator, at first without a machine state of its own. -/
structure Emulator where
  machine : Machine := {}
  state : Lifecycle := .uninitialized
  history : History := []
  codeLength : Nat := 0
  lines : List UInt32 := []
  deriving DecidableEq

/-- The machine with code words at the start of the code region, zeros after them, and the program
counter and the stack pointer where a program starts. -/
def Machine.loadCode (m : Machine) (code : List UInt32) : Machine :=
  let cleared := { m.memory with code := Vector.replicate regionSize 0 }
  { memory := cleared.patch codeBase (code.flatMap wordBytes)
    registers := { m.registers.set .sp stackTop with pc := codeBase } }

namespace Emulator

/-- A ready emulator with nothing loaded and every register and byte zero. -/
def initial : Emulator := { state := .ready }

/-- Forgets everything and becomes ready. -/
def reset (_ : Emulator) : Emulator := initial

def snapshot (e : Emulator) : Snapshot := ⟨e.state, e.machine⟩

/-- The source line of the instruction at the program counter. -/
def currentLine (e : Emulator) : Option Nat :=
  lineAt e.lines e.machine.pc

/-- The report of an operation that made some stores and left this emulator. -/
def report (e : Emulator) (stores : List Store) : StepReport :=
  { snapshot := e.snapshot, pc := e.machine.pc, line := e.currentLine, stores }

def canStepForward (e : Emulator) : Bool :=
  e.state.canStep && e.codeLength != 0

def canStepBack (e : Emulator) : Bool :=
  e.state.canRewind && !e.history.isEmpty

/-! ## Loading -/

/-- Loads code words into a ready emulator. The history and the line map are dropped. -/
def loadCode (e : Emulator) (code : List UInt32) : Except MachineError Emulator :=
  if e.state ≠ .ready then .error (.notReady e.state)
  else if code.length > regionWords then .error (.programTooLarge code.length)
  else .ok { machine := e.machine.loadCode code, state := e.state, codeLength := code.length }

/-- Loads a program into a ready emulator: its code, its data at the start of the data region, and
its line map. -/
def loadProgram (e : Emulator) (p : Program) : Except MachineError Emulator :=
  if e.state ≠ .ready then .error (.notReady e.state)
  else if p.data.length > regionSize then .error (.dataTooLarge p.data.length)
  else do
    let e ← e.loadCode p.code
    let memory ← (e.machine.memory.write dataBase p.data).mapError .memory
    return { e with machine := { e.machine with memory }, lines := p.lines }

/-- Writes bytes into a ready emulator, the code included. This is not a step. -/
def writeMemory (e : Emulator) (address : UInt32) (bytes : List UInt8) :
    Except MachineError Emulator :=
  if e.state ≠ .ready then .error (.notReady e.state)
  else do
    let memory ← (e.machine.memory.write address bytes).mapError .memory
    return { e with machine := { e.machine with memory } }

def readMemory (e : Emulator) (address : UInt32) (length : Nat) :
    Except MachineError (List UInt8) :=
  (e.machine.memory.read address length).mapError .memory

/-! ## Forwards -/

/-- The instruction at the program counter. It must be one of the loaded words. -/
def fetch (e : Emulator) : Except MachineError Instruction :=
  let pc := e.machine.pc
  if pc < codeBase ∨ e.codeLength * wordSize ≤ pc.toNat - codeBase.toNat then
    .error (.fetch pc .outsideProgram)
  else if (pc.toNat - codeBase.toNat) % wordSize ≠ 0 then .error (.fetch pc .misaligned)
  else do
    let word ← (e.machine.memory.readWord pc).mapError .memory
    (Instruction.decode word).mapError fun fault => .fetch pc (.undecodable fault)

/-- The effects of the next instruction and the record that undoes them. -/
def nextEffects (e : Emulator) : Except MachineError (Effects × StepRecord) := do
  let instruction ← e.fetch
  let effects ← (e.machine.execute instruction).mapError .memory
  let record ← (StepRecord.capture e.state e.machine (effects.registers.map (·.1))
    (effects.stores.map fun s => (s.address, s.bytes.length))).mapError .memory
  return (effects, record)

/-- The emulator after a step with given effects. -/
def advance (e : Emulator) (effects : Effects) (record : StepRecord) : Emulator :=
  { e with
    machine := e.machine.apply effects
    history := record :: e.history
    state := if effects.halted then .halted else .running }

/-- Executes one instruction and gives its stores. A fault leaves everything but the state as it
was. -/
def tick (e : Emulator) : Except MachineError (List Store) × Emulator :=
  if e.state.canStep then
    match e.nextEffects with
    | .ok (effects, record) => (.ok effects.stores, e.advance effects record)
    | .error err => (.error err, { e with state := .faulted })
  else
    (.error (.notReady e.state), e)

/-- Executes one instruction. -/
def step (e : Emulator) : Except MachineError StepReport × Emulator :=
  match e.tick with
  | (.ok stores, e) => (.ok (e.report stores), e)
  | (.error err, e) => (.error err, e)

/-- Steps until the machine halts, an instruction faults, or `budget` steps are made. -/
def runSteps : (budget : Nat) → Emulator → Except MachineError RunSummary × Emulator
  | 0, e => (.ok ⟨0, e.state == .halted, []⟩, e)
  | budget + 1, e =>
    if e.state = .halted then (.ok ⟨0, true, []⟩, e)
    else
      match e.tick with
      | (.error err, e) => (.error err, e)
      | (.ok stores, e) =>
        let (rest, e) := runSteps budget e
        (rest.map (·.after stores), e)

/-- Runs a ready or running emulator for at most `budget` steps. -/
def run (e : Emulator) (budget : Nat) : Except MachineError RunSummary × Emulator :=
  if e.state.canStep then e.runSteps budget else (.error (.notReady e.state), e)

/-! ## Backwards -/

/-- Undoes the newest step. -/
def stepBack (e : Emulator) : Except MachineError StepReport × Emulator :=
  if e.state.canRewind then
    match e.history.undo e.machine with
    | (.ok state, machine, history) =>
      let e := { e with machine, state, history }
      (.ok (e.report []), e)
    | (.error err, machine, history) => (.error err, { e with machine, history })
  else
    (.error (.notReady e.state), e)

/-- Undoes every step, back to where the program was loaded, and counts the undone steps. -/
def replayToStart (e : Emulator) : Except MachineError (Nat × StepReport) × Emulator :=
  if e.state.canRewind then
    let (undone, state, machine, history) := e.history.undoAll e.machine e.state
    let e := { e with state, machine, history }
    (undone.map fun count => (count, e.report []), e)
  else
    (.error (.notReady e.state), e)

end Emulator

end RobotMachine
