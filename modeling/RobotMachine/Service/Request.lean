import RobotMachine.Assembly.Assemble
import RobotMachine.Execution.Emulator

/-!
# Requests to an emulator

A service owns an emulator and answers requests one after the other. A sender may cancel what it has
sent. A request notices that only before it starts and at its pauses: a run pauses after every
1024th step, and loading a source pauses once, between assembling and loading it.

* `Request.serve`: the answer to a request and the emulator it leaves.
-/

namespace RobotMachine

inductive Request
  | reset
  | loadSource (source : String)
  | loadProgram (program : Program)
  | step
  | stepBack
  | replayToStart
  | run (budget : Nat)
  | snapshot
  | registers
  | readMemory (address : UInt32) (length : Nat)
  | writeMemory (address : UInt32) (bytes : List UInt8)
  deriving DecidableEq

/-- What a request is answered with when nothing goes wrong. -/
inductive Answer
  | report (r : StepReport)
  | replayed (undone : Nat) (r : StepReport)
  | summary (s : RunSummary)
  | snapshot (s : Snapshot)
  | registers (file : RegisterFile)
  | bytes (bytes : List UInt8)
  | done
  deriving DecidableEq

inductive ServiceError
  | assembly (error : AssemblyError)
  | machine (error : MachineError)
  | cancelled
  deriving DecidableEq

/-- The steps of a run from one pause to the next. -/
abbrev stepsPerPause : Nat := 1024

/-- When a request is cancelled: at its `n`-th pause, where pause 0 is before it starts. -/
inductive Cancellation
  | never
  | atPause (n : Nat)
  deriving DecidableEq, Repr

/-- Whether a cancellation has arrived once some pauses are over. -/
def Cancellation.isDue (c : Cancellation) (pauses : Nat) : Bool :=
  match c with
  | never => false
  | atPause n => n ≤ pauses

/-- An operation answered by a service, and the emulator that it leaves. -/
abbrev Served (α : Type) := Except ServiceError α × Emulator

/-- The same with another answer. -/
def Served.map {α β : Type} (f : α → β) (served : Served α) : Served β :=
  (Except.map f served.1, served.2)

/-- The answer to an operation of the emulator. -/
def Served.ofAttempt {α β : Type} (f : α → β) (attempt : Except MachineError α × Emulator) :
    Served β :=
  ((attempt.1.map f).mapError .machine, attempt.2)

namespace Emulator

/-- Resets the emulator and loads a program after some pauses. If that fails or is cancelled, the
emulator stays reset. -/
def serveLoad (e : Emulator) (c : Cancellation) (pauses : Nat) (p : Program) :
    Served StepReport :=
  if c.isDue pauses then (.error .cancelled, e.reset)
  else
    match e.reset.loadProgram p with
    | .ok loaded => (.ok (loaded.report []), loaded)
    | .error err => (.error (.machine err), e.reset)

/-- Resets the emulator, assembles a source and loads the program. -/
def serveLoadSource (e : Emulator) (c : Cancellation) (source : String) : Served StepReport :=
  if c.isDue 0 then (.error .cancelled, e.reset)
  else
    match assemble source with
    | .ok p => e.serveLoad c 1 p
    | .error err => (.error (.assembly err), e.reset)

/-- Steps until the machine halts, an instruction faults, the budget is spent or a cancellation
arrives. `made` counts the steps already made. -/
def serveSteps (c : Cancellation) : (budget made : Nat) → Emulator → Served RunSummary
  | 0, _, e => (.ok ⟨0, e.state == .halted, []⟩, e)
  | budget + 1, made, e =>
    if e.state = .halted then (.ok ⟨0, true, []⟩, e)
    else if c.isDue (made / stepsPerPause) then (.error .cancelled, e)
    else
      match e.tick with
      | (.error err, e) => (.error (.machine err), e)
      | (.ok stores, e) =>
        let (rest, e) := serveSteps c budget (made + 1) e
        (rest.map (·.after stores), e)

/-- Runs a ready or running emulator, unless the run is cancelled before it starts. -/
def serveRun (e : Emulator) (c : Cancellation) (budget : Nat) : Served RunSummary :=
  if c.isDue 0 then (.error .cancelled, e)
  else if e.state.canStep then serveSteps c budget 0 e
  else (.error (.machine (.notReady e.state)), e)

/-- Writes into memory, with nothing to tell about it. -/
def attemptWrite (e : Emulator) (address : UInt32) (bytes : List UInt8) :
    Except MachineError Unit × Emulator :=
  match e.writeMemory address bytes with
  | .ok written => (.ok (), written)
  | .error err => (.error err, e)

end Emulator

/-- An operation that a cancellation before its start leaves undone. -/
def Served.unlessCancelled {α : Type} (c : Cancellation) (e : Emulator) (served : Served α) :
    Served α :=
  if c.isDue 0 then (.error .cancelled, e) else served

/-- The answer to a request under a cancellation, and the emulator it leaves. Requests that only
look at the emulator are answered whether they are cancelled or not. -/
def Request.serve (c : Cancellation) (e : Emulator) : Request → Served Answer
  | reset => .unlessCancelled c e (.ok (.report (e.reset.report [])), e.reset)
  | loadSource source => Served.map .report (e.serveLoadSource c source)
  | loadProgram p => Served.map .report (e.serveLoad c 0 p)
  | step => .unlessCancelled c e (.ofAttempt .report e.step)
  | stepBack => .unlessCancelled c e (.ofAttempt .report e.stepBack)
  | replayToStart =>
    .unlessCancelled c e (.ofAttempt (fun (n, r) => .replayed n r) e.replayToStart)
  | run budget => Served.map .summary (e.serveRun c budget)
  | snapshot => (.ok (.snapshot e.snapshot), e)
  | registers => (.ok (.registers e.machine.registers), e)
  | readMemory address length => .ofAttempt .bytes (e.readMemory address length, e)
  | writeMemory address bytes =>
    .unlessCancelled c e (.ofAttempt (fun () => .done) (e.attemptWrite address bytes))

end RobotMachine
