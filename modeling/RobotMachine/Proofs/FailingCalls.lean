import RobotMachine.Proofs.GuardedCode
import RobotMachine.Proofs.TimeTravel

/-!
# Calls that fail

An emulator changes in place: a step writes its stores one by one before it sets registers, and
loading a program loads its code before its data. A write that failed half way would leave the
changes before it. Here the calls are followed in this order, with what each exit leaves, and it
turns out that no exit is ever taken once a change has been made.

* `Emulator.tickInPlace_eq`, `Emulator.loadProgramInPlace_eq`: nothing fails half way.
* `Emulator.Reachable.failed_call_keeps`: a call that fails keeps the emulator, but for the state
  that a faulting step sets.
-/

namespace RobotMachine.Emulator

/-! ## Changes in place -/

/-- Carries out effects: the stores in order, and if none of them fails the registers, the flags,
the program counter, the record and the state. -/
def carryOut (e : Emulator) (effects : Effects) (record : StepRecord) :
    Except MachineError (List Store) × Emulator :=
  match Memory.restore effects.stores e.machine.memory with
  | (.error fault, memory) =>
    (.error (.memory fault), { e with machine := { e.machine with memory } })
  | (.ok (), memory) =>
    let registers := e.machine.registers.setAll effects.registers
    (.ok effects.stores, { e with
      machine := { memory, registers := { registers with
        flags := effects.flags.getD registers.flags, pc := effects.pc } }
      history := record :: e.history
      state := if effects.halted then .halted else .running })

/-- A step in place. Only an error that is a fault changes the state, and an error of a store
does not. -/
def tickInPlace (e : Emulator) : Except MachineError (List Store) × Emulator :=
  if e.state.canStep then
    match e.nextEffects with
    | .ok (effects, record) => e.carryOut effects record
    | .error err => (.error err, e.faultedIf err.isFault)
  else
    (.error (.notReady e.state), e)

/-- Loading a program in place: if the data cannot be written, the code is already there. -/
def loadProgramInPlace (e : Emulator) (p : Program) : Except MachineError Unit × Emulator :=
  if e.state ≠ .ready then (.error (.notReady e.state), e)
  else if p.data.length > regionSize then (.error (.dataTooLarge p.data.length), e)
  else
    match e.loadCode p.code with
    | .error err => (.error err, e)
    | .ok loaded =>
      match loaded.machine.memory.write dataBase p.data with
      | .error fault => (.error (.memory fault), loaded)
      | .ok memory =>
        (.ok (), { loaded with machine := { loaded.machine with memory }, lines := p.lines })

/-- A call in place. -/
def callInPlace (e : Emulator) : Call → Except MachineError Unit × Emulator
  | .loadProgram p => e.loadProgramInPlace p
  | .move .step => (e.tickInPlace.1.map fun _ => (), e.tickInPlace.2)
  | c => e.call c

/-! ## Nothing fails half way -/

theorem carryOut_eq (e : Emulator) {effects : Effects} (record : StepRecord)
    (writable : ∀ s ∈ effects.stores, s.IsWritable) :
    e.carryOut effects record = (.ok effects.stores, e.advance effects record) := by
  rw [carryOut, e.machine.memory.restore_of_isWritable writable]
  rfl

/-- The stores of a step were checked before the first of them is written. -/
theorem tickInPlace_eq (e : Emulator) : e.tickInPlace = e.tick := by
  unfold tickInPlace
  rcases e.tick_cases with ⟨cannot, ticked⟩ | ⟨err, can, next, ticked⟩ |
    ⟨effects, record, can, next, ticked⟩
  · rw [ticked, cannot]
    rfl
  · have isSet : e.faultedIf err.isFault = { e with state := .faulted } := by
      rw [isFault_of_nextEffects next]
      rfl
    rw [ticked, can, next, ← isSet]
    rfl
  · rw [ticked, can, next]
    exact e.carryOut_eq record (isWritable_of_nextEffects next).1

/-- The size of the data was checked before the code is loaded. -/
theorem loadProgramInPlace_eq (e : Emulator) (p : Program) :
    e.loadProgramInPlace p = e.orKeep (e.loadProgram p) := by
  unfold loadProgramInPlace loadProgram
  split
  · rfl
  · split
    · rfl
    · next fits =>
      rw [Nat.not_lt] at fits
      cases e.loadCode p.code with
      | error err => rfl
      | ok loaded =>
        have written := loaded.machine.memory.write_of_isWritable (Store.isWritable_dataBase fits)
        simp only [Except.ok_bind, written]
        rfl

theorem callInPlace_eq (e : Emulator) (c : Call) : e.callInPlace c = e.call c := by
  unfold callInPlace
  split
  · exact e.loadProgramInPlace_eq _
  · rw [tickInPlace_eq, call, move, step_eq]
    cases e.tick.1 <;> rfl
  · rfl

/-! ## Exits that are taken -/

variable {e e' : Emulator} {err : MachineError}

theorem eq_of_orKeep {outcome : Except MachineError Emulator}
    (failed : e.orKeep outcome = (.error err, e')) : e' = e := by
  cases outcome with
  | ok e'' => cases failed
  | error err' =>
    cases failed
    rfl

theorem eq_of_step (failed : e.move .step = (.error err, e')) :
    e' = e.faultedIf err.isFault := by
  rw [move, step_eq] at failed
  rcases e.tick_cases with ⟨-, ticked⟩ | ⟨err', -, next, ticked⟩ | ⟨effects, record, -, -, ticked⟩
  · rw [ticked] at failed
    cases failed
    rfl
  · rw [ticked] at failed
    cases failed
    rw [isFault_of_nextEffects next]
    rfl
  · rw [ticked] at failed
    cases failed

/-- **A call that fails keeps the emulator.** Whatever a call in place had changed before it
failed, in a reachable emulator nothing has changed: registers, memory, history, loaded code and
line map are as they were, and so is the state, unless the call is a step whose error is a
fault. -/
theorem Reachable.failed_call_keeps (reachable : e.Reachable) {c : Call}
    (single : ∀ budget, c ≠ .move (.run budget)) :
    e.callInPlace c = e.call c ∧
      ∀ err e', e.callInPlace c = (.error err, e') →
        e' = if c = .move .step ∧ err.isFault = true then { e with state := .faulted } else e := by
  refine ⟨e.callInPlace_eq c, fun err e' failed => ?_⟩
  rw [e.callInPlace_eq] at failed
  cases c with
  | reset => cases failed
  | loadCode code | loadProgram p | writeMemory address bytes =>
    rw [if_neg (by nofun)]
    exact eq_of_orKeep failed
  | move m =>
    cases m with
    | step =>
      have left := eq_of_step failed
      simp only [true_and]
      exact left
    | stepBack =>
      obtain ⟨error, left⟩ := Prod.mk.inj failed
      rw [if_neg (by nofun), ← left]
      exact (stepBack_eq_error reachable.undoable (Except.map_eq_error_iff.mp error)).2
    | run budget => exact absurd rfl (single budget)
    | replayToStart =>
      obtain ⟨error, left⟩ := Prod.mk.inj failed
      rw [if_neg (by nofun), ← left]
      exact (replayToStart_eq_error reachable.undoable (Except.map_eq_error_iff.mp error)).2

/-- A ready emulator whose only instruction stores into the code. -/
def storingIntoCode : Emulator :=
  ((call {} .reset).2.call (.loadCode [0x43010000])).2

theorem failed_call_keeps_storingIntoCode :
    storingIntoCode.Reachable ∧
      storingIntoCode.callInPlace (.move .step) =
        (.error (.memory ⟨.write, codeBase, wordSize⟩),
          { storingIntoCode with state := .faulted }) ∧
      storingIntoCode.callInPlace (.writeMemory 0 [1, 2]) =
        (.error (.memory ⟨.write, 0, 2⟩), storingIntoCode) := by
  have reachable : storingIntoCode.Reachable := .call _ (.call .reset .new)
  have stepFails : (storingIntoCode.callInPlace (.move .step)).1 =
      .error (.memory ⟨.write, codeBase, wordSize⟩) := by
    decide +kernel
  have writeFails : (storingIntoCode.callInPlace (.writeMemory 0 [1, 2])).1 =
      .error (.memory ⟨.write, 0, 2⟩) := by
    decide +kernel
  obtain ⟨-, stepKeeps⟩ := Reachable.failed_call_keeps reachable (c := .move .step) (by nofun)
  obtain ⟨-, writeKeeps⟩ :=
    Reachable.failed_call_keeps reachable (c := .writeMemory 0 [1, 2]) (by nofun)
  refine ⟨reachable, Prod.ext stepFails ?_, Prod.ext writeFails ?_⟩
  · exact stepKeeps _ _ (Prod.ext stepFails rfl)
  · exact writeKeeps _ _ (Prod.ext writeFails rfl)

end RobotMachine.Emulator
