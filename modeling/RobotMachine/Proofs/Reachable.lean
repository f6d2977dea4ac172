import RobotMachine.Proofs.Undo

/-!
# Reachable emulators

An emulator is reachable if calls lead to it from a new one, whatever they answered. All other
operations of an emulator only look at it.

* `Emulator.call`: what a call answers and leaves.
* `Emulator.Reachable`: closed under every call.
* `Emulator.Consistent`: how the lifecycle state, the history and the loaded code fit together.
* `Emulator.Reachable.consistent`: they do so in every reachable emulator.
-/

namespace RobotMachine

/-- A call that moves an emulator along the run of its program. -/
inductive Move
  | step
  | stepBack
  | run (budget : Nat)
  | replayToStart
  deriving DecidableEq

/-- A call that may change an emulator. A new emulator is initialized by a reset. -/
inductive Call
  | reset
  | loadCode (code : List UInt32)
  | loadProgram (p : Program)
  | writeMemory (address : UInt32) (bytes : List UInt8)
  | move (m : Move)
  deriving DecidableEq

namespace Emulator

/-- The outcome of an operation that gives a new emulator or else keeps the old one. -/
def orKeep (e : Emulator) : Except MachineError Emulator → Except MachineError Unit × Emulator
  | .ok e' => (.ok (), e')
  | .error err => (.error err, e)

/-- Whether a move succeeds, and the emulator that it leaves. -/
def move (e : Emulator) : Move → Except MachineError Unit × Emulator
  | .step => (e.step.1.map fun _ => (), e.step.2)
  | .stepBack => (e.stepBack.1.map fun _ => (), e.stepBack.2)
  | .run budget => ((e.run budget).1.map fun _ => (), (e.run budget).2)
  | .replayToStart => (e.replayToStart.1.map fun _ => (), e.replayToStart.2)

/-- Whether a call succeeds, and the emulator that it leaves. -/
def call (e : Emulator) : Call → Except MachineError Unit × Emulator
  | .reset => (.ok (), e.reset)
  | .loadCode code => e.orKeep (e.loadCode code)
  | .loadProgram p => e.orKeep (e.loadProgram p)
  | .writeMemory address bytes => e.orKeep (e.writeMemory address bytes)
  | .move m => e.move m

/-- The emulators that calls lead to from a new one. -/
inductive Reachable : Emulator → Prop
  | new : Reachable {}
  | call {e : Emulator} (c : Call) : Reachable e → Reachable (e.call c).2

end Emulator

/-! ## States and histories -/

theorem Lifecycle.canStep_iff {state : Lifecycle} :
    state.canStep = true ↔ state = .ready ∨ state = .running := by
  cases state with
  | ready => exact ⟨fun _ => .inl rfl, fun _ => rfl⟩
  | running => exact ⟨fun _ => .inr rfl, fun _ => rfl⟩
  | uninitialized | halted | faulted => exact ⟨nofun, nofun⟩

/-- The histories that an emulator may have in a state. -/
def Lifecycle.Admits (history : History) : Lifecycle → Prop
  | uninitialized | ready => history = []
  | running | halted => history ≠ []
  | faulted => True

/-- The oldest step was made from a ready emulator, and every other one from a running one. -/
def History.Chained : History → Prop
  | [] => True
  | record :: older =>
    record.prior = (if older = [] then .ready else .running) ∧ History.Chained older

theorem History.Chained.admits {record : StepRecord} {older : History}
    (h : History.Chained (record :: older)) : record.prior.Admits older := by
  obtain ⟨prior, -⟩ := h
  by_cases first : older = []
  · rw [prior, if_pos first]
    exact first
  · rw [prior, if_neg first]
    exact first

/-- Undoing leaves a history that fits the state to resume in, also when it stops half way. -/
theorem History.Chained.undoAll {history : History} (chained : history.Chained) (m : Machine)
    {state : Lifecycle} (admits : state.Admits history) :
    (history.undoAll m state).2.2.2.Chained ∧
      (history.undoAll m state).2.1.Admits (history.undoAll m state).2.2.2 := by
  induction history generalizing m state with
  | nil => exact ⟨trivial, admits⟩
  | cons record older ih =>
    unfold History.undoAll
    split
    · exact ih chained.2 _ chained.admits
    · exact ⟨chained, admits⟩

namespace Emulator

/-- The state fits the history, the records of the history follow on each other, and the loaded
code fits its region. -/
structure Consistent (e : Emulator) : Prop where
  admits : e.state.Admits e.history
  chained : e.history.Chained
  codeLength_le : e.codeLength ≤ regionWords

namespace Consistent

variable {e : Emulator}

theorem new : Consistent {} :=
  ⟨rfl, trivial, Nat.zero_le _⟩

theorem reset (e : Emulator) : e.reset.Consistent :=
  ⟨rfl, trivial, Nat.zero_le _⟩

theorem faulted (h : e.Consistent) : Consistent { e with state := .faulted } :=
  ⟨trivial, h.chained, h.codeLength_le⟩

theorem advance (h : e.Consistent) (canStep : e.state.canStep = true) (effects : Effects)
    {record : StepRecord} (prior : record.prior = e.state) :
    (e.advance effects record).Consistent := by
  refine ⟨?_, ⟨?_, h.chained⟩, h.codeLength_le⟩
  · simp only [Emulator.advance]
    split
    · exact List.cons_ne_nil _ _
    · exact List.cons_ne_nil _ _
  · have admits := h.admits
    cases state : e.state with
    | ready =>
      rw [state] at admits
      have first : e.history = [] := admits
      rw [prior, state, if_pos first]
    | running =>
      rw [state] at admits
      have notFirst : e.history ≠ [] := admits
      rw [prior, state, if_neg notFirst]
    | uninitialized | halted | faulted =>
      rw [state] at canStep
      cases canStep

theorem tick (h : e.Consistent) : e.tick.2.Consistent := by
  cases ticked : e.tick with
  | mk answer e' =>
    cases answer with
    | ok stores =>
      obtain ⟨canStep, effects, record, -, rfl, prior, -⟩ := tick_eq_ok ticked
      exact h.advance canStep effects prior
    | error err =>
      rcases tick_eq_error ticked with ⟨-, -, rfl⟩ | ⟨-, -, rfl⟩
      · exact h.faulted
      · exact h

theorem step (h : e.Consistent) : e.step.2.Consistent := by
  rw [step_eq]
  exact h.tick

theorem runSteps (h : e.Consistent) (budget : Nat) : (e.runSteps budget).2.Consistent := by
  induction budget generalizing e with
  | zero => exact h
  | succ budget ih =>
    unfold Emulator.runSteps
    split
    · exact h
    · have ticked := h.tick
      split
      · next eq => rwa [eq] at ticked
      · next eq =>
        rw [eq] at ticked
        exact ih ticked

theorem run (h : e.Consistent) (budget : Nat) : (e.run budget).2.Consistent := by
  unfold Emulator.run
  split
  · exact h.runSteps budget
  · exact h

theorem stepBack (h : e.Consistent) : e.stepBack.2.Consistent := by
  unfold Emulator.stepBack
  split
  · split
    · next state machine history undone =>
      obtain ⟨record, eq, rfl, -⟩ := History.undo_eq_ok undone
      have chained := h.chained
      rw [eq] at chained
      exact ⟨chained.admits, chained.2, h.codeLength_le⟩
    · next err machine history undone =>
      cases History.undo_eq_error undone
      exact ⟨h.admits, h.chained, h.codeLength_le⟩
  · exact h

theorem replayToStart (h : e.Consistent) : e.replayToStart.2.Consistent := by
  unfold Emulator.replayToStart
  split
  · obtain ⟨chained, admits⟩ := h.chained.undoAll e.machine h.admits
    exact ⟨admits, chained, h.codeLength_le⟩
  · exact h

theorem loadCode {code : List UInt32} {e' : Emulator} (loaded : e.loadCode code = .ok e') :
    e'.Consistent := by
  unfold Emulator.loadCode at loaded
  split at loaded
  · cases loaded
  · next ready =>
    split at loaded
    · cases loaded
    · next fits =>
      cases loaded
      rw [ne_eq, Decidable.not_not] at ready
      exact ⟨ready ▸ rfl, trivial, Nat.le_of_not_lt fits⟩

theorem loadProgram {p : Program} {e' : Emulator} (loaded : e.loadProgram p = .ok e') :
    e'.Consistent := by
  unfold Emulator.loadProgram at loaded
  split at loaded
  · cases loaded
  · split at loaded
    · cases loaded
    · simp only [Except.bind_eq_ok_iff, Except.pure_eq_ok_iff] at loaded
      obtain ⟨withCode, code, memory, -, rfl⟩ := loaded
      have h := Consistent.loadCode code
      exact ⟨h.admits, h.chained, h.codeLength_le⟩

theorem writeMemory (h : e.Consistent) {address : UInt32} {bytes : List UInt8} {e' : Emulator}
    (written : e.writeMemory address bytes = .ok e') : e'.Consistent := by
  unfold Emulator.writeMemory at written
  split at written
  · cases written
  · simp only [Except.bind_eq_ok_iff, Except.pure_eq_ok_iff] at written
    obtain ⟨memory, -, rfl⟩ := written
    exact ⟨h.admits, h.chained, h.codeLength_le⟩

theorem orKeep (h : e.Consistent) {outcome : Except MachineError Emulator}
    (ok : ∀ e', outcome = .ok e' → e'.Consistent) : (e.orKeep outcome).2.Consistent := by
  cases outcome with
  | ok e' => exact ok e' rfl
  | error err => exact h

theorem move (h : e.Consistent) (m : Move) : (e.move m).2.Consistent := by
  cases m with
  | step => exact h.step
  | stepBack => exact h.stepBack
  | run budget => exact h.run budget
  | replayToStart => exact h.replayToStart

theorem call (h : e.Consistent) (c : Call) : (e.call c).2.Consistent := by
  cases c with
  | reset => exact .reset e
  | loadCode code => exact h.orKeep fun _ => .loadCode
  | loadProgram p => exact h.orKeep fun _ => .loadProgram
  | writeMemory address bytes => exact h.orKeep fun _ => h.writeMemory
  | move m => exact h.move m

end Consistent

theorem Reachable.consistent {e : Emulator} (reachable : e.Reachable) : e.Consistent := by
  induction reachable with
  | new => exact .new
  | call c _ ih => exact ih.call c

end Emulator

end RobotMachine
