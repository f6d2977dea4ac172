import RobotMachine.Proofs.Lifecycle
import RobotMachine.Proofs.StepOutcomes

/-!
# Predicates that foretell the outcome

Whether an emulator can go back, go on or be replayed is answered from its state, the number of its
records and the number of its code words, while the calls themselves also read records, memory and
the program counter. In a reachable emulator the answers are exact: every record can be restored,
and what can go wrong with a step is only an instruction that faults.

* `Emulator.exists_stepBack_iff`: a step back succeeds just if one is foretold.
* `Emulator.step_of_not_canStepForward`, `Emulator.step_of_canStep`: what is foretold of a step.
* `Emulator.replayToStart_of_canRewind`: what a replay answers and leaves.
* `Emulator.Reachable.predicates_exact`: all of it, in every reachable emulator.
-/

namespace RobotMachine

theorem Lifecycle.canRewind_iff {state : Lifecycle} :
    state.canRewind = true ↔ state = .ready ∨ state = .running ∨ state = .halted := by
  cases state with
  | ready => exact ⟨fun _ => .inl rfl, fun _ => rfl⟩
  | running => exact ⟨fun _ => .inr (.inl rfl), fun _ => rfl⟩
  | halted => exact ⟨fun _ => .inr (.inr rfl), fun _ => rfl⟩
  | uninitialized | faulted => exact ⟨nofun, by rintro (other | other | other) <;> cases other⟩

theorem MachineError.isFault_iff {err : MachineError} :
    err.isFault = true ↔ (∃ pc fault, err = .fetch pc fault) ∨ ∃ fault, err = .memory fault := by
  constructor
  · intro isFault
    cases err with
    | fetch pc fault => exact .inl ⟨pc, fault, rfl⟩
    | memory fault => exact .inr ⟨fault, rfl⟩
    | notReady | nothingToUndo | programTooLarge | dataTooLarge => cases isFault
  · rintro (⟨pc, fault, rfl⟩ | ⟨fault, rfl⟩)
    · rfl
    · rfl

namespace Emulator

variable {e : Emulator}

/-! ## Backwards -/

theorem canStepBack_iff :
    e.canStepBack = true ↔ e.state.canRewind = true ∧ e.history ≠ [] := by
  rw [canStepBack, Bool.and_eq_true, Bool.not_eq_true', List.isEmpty_eq_false_iff]

/-- A step back removes the newest record and no other. -/
theorem stepBack_of_cons (undoable : e.history.Undoable) (canRewind : e.state.canRewind = true)
    {record : StepRecord} {older : History} (newest : e.history = record :: older) :
    (∃ report, e.stepBack.1 = .ok report) ∧ e.stepBack.2.history = older := by
  rw [newest] at undoable
  unfold stepBack
  rw [if_pos canRewind, newest, History.undo, undoable.head.restore_eq]
  exact ⟨⟨_, rfl⟩, rfl⟩

/-- A step back succeeds just if it is foretold. -/
theorem exists_stepBack_iff (undoable : e.history.Undoable) :
    (∃ report, e.stepBack.1 = .ok report) ↔ e.canStepBack = true := by
  rw [canStepBack_iff]
  constructor
  · rintro ⟨report, succeeds⟩
    unfold stepBack at succeeds
    split at succeeds
    · next canRewind =>
      refine ⟨canRewind, fun none => ?_⟩
      rw [none] at succeeds
      cases succeeds
    · cases succeeds
  · rintro ⟨canRewind, steps⟩
    obtain ⟨record, older, newest⟩ := List.exists_cons_of_ne_nil steps
    exact (stepBack_of_cons undoable canRewind newest).1

theorem stepBack_removes_newest (undoable : e.history.Undoable)
    (canStepBack : e.canStepBack = true) :
    ∃ record, e.history = record :: e.stepBack.2.history := by
  obtain ⟨canRewind, steps⟩ := canStepBack_iff.mp canStepBack
  obtain ⟨record, older, newest⟩ := List.exists_cons_of_ne_nil steps
  obtain ⟨-, left⟩ := stepBack_of_cons undoable canRewind newest
  exact ⟨record, by rw [left, newest]⟩

/-- A replay counts the records and leaves none of them. -/
theorem replayToStart_of_canRewind (undoable : e.history.Undoable)
    (canRewind : e.state.canRewind = true) :
    (∃ report, e.replayToStart.1 = .ok (e.history.length, report)) ∧
      e.replayToStart.2.history = [] := by
  obtain ⟨state, m, undone, -⟩ := undoable.undoAll_eq e.machine e.state
  unfold replayToStart
  rw [if_pos canRewind, undone]
  exact ⟨⟨_, rfl⟩, rfl⟩

theorem exists_replayToStart_iff (undoable : e.history.Undoable) :
    (∃ count report, e.replayToStart.1 = .ok (count, report)) ↔ e.state.canRewind = true := by
  constructor
  · rintro ⟨count, report, replayed⟩
    by_contra cannot
    rw [replayToStart, if_neg cannot] at replayed
    cases replayed
  · intro canRewind
    obtain ⟨⟨report, replayed⟩, -⟩ := replayToStart_of_canRewind undoable canRewind
    exact ⟨_, report, replayed⟩

/-! ## Forwards -/

theorem canStepForward_iff :
    e.canStepForward = true ↔ e.state.canStep = true ∧ e.codeLength ≠ 0 := by
  rw [canStepForward, Bool.and_eq_true, bne_iff_ne]

/-- Without code the program counter is at no byte of it. -/
theorem not_inProgram_of_codeLength_eq_zero (empty : e.codeLength = 0) : ¬e.InProgram := by
  rintro ⟨lower, upper⟩
  rw [empty] at upper
  omega

theorem step_of_not_canStep (cannot : e.state.canStep = false) :
    e.step.1 = .error (.notReady e.state) := by
  rcases e.tick_cases with ⟨-, ticked⟩ | ⟨_, canStep, -⟩ | ⟨_, _, canStep, -⟩
  · rw [step_eq, ticked]
    rfl
  · rw [cannot] at canStep
    cases canStep
  · rw [cannot] at canStep
    cases canStep

/-- A step that is not foretold fails: it is not allowed, or there is no code. -/
theorem step_of_not_canStepForward (cannot : e.canStepForward = false) :
    ∃ err, e.step.1 = .error err := by
  cases canStep : e.state.canStep with
  | false => exact ⟨_, step_of_not_canStep canStep⟩
  | true =>
    have empty : e.codeLength = 0 := by
      by_contra loaded
      rw [canStepForward_iff.mpr ⟨canStep, loaded⟩] at cannot
      cases cannot
    have failed := fetch_of_outside (not_inProgram_of_codeLength_eq_zero empty)
    exact ⟨_, (step_eq_error_iff canStep).mpr (nextEffects_of_fetch_error failed)⟩

/-- A step that is allowed succeeds, unless its instruction faults. -/
theorem step_of_canStep (canStep : e.state.canStep = true) :
    (∃ report, e.step.1 = .ok report) ∨
      (∃ pc fault, e.step.1 = .error (.fetch pc fault)) ∨
      ∃ fault, e.step.1 = .error (.memory fault) := by
  cases stepped : e.step.1 with
  | ok report => exact .inl ⟨report, rfl⟩
  | error err =>
    have failed := (step_eq_error_iff canStep).mp stepped
    rcases MachineError.isFault_iff.mp (isFault_of_nextEffects failed) with
      ⟨pc, fault, rfl⟩ | ⟨fault, rfl⟩
    · exact .inr (.inl ⟨pc, fault, rfl⟩)
    · exact .inr (.inr ⟨fault, rfl⟩)

/-- **The predicates are exact.** In a reachable emulator a step back succeeds just if it is
foretold, and then it removes the newest record. A step fails if none is foretold, and if one is it
succeeds or ends in a fault of the instruction, so it is never refused. A replay succeeds just in
the states ready, running and halted, counts the records, and then there is no step back left. -/
theorem Reachable.predicates_exact (reachable : e.Reachable) :
    (e.canStepBack = true ↔ ∃ report, e.stepBack.1 = .ok report) ∧
      (e.canStepBack = true → ∃ record, e.history = record :: e.stepBack.2.history) ∧
      (e.canStepForward = false → ∃ err, e.step.1 = .error err) ∧
      (e.canStepForward = true → (∃ report, e.step.1 = .ok report) ∨
        (∃ pc fault, e.step.1 = .error (.fetch pc fault)) ∨
        ∃ fault, e.step.1 = .error (.memory fault)) ∧
      ((∃ count report, e.replayToStart.1 = .ok (count, report)) ↔
        e.state = .ready ∨ e.state = .running ∨ e.state = .halted) ∧
      ∀ count report, e.replayToStart.1 = .ok (count, report) →
        count = e.history.length ∧ e.replayToStart.2.canStepBack = false := by
  have undoable := reachable.undoable
  refine ⟨(exists_stepBack_iff undoable).symm, stepBack_removes_newest undoable,
    step_of_not_canStepForward, fun canStepForward => ?_, ?_, fun count report replayed => ?_⟩
  · exact step_of_canStep (canStepForward_iff.mp canStepForward).1
  · exact (exists_replayToStart_iff undoable).trans Lifecycle.canRewind_iff
  · have canRewind := (exists_replayToStart_iff undoable).mp ⟨count, report, replayed⟩
    obtain ⟨⟨report', counted⟩, none⟩ := replayToStart_of_canRewind undoable canRewind
    rw [replayed] at counted
    cases counted
    refine ⟨rfl, Bool.eq_false_iff.mpr fun canStepBack => ?_⟩
    exact (canStepBack_iff.mp canStepBack).2 none

/-- A ready emulator without code cannot step, one whose instruction faults can be asked to, and one
that has halted can only go back. -/
theorem predicates_exact_haltedAtEnd :
    initial.Reachable ∧ initial.state = .ready ∧ (∃ err, initial.step.1 = .error err) ∧
      storingIntoCode.Reachable ∧ storingIntoCode.canStepForward = true ∧
      ¬(∃ report, storingIntoCode.stepBack.1 = .ok report) ∧
      haltedAtEnd.Reachable ∧ (∃ report, haltedAtEnd.stepBack.1 = .ok report) ∧
      ∃ report, haltedAtEnd.replayToStart.1 = .ok (3, report) ∧
        haltedAtEnd.replayToStart.2.canStepBack = false := by
  have ready : initial.Reachable := .call .reset .new
  have storing : storingIntoCode.Reachable := .call _ ready
  have halted : haltedAtEnd.Reachable := .call _ (.call _ ready)
  have steps : haltedAtEnd.history.length = 3 := by decide +kernel
  obtain ⟨-, -, fails, -⟩ := Reachable.predicates_exact ready
  obtain ⟨back, -⟩ := Reachable.predicates_exact storing
  obtain ⟨goesBack, -, -, -, replays, counts⟩ := Reachable.predicates_exact halted
  obtain ⟨count, report, replayed⟩ := replays.mpr (.inr (.inr (by decide +kernel)))
  obtain ⟨rfl, none⟩ := counts count report replayed
  rw [steps] at replayed
  exact ⟨ready, rfl, fails rfl, storing, by decide +kernel,
    mt back.mpr (by decide +kernel), halted, goesBack.mp (by decide +kernel), report, replayed,
    none⟩

end Emulator

end RobotMachine
