import RobotMachine.Proofs.Reachable

/-!
# Exact time travel

From a ready emulator every mixture of forward and backward moves leaves an emulator that as many
single steps lead to as its history has records, whichever way it was reached. Only a fault shows,
and it shows in the lifecycle state alone.

* `Trail`: the emulators that single steps lead to. Each forward move goes on along the trail and
  each backward move goes back on it, since the newest record takes back the last step exactly.
* `Emulator.travel`: what some moves leave.
* `Emulator.travel_exact`: the emulator after any moves, field by field.
-/

namespace RobotMachine

/-! ## Sequences of moves -/

/-- Whether an answer is a fault. -/
def isFaulted {α : Type} : Except MachineError α → Bool
  | .ok _ => false
  | .error err => err.isFault

/-- Whether a step that belongs to a move has faulted, given what the move answered. -/
def Move.stepFaulted (m : Move) (answer : Except MachineError Unit) : Bool :=
  match m with
  | .step | .run _ => isFaulted answer
  | .stepBack | .replayToStart => false

namespace Emulator

/-- Makes moves one after the other, and tells whether a step of them faulted. -/
def travel (e : Emulator) : List Move → Bool × Emulator
  | [] => (false, e)
  | m :: moves =>
    let (answer, e) := e.move m
    let (faulted, e) := e.travel moves
    (m.stepFaulted answer || faulted, e)

/-- The emulator after a number of single steps, if all of them succeed. -/
def steps? : Nat → Emulator → Option Emulator
  | 0, e => some e
  | count + 1, e =>
    match e.step with
    | (.ok _, e) => steps? count e
    | (.error _, _) => none

/-- The emulator, with its state set to faulted if it is told so. -/
def faultedIf (e : Emulator) (faulted : Bool) : Emulator :=
  if faulted then { e with state := .faulted } else e

theorem history_faultedIf (e : Emulator) (faulted : Bool) :
    (e.faultedIf faulted).history = e.history := by
  cases faulted <;> rfl

theorem travel_cons (e : Emulator) (m : Move) (moves : List Move) :
    e.travel (m :: moves) =
      (m.stepFaulted (e.move m).1 || ((e.move m).2.travel moves).1,
        ((e.move m).2.travel moves).2) := rfl

theorem steps?_succ_of_tick {e e' e'' : Emulator} {count : Nat} {stores : List Store}
    (before : e.steps? count = some e') (ticked : e'.tick = (.ok stores, e'')) :
    e.steps? (count + 1) = some e'' := by
  induction count generalizing e with
  | zero =>
    cases before
    rw [steps?, step_eq, ticked]
    rfl
  | succ count ih =>
    rw [steps?] at before ⊢
    split at before
    · exact ih before
    · cases before

end Emulator

theorem isFaulted_map {α β : Type} (answer : Except MachineError α) (f : α → β) :
    isFaulted (answer.map f) = isFaulted answer := by
  cases answer with
  | ok a => rfl
  | error err => rfl

/-! ## Trails -/

/-- The emulators that steps from a first one lead to. -/
inductive Trail (e₀ : Emulator) : Emulator → Prop
  | start : Trail e₀ e₀
  | tick {e e' : Emulator} {stores : List Store} :
    Trail e₀ e → e.tick = (.ok stores, e') → Trail e₀ e'

/-- An emulator on a trail, or one that a fault has put beside it. -/
def Trail.Reaches (e₀ : Emulator) (faulted : Bool) (e : Emulator) : Prop :=
  ∃ e', Trail e₀ e' ∧ e = e'.faultedIf faulted

namespace Trail

variable {e₀ e : Emulator}

theorem reaches (trail : Trail e₀ e) : Reaches e₀ false e :=
  ⟨e, trail, rfl⟩

theorem codeLength_eq (trail : Trail e₀ e) : e.codeLength = e₀.codeLength := by
  induction trail with
  | start => rfl
  | tick _ ticked ih =>
    obtain ⟨-, _, _, -, rfl, -⟩ := Emulator.tick_eq_ok ticked
    exact ih

theorem lines_eq (trail : Trail e₀ e) : e.lines = e₀.lines := by
  induction trail with
  | start => rfl
  | tick _ ticked ih =>
    obtain ⟨-, _, _, -, rfl, -⟩ := Emulator.tick_eq_ok ticked
    exact ih

theorem canRewind (ready : e₀.state = .ready) (trail : Trail e₀ e) :
    e.state.canRewind = true := by
  cases trail with
  | start => rw [ready]; rfl
  | tick _ ticked => exact Emulator.canRewind_of_tick ticked

theorem steps? (empty : e₀.history = []) (trail : Trail e₀ e) :
    e₀.steps? e.history.length = some e := by
  induction trail with
  | start => rw [empty]; rfl
  | tick _ ticked ih =>
    have counted := Emulator.steps?_succ_of_tick ih ticked
    obtain ⟨-, _, _, -, rfl, -⟩ := Emulator.tick_eq_ok ticked
    exact counted

/-! ### Backwards -/

theorem undoAll (empty : e₀.history = []) (trail : Trail e₀ e) :
    e.history.undoAll e.machine e.state =
      (.ok e.history.length, e₀.state, e₀.machine, []) := by
  induction trail with
  | start => rw [empty]; rfl
  | tick _ ticked ih =>
    obtain ⟨-, effects, record, -, rfl, prior, restored⟩ := Emulator.tick_eq_ok ticked
    simp only [Emulator.advance, History.undoAll, restored, prior, ih]
    rfl

theorem replayToStart (empty : e₀.history = []) (canRewind : e.state.canRewind = true)
    (trail : Trail e₀ e) :
    e.replayToStart = (.ok (e.history.length, e₀.report []), e₀) := by
  have back : ({ e with state := e₀.state, machine := e₀.machine, history := [] } : Emulator) =
      e₀ := by
    rw [trail.codeLength_eq, trail.lines_eq, ← empty]
  simp only [Emulator.replayToStart, if_pos canRewind, trail.undoAll empty, back]
  rfl

theorem stepBack (empty : e₀.history = []) (trail : Trail e₀ e) : Trail e₀ e.stepBack.2 := by
  cases trail with
  | start =>
    have unchanged : e₀.stepBack.2 = e₀ := by
      unfold Emulator.stepBack
      split
      · rw [empty, History.undo, ← empty]
      · rfl
    rw [unchanged]
    exact .start
  -- the trail to the emulator before is already at hand: no step has to be made again
  | tick before ticked =>
    rw [Emulator.stepBack_of_tick ticked]
    exact before

/-! ### Forwards -/

theorem tickReaches (trail : Trail e₀ e) : Reaches e₀ (isFaulted e.tick.1) e.tick.2 := by
  cases ticked : e.tick with
  | mk answer e' =>
    cases answer with
    | ok stores => exact (trail.tick ticked).reaches
    | error err =>
      rcases Emulator.tick_eq_error ticked with ⟨-, fault, rfl⟩ | ⟨-, rfl, rfl⟩
      · exact ⟨e, trail, by simp only [isFaulted, fault, Emulator.faultedIf, if_true]⟩
      · exact trail.reaches

theorem runStepsReaches (trail : Trail e₀ e) (budget : Nat) :
    Reaches e₀ (isFaulted (e.runSteps budget).1) (e.runSteps budget).2 := by
  induction budget generalizing e with
  | zero => exact trail.reaches
  | succ budget ih =>
    unfold Emulator.runSteps
    split
    · exact trail.reaches
    · have here := trail.tickReaches
      split
      · next ticked =>
        rw [ticked] at here
        exact here
      · next ticked =>
        simp only [isFaulted_map]
        exact ih (trail.tick ticked)

theorem moveReaches (empty : e₀.history = []) (ready : e₀.state = .ready) (trail : Trail e₀ e)
    (m : Move) : Reaches e₀ (m.stepFaulted (e.move m).1) (e.move m).2 := by
  cases m with
  | step =>
    simp only [Move.stepFaulted, Emulator.move, Emulator.step_eq, isFaulted_map]
    exact trail.tickReaches
  | stepBack => exact (trail.stepBack empty).reaches
  | run budget =>
    simp only [Move.stepFaulted, Emulator.move, isFaulted_map]
    unfold Emulator.run
    split
    · exact trail.runStepsReaches budget
    · exact trail.reaches
  | replayToStart =>
    simp only [Move.stepFaulted, Emulator.move,
      trail.replayToStart empty (trail.canRewind ready)]
    exact Trail.start.reaches

end Trail

namespace Emulator

/-- A faulted emulator does not move. -/
theorem move_of_faulted {e : Emulator} (faulted : e.state = .faulted) (m : Move) :
    e.move m = (.error (.notReady .faulted), e) := by
  cases m with
  | step => simp [move, step, tick, faulted, Lifecycle.canStep, Except.map]
  | stepBack => simp [move, stepBack, faulted, Lifecycle.canRewind, Except.map]
  | run budget => simp [move, run, faulted, Lifecycle.canStep, Except.map]
  | replayToStart => simp [move, replayToStart, faulted, Lifecycle.canRewind, Except.map]

theorem travel_of_faulted {e : Emulator} (faulted : e.state = .faulted) (moves : List Move) :
    e.travel moves = (false, e) := by
  induction moves with
  | nil => rfl
  | cons m moves ih =>
    rw [travel_cons, move_of_faulted faulted, ih]
    cases m <;> rfl

end Emulator

theorem Trail.travelReaches {e₀ e : Emulator} (empty : e₀.history = [])
    (ready : e₀.state = .ready) (trail : Trail e₀ e) (moves : List Move) :
    Trail.Reaches e₀ (e.travel moves).1 (e.travel moves).2 := by
  induction moves generalizing e with
  | nil => exact trail.reaches
  | cons m moves ih =>
    obtain ⟨e', trail', left⟩ := trail.moveReaches empty ready m
    rw [Emulator.travel_cons, left]
    cases m.stepFaulted (e.move m).1 with
    | false => exact ih trail'
    -- a fault ends the journey: the moves left over change nothing
    | true =>
      have stuck : (e'.faultedIf true).travel moves = (false, e'.faultedIf true) :=
        Emulator.travel_of_faulted rfl moves
      rw [stuck]
      exact ⟨e', trail', rfl⟩

namespace Emulator

/-- **Time travel is exact.** Whatever moves are made from a reachable ready emulator, single
steps, as many as the history then has records, all succeed and lead to the very same emulator,
but for the faulted state that a faulting step leaves. From every state that can be rewound, a
replay leads back to the emulator at the start. -/
theorem travel_exact {e₀ : Emulator} (reachable : e₀.Reachable) (ready : e₀.state = .ready)
    (moves : List Move) :
    ∃ e', e₀.steps? (e₀.travel moves).2.history.length = some e' ∧
      (e₀.travel moves).2 =
        (if (e₀.travel moves).1 then { e' with state := .faulted } else e') ∧
      ((e₀.travel moves).2.state.canRewind = true →
        (e₀.travel moves).2.replayToStart =
          (.ok ((e₀.travel moves).2.history.length, e₀.report []), e₀)) := by
  have empty : e₀.history = [] := by
    have admits := reachable.consistent.admits
    rw [ready] at admits
    exact admits
  obtain ⟨e', trail, left⟩ := Trail.travelReaches empty ready .start moves
  have sameHistory : (e₀.travel moves).2.history = e'.history := by
    rw [left, history_faultedIf]
  refine ⟨e', ?_, left, fun canRewind => ?_⟩
  · rw [sameHistory]
    exact trail.steps? empty
  · cases faulted : (e₀.travel moves).1 with
    | false =>
      rw [faulted] at left
      rw [left] at canRewind ⊢
      exact trail.replayToStart empty canRewind
    | true =>
      rw [left, faulted] at canRewind
      cases canRewind

/-- A ready emulator with a program that pushes the stack pointer, pops it again and branches
into the data region. -/
def stackStart : Emulator :=
  ((call {} .reset).2.call (.loadProgram
    { code := [0x48d00000, 0x49d00000, 0x50030000], lines := [1, 2, 3] })).2

/-- Moves there and back that end with a fault in the data region. -/
def stackMoves : List Move :=
  [.run 2, .stepBack, .step, .replayToStart, .stepBack, .step, .run 9, .stepBack]

theorem travel_exact_stackStart :
    stackStart.Reachable ∧ stackStart.state = .ready ∧
      (stackStart.travel stackMoves).1 = true ∧
      (stackStart.travel stackMoves).2.history.length = 3 ∧
      ∃ e', stackStart.steps? (stackStart.travel stackMoves).2.history.length = some e' ∧
        (stackStart.travel stackMoves).2 =
          (if (stackStart.travel stackMoves).1 then { e' with state := .faulted } else e') ∧
        ((stackStart.travel stackMoves).2.state.canRewind = true →
          (stackStart.travel stackMoves).2.replayToStart =
            (.ok ((stackStart.travel stackMoves).2.history.length, stackStart.report []),
              stackStart)) := by
  have reachable : stackStart.Reachable := .call _ (.call .reset .new)
  have ready : stackStart.state = .ready := by decide +kernel
  exact ⟨reachable, ready, by decide +kernel, by decide +kernel,
    travel_exact reachable ready stackMoves⟩

end Emulator

end RobotMachine
