import RobotMachine.Proofs.TimeTravel
import RobotMachine.Service.Request

/-!
# Interrupted runs

A served run looks for a cancellation in front of every step, but a cancellation that waits for a
pause can only be found in front of the step behind that pause. If the run gets there, it stops and
leaves exactly the steps before the pause, none of which is lost to undoing. If it halts, faults or
spends its budget before, it does not know of the cancellation and is a run of the emulator.

* `Emulator.serveSteps_eq_runSteps`: a run that never finds a cancellation due.
* `Emulator.serveSteps_interrupted`: a run that goes on until a cancellation is due.
* `Emulator.interrupted_run`: the two together, for a cancellation at a pause.
-/

namespace RobotMachine

theorem Cancellation.isDue_atPause_iff {n steps : Nat} :
    (atPause n).isDue (steps / stepsPerPause) = true ↔ stepsPerPause * n ≤ steps := by
  rw [isDue, decide_eq_true_iff, Nat.le_div_iff_mul_le (by decide), Nat.mul_comm]

theorem Served.map_ofAttempt {α β γ : Type} (f : α → β) (g : β → γ)
    (attempt : Except MachineError α × Emulator) :
    Served.map g (ofAttempt f attempt) = ofAttempt (g ∘ f) attempt := by
  rcases attempt with ⟨err | a, e⟩
  · rfl
  · rfl

theorem Served.map_after_ofAttempt (stores : List Store)
    (attempt : Except MachineError RunSummary × Emulator) :
    (((ofAttempt id attempt).1.map (·.after stores), attempt.2) : Served RunSummary) =
      ofAttempt id (attempt.1.map (·.after stores), attempt.2) := by
  rcases attempt with ⟨err | summary, e⟩
  · rfl
  · rfl

namespace Emulator

variable {e e' : Emulator} {stores : List Store} {count : Nat}

/-! ## Steps forwards -/

theorem steps?_succ_of_tick_ok (ticked : e.tick = (.ok stores, e')) :
    e.steps? (count + 1) = e'.steps? count := by
  rw [steps?, step_eq, ticked]
  rfl

theorem steps?_succ_of_tick_error {err : MachineError} (ticked : e.tick = (.error err, e')) :
    e.steps? (count + 1) = none := by
  rw [steps?, step_eq, ticked]
  rfl

/-- The last of some steps is a step of the emulator that the others lead to. -/
theorem exists_tick_of_steps? (made : e.steps? (count + 1) = some e') :
    ∃ before stores, e.steps? count = some before ∧ before.tick = (.ok stores, e') := by
  induction count generalizing e with
  | zero =>
    rcases ticked : e.tick with ⟨err | stores, next⟩
    · rw [steps?_succ_of_tick_error ticked] at made
      cases made
    · rw [steps?_succ_of_tick_ok ticked] at made
      cases made
      exact ⟨e, stores, rfl, ticked⟩
  | succ count ih =>
    rcases ticked : e.tick with ⟨err | stores, next⟩
    · rw [steps?_succ_of_tick_error ticked] at made
      cases made
    · rw [steps?_succ_of_tick_ok ticked] at made ⊢
      exact ih made

/-- The first steps of an emulator all succeed, and it has not halted in front of any of them nor
behind the last. -/
def KeepsGoing (e : Emulator) (count : Nat) : Prop :=
  ∀ k ≤ count, ∃ e', e.steps? k = some e' ∧ e'.state ≠ .halted

theorem KeepsGoing.of_le {fewer : Nat} (going : e.KeepsGoing count) (le : fewer ≤ count) :
    e.KeepsGoing fewer :=
  fun k few => going k (Nat.le_trans few le)

theorem KeepsGoing.not_halted (going : e.KeepsGoing count) : e.state ≠ .halted := by
  obtain ⟨e', made, running⟩ := going 0 (Nat.zero_le count)
  cases made
  exact running

theorem KeepsGoing.exists_tick (going : e.KeepsGoing (count + 1)) :
    ∃ stores e', e.tick = (.ok stores, e') ∧ e'.KeepsGoing count := by
  rcases ticked : e.tick with ⟨err | stores, e'⟩
  · obtain ⟨_, made, -⟩ := going 1 (Nat.succ_le_succ (Nat.zero_le count))
    rw [steps?_succ_of_tick_error ticked] at made
    cases made
  · refine ⟨stores, e', rfl, ?_⟩
    intro k le
    obtain ⟨e'', made, running⟩ := going (k + 1) (Nat.succ_le_succ le)
    rw [steps?_succ_of_tick_ok ticked] at made
    exact ⟨e'', made, running⟩

theorem keepsGoing_zero (running : e.state ≠ .halted) : e.KeepsGoing 0 := by
  intro k le
  cases Nat.le_zero.mp le
  exact ⟨e, rfl, running⟩

theorem KeepsGoing.of_tick (running : e.state ≠ .halted) (ticked : e.tick = (.ok stores, e'))
    (going : e'.KeepsGoing count) : e.KeepsGoing (count + 1) := by
  intro k le
  cases k with
  | zero => exact ⟨e, rfl, running⟩
  | succ k =>
    rw [steps?_succ_of_tick_ok ticked]
    exact going k (Nat.le_of_succ_le_succ le)

/-! ## Steps backwards -/

/-- The emulator after a number of steps back, if all of them succeed. -/
def stepsBack? : Nat → Emulator → Option Emulator
  | 0, e => some e
  | count + 1, e =>
    match e.stepBack with
    | (.ok _, e) => stepsBack? count e
    | (.error _, _) => none

/-- Going back over some of the steps leads to where the others of them led. -/
theorem stepsBack?_of_steps? {back : Nat} (made : e.steps? count = some e') (le : back ≤ count) :
    e'.stepsBack? back = e.steps? (count - back) := by
  induction back generalizing count e' with
  | zero => exact made.symm
  | succ back ih =>
    cases count with
    | zero => cases Nat.not_succ_le_zero back le
    | succ count =>
      obtain ⟨before, stores, made, ticked⟩ := exists_tick_of_steps? made
      rw [stepsBack?, stepBack_of_tick ticked, Nat.succ_sub_succ]
      exact ih made (Nat.le_of_succ_le_succ le)

/-! ## Served steps -/

/-- As long as a run goes on without finding a cancellation due, it makes the steps of the
emulator. -/
theorem serveSteps_eq_runSteps {c : Cancellation} {budget made : Nat}
    (unheeded : ∀ k < budget, e.KeepsGoing k → c.isDue ((made + k) / stepsPerPause) = false) :
    serveSteps c budget made e = .ofAttempt id (e.runSteps budget) := by
  induction budget generalizing made e with
  | zero => rfl
  | succ budget ih =>
    by_cases halted : e.state = .halted
    · rw [serveSteps, runSteps, if_pos halted, if_pos halted]
      rfl
    · have notDue : c.isDue (made / stepsPerPause) = false :=
        unheeded 0 (Nat.succ_pos budget) (keepsGoing_zero halted)
      rw [serveSteps, runSteps, if_neg halted, if_neg halted, notDue, if_neg Bool.false_ne_true]
      rcases ticked : e.tick with ⟨err | stores, e'⟩
      · rfl
      · have rest : serveSteps c budget (made + 1) e' = .ofAttempt id (e'.runSteps budget) := by
          apply ih
          intro k few going
          rw [Nat.add_assoc, Nat.add_comm 1]
          exact unheeded (k + 1) (Nat.succ_lt_succ few) (going.of_tick halted ticked)
        simp only [rest]
        exact Served.map_after_ofAttempt stores (e'.runSteps budget)

/-- A run that goes on until a cancellation is due stops there. -/
theorem serveSteps_interrupted {c : Cancellation} {budget made : Nat}
    (going : e.KeepsGoing count) (room : count < budget)
    (early : ∀ k < count, c.isDue ((made + k) / stepsPerPause) = false)
    (due : c.isDue ((made + count) / stepsPerPause) = true) :
    ∃ e', e.steps? count = some e' ∧ serveSteps c budget made e = (.error .cancelled, e') := by
  induction count generalizing budget made e with
  | zero =>
    cases budget with
    | zero => cases room
    | succ budget =>
      rw [Nat.add_zero] at due
      refine ⟨e, rfl, ?_⟩
      rw [serveSteps, if_neg going.not_halted, if_pos due]
  | succ count ih =>
    cases budget with
    | zero => cases room
    | succ budget =>
      have notDue : c.isDue (made / stepsPerPause) = false := early 0 (Nat.succ_pos count)
      have shift (k : Nat) : made + (k + 1) = made + 1 + k := by omega
      obtain ⟨stores, next, ticked, goingNext⟩ := going.exists_tick
      have earlyNext : ∀ k < count, c.isDue ((made + 1 + k) / stepsPerPause) = false := by
        intro k few
        rw [← shift]
        exact early (k + 1) (Nat.succ_lt_succ few)
      rw [shift] at due
      obtain ⟨e', reached, stopped⟩ := ih goingNext (Nat.lt_of_succ_lt_succ room) earlyNext due
      refine ⟨e', ?_, ?_⟩
      · rw [steps?_succ_of_tick_ok ticked]
        exact reached
      · rw [serveSteps, if_neg going.not_halted, notDue, if_neg Bool.false_ne_true, ticked]
        simp only [stopped]
        rfl

/-! ## Served runs -/

theorem KeepsGoing.canStep (going : e.KeepsGoing count) (steps : 0 < count) :
    e.state.canStep = true := by
  obtain ⟨stores, e', ticked, -⟩ := (going.of_le steps).exists_tick
  exact (tick_eq_ok ticked).1

theorem serveRun_eq_run {c : Cancellation} {budget : Nat} (notBefore : c.isDue 0 = false)
    (unheeded : ∀ k < budget, e.KeepsGoing k → c.isDue (k / stepsPerPause) = false) :
    e.serveRun c budget = .ofAttempt id (e.run budget) := by
  rw [serveRun, run, notBefore, if_neg Bool.false_ne_true]
  split
  · apply serveSteps_eq_runSteps
    intro k few going
    rw [Nat.zero_add]
    exact unheeded k few going
  · rfl

theorem serveRun_interrupted {c : Cancellation} {budget : Nat} (steps : 0 < count)
    (going : e.KeepsGoing count) (room : count < budget)
    (early : ∀ k < count, c.isDue (k / stepsPerPause) = false)
    (due : c.isDue (count / stepsPerPause) = true) :
    ∃ e', e.steps? count = some e' ∧ e.serveRun c budget = (.error .cancelled, e') := by
  have notBefore : c.isDue 0 = false := early 0 steps
  rw [serveRun, notBefore, if_neg Bool.false_ne_true, if_pos (going.canStep steps)]
  apply serveSteps_interrupted going room
  · intro k few
    rw [Nat.zero_add]
    exact early k few
  · rw [Nat.zero_add]
    exact due

/-- **An interrupted run stops at a step boundary.** Let a served run be cancelled at a pause behind
its start. If the steps up to the pause all succeed without halting and the budget goes beyond them,
the run stops at the pause, and from the emulator that it leaves each of the steps can be undone.
Otherwise it is the run of the emulator. -/
theorem interrupted_run (e : Emulator) (budget : Nat) {n : Nat} (later : 1 ≤ n) :
    (e.KeepsGoing (stepsPerPause * n) ∧ stepsPerPause * n < budget →
      ∃ e', e.steps? (stepsPerPause * n) = some e' ∧
        (Request.run budget).serve (.atPause n) e = (.error .cancelled, e') ∧
        ∀ back ≤ stepsPerPause * n,
          e'.stepsBack? back = e.steps? (stepsPerPause * n - back)) ∧
      (¬(e.KeepsGoing (stepsPerPause * n) ∧ stepsPerPause * n < budget) →
        (Request.run budget).serve (.atPause n) e = .ofAttempt .summary (e.run budget)) := by
  have steps : 0 < stepsPerPause * n := Nat.mul_pos (by decide) later
  have early : ∀ k < stepsPerPause * n,
      (Cancellation.atPause n).isDue (k / stepsPerPause) = false := by
    intro k few
    rw [Bool.eq_false_iff, ne_eq, Cancellation.isDue_atPause_iff]
    exact Nat.not_le.mpr few
  constructor
  · rintro ⟨going, room⟩
    have due := Cancellation.isDue_atPause_iff.mpr (Nat.le_refl (stepsPerPause * n))
    obtain ⟨e', reached, stopped⟩ := serveRun_interrupted steps going room early due
    refine ⟨e', reached, ?_, ?_⟩
    · rw [Request.serve, stopped]
      rfl
    · intro back le
      exact stepsBack?_of_steps? reached le
  · intro unheeded
    have ran : e.serveRun (.atPause n) budget = .ofAttempt id (e.run budget) := by
      apply serveRun_eq_run (early 0 steps)
      intro k few going
      -- a run that would find the cancellation goes on to the pause with steps left to make
      apply early
      by_contra reached
      rw [Nat.not_lt] at reached
      exact unheeded ⟨going.of_le reached, Nat.lt_of_le_of_lt reached few⟩
    rw [Request.serve, ran, Served.map_ofAttempt]
    rfl

/-! ## A run without an end -/

/-- A ready emulator whose only instruction branches to itself. -/
def spinning : Emulator :=
  ((call {} .reset).2.call (.loadCode [0x50010000])).2

/-- The emulator stands at the instruction that branches to itself, and may step. -/
structure Spins (e : Emulator) : Prop where
  machine : e.machine = spinning.machine
  codeLength : e.codeLength = spinning.codeLength
  canStep : e.state.canStep = true

theorem spins_spinning : spinning.Spins :=
  ⟨rfl, rfl, by decide +kernel⟩

theorem Spins.tick (spins : e.Spins) : ∃ e', e.tick = (.ok [], e') ∧ e'.Spins := by
  obtain ⟨machine, codeLength, canStep⟩ := spins
  have branches : (spinning.fetch >>= fun i => (spinning.machine.execute i).mapError .memory) =
      .ok { pc := spinning.machine.pc } := by
    decide +kernel
  obtain ⟨i, fetched, executed⟩ := Except.bind_eq_ok_iff.mp branches
  have fetchedHere : e.fetch = .ok i := by
    rw [← fetched, fetch, fetch, machine, codeLength]
  let effects : Effects := { pc := spinning.machine.pc }
  let record : StepRecord :=
    ⟨e.state, spinning.machine.pc, spinning.machine.registers.flags, [], []⟩
  have next : e.nextEffects = .ok (effects, record) := by
    rw [nextEffects, fetchedHere, Except.ok_bind, machine, executed]
    rfl
  have ticked : e.tick = (.ok [], e.advance effects record) := by
    rw [Emulator.tick, if_pos canStep, next]
  have same : e.machine.apply effects = spinning.machine := by
    rw [machine]
    rfl
  exact ⟨e.advance effects record, ticked, same, codeLength, rfl⟩

theorem Spins.keepsGoing (spins : e.Spins) (count : Nat) : e.KeepsGoing count := by
  induction count generalizing e with
  | zero =>
    apply keepsGoing_zero
    intro halted
    have canStep := spins.canStep
    rw [halted] at canStep
    cases canStep
  | succ count ih =>
    obtain ⟨e', ticked, spins'⟩ := spins.tick
    have running : e.state ≠ .halted := (ih spins).not_halted
    exact (ih spins').of_tick running ticked

theorem interrupted_run_spinning :
    (∃ e', spinning.steps? 2048 = some e' ∧
        (Request.run 5000).serve (.atPause 2) spinning = (.error .cancelled, e') ∧
        e'.stepsBack? 2048 = some spinning) ∧
      (Request.run 2048).serve (.atPause 2) spinning = .ofAttempt .summary (spinning.run 2048) := by
  obtain ⟨stops, -⟩ := interrupted_run spinning 5000 (n := 2) (by decide)
  obtain ⟨-, runs⟩ := interrupted_run spinning 2048 (n := 2) (by decide)
  constructor
  · obtain ⟨e', reached, answered, back⟩ := stops ⟨spins_spinning.keepsGoing _, by decide⟩
    exact ⟨e', reached, answered, back 2048 (Nat.le_refl 2048)⟩
  · apply runs
    rintro ⟨-, room⟩
    exact Nat.lt_irrefl 2048 room

end Emulator

end RobotMachine
