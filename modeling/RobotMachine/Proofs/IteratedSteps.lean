import Mathlib.Order.Bounds.Basic
import RobotMachine.Proofs.InterruptedRun

/-!
# Runs as iterated steps

A run calls the step again and again, until the budget is spent or a call halts the machine or
fails. So it makes as many calls as it can without a call behind one that stopped the run, and its
summary is the sum of their reports. What a run that did not halt leaves to do, a second one does.

* `Emulator.afterSteps`, `Emulator.stepAnswer`: what calls of the step leave and answer.
* `Emulator.Sums`: the sum of the answers.
* `Emulator.exists_sums_runSteps`: a run makes as many calls as it may.
* `Emulator.runSteps_add`: two runs one after the other.
-/

namespace RobotMachine

/-- The summary of two runs one after the other, of which the first did not halt. -/
def RunSummary.followedBy (s t : RunSummary) : RunSummary :=
  { steps := s.steps + t.steps, halted := t.halted, stores := s.stores ++ t.stores }

namespace Emulator

variable {e e' : Emulator} {stores : List Store}

/-! ## Calls of the step -/

/-- The emulator after a number of calls of the step, whatever they answer. -/
def afterSteps (e : Emulator) (count : Nat) : Emulator :=
  (fun e => e.step.2)^[count] e

/-- What a call of the step answers, counted from 0. -/
def stepAnswer (e : Emulator) (j : Nat) : Except MachineError StepReport :=
  (e.afterSteps j).step.1

/-- The call fails, or it halts the machine. -/
def StopsAt (e : Emulator) (j : Nat) : Prop :=
  (∃ err, e.stepAnswer j = .error err) ∨ (e.afterSteps (j + 1)).state = .halted

/-- The numbers of calls, up to a budget, that are made without a call behind one that stops. -/
def Unstopped (e : Emulator) (budget : Nat) : Set Nat :=
  {count | count ≤ budget ∧ ∀ j, j + 1 < count → ¬ e.StopsAt j}

/-- A run of a number of calls answers the sum of their reports, or with the fault of the last. -/
inductive Sums (e : Emulator) (count : Nat) : Except MachineError RunSummary → Prop
  | reports {reports : List StepReport} :
    (List.range count).map e.stepAnswer = reports.map .ok →
      Sums e count (.ok {
        steps := count
        halted := (e.afterSteps count).state == .halted
        stores := reports.flatMap (·.stores) })
  | fault {last : Nat} {err : MachineError} :
    count = last + 1 → e.stepAnswer last = .error err → err.isFault = true →
      Sums e count (.error err)

theorem sums_zero (e : Emulator) : e.Sums 0 (.ok ⟨0, e.state == .halted, []⟩) :=
  @Sums.reports e 0 [] rfl

theorem step_of_tick_ok (ticked : e.tick = (.ok stores, e')) :
    e.step = (.ok (e'.report stores), e') := by
  rw [step_eq, ticked]
  rfl

theorem step_of_tick_error {err : MachineError} (ticked : e.tick = (.error err, e')) :
    e.step = (.error err, e') := by
  rw [step_eq, ticked]
  rfl

section

variable {answer : Except MachineError StepReport} (stepped : e.step = (answer, e'))

include stepped

theorem afterSteps_succ (count : Nat) : e.afterSteps (count + 1) = e'.afterSteps count := by
  rw [afterSteps, Function.iterate_succ_apply, stepped]
  rfl

theorem stepAnswer_zero : e.stepAnswer 0 = answer := by
  rw [stepAnswer, afterSteps, Function.iterate_zero_apply, stepped]

theorem stepAnswer_succ (j : Nat) : e.stepAnswer (j + 1) = e'.stepAnswer j := by
  rw [stepAnswer, afterSteps_succ stepped, stepAnswer]

end

/-- A report in front of others. -/
theorem Sums.after {count : Nat} {answer : Except MachineError RunSummary}
    (ticked : e.tick = (.ok stores, e')) (sums : e'.Sums count answer) :
    e.Sums (count + 1) (answer.map (·.after stores)) := by
  have stepped := step_of_tick_ok ticked
  cases sums with
  | @reports reports answers =>
    have all : (List.range (count + 1)).map e.stepAnswer =
        (e'.report stores :: reports).map .ok := by
      rw [List.range_succ_eq_map, List.map_cons, List.map_map, stepAnswer_zero stepped,
        List.map_cons, ← answers]
      congr 1
      exact List.map_congr_left fun j _ => stepAnswer_succ stepped j
    have sums := Sums.reports all
    rw [afterSteps_succ stepped] at sums
    exact sums
  | @fault last err count_eq failed isFault =>
    have failedLater : e.stepAnswer (last + 1) = .error err := by
      rw [stepAnswer_succ stepped]
      exact failed
    have later : count + 1 = last + 1 + 1 := by rw [count_eq]
    exact .fault later failedLater isFault

theorem isGreatest_unstopped_zero (e : Emulator) : IsGreatest (e.Unstopped 0) 0 :=
  ⟨⟨Nat.le_refl 0, nofun⟩, fun _ unstopped => unstopped.1⟩

/-- No call is made behind one that stops. -/
theorem isGreatest_unstopped_of_stopsAt {budget : Nat} (stops : e.StopsAt 0) :
    IsGreatest (e.Unstopped (budget + 1)) 1 := by
  refine ⟨⟨Nat.succ_le_succ (Nat.zero_le budget), fun j below => ?_⟩, fun count unstopped => ?_⟩
  · cases Nat.lt_of_succ_lt_succ below
  · by_contra more
    exact unstopped.2 0 (Nat.lt_of_not_le more) stops

/-- A call that does not stop comes in front of as many as there may be behind it. -/
theorem isGreatest_unstopped_succ {answer : Except MachineError StepReport} {budget count : Nat}
    (stepped : e.step = (answer, e')) (goesOn : ¬ e.StopsAt 0)
    (greatest : IsGreatest (e'.Unstopped budget) count) :
    IsGreatest (e.Unstopped (budget + 1)) (count + 1) := by
  have later (j : Nat) : e.StopsAt (j + 1) ↔ e'.StopsAt j := by
    rw [StopsAt, stepAnswer_succ stepped, afterSteps_succ stepped, StopsAt]
  obtain ⟨⟨le, unstopped⟩, most⟩ := greatest
  refine ⟨⟨Nat.succ_le_succ le, fun j below => ?_⟩, fun other ⟨le', unstopped'⟩ => ?_⟩
  · cases j with
    | zero => exact goesOn
    | succ j =>
      rw [later]
      exact unstopped j (Nat.lt_of_succ_lt_succ below)
  · cases other with
    | zero => exact Nat.zero_le _
    | succ other =>
      refine Nat.succ_le_succ (most ⟨Nat.le_of_succ_le_succ le', fun j below => ?_⟩)
      rw [← later]
      exact unstopped' (j + 1) (Nat.succ_lt_succ below)

/-! ## Runs -/

theorem canStep_of_tick (ticked : e.tick = (.ok stores, e')) (goesOn : e'.state ≠ .halted) :
    e'.state.canStep = true := by
  obtain ⟨-, effects, record, -, rfl, -⟩ := tick_eq_ok ticked
  rw [advance] at goesOn ⊢
  split
  · next halted => exact absurd (if_pos halted) goesOn
  · rfl

theorem ne_halted_of_canStep (canStep : e.state.canStep = true) : e.state ≠ .halted := by
  intro halted
  rw [halted] at canStep
  cases canStep

theorem runSteps_of_halted (halted : e.state = .halted) (budget : Nat) :
    e.runSteps budget = (.ok ⟨0, e.state == .halted, []⟩, e) := by
  cases budget with
  | zero => rfl
  | succ budget =>
    rw [runSteps, if_pos halted, halted]
    rfl

/-- A run makes as many calls of the step as its budget allows and none behind one that stops. -/
theorem exists_sums_runSteps (canStep : e.state.canStep = true) (budget : Nat) :
    ∃ count, IsGreatest (e.Unstopped budget) count ∧
      (e.runSteps budget).2 = e.afterSteps count ∧ e.Sums count (e.runSteps budget).1 := by
  induction budget generalizing e with
  | zero => exact ⟨0, e.isGreatest_unstopped_zero, rfl, e.sums_zero⟩
  | succ budget ih =>
    rw [runSteps, if_neg (ne_halted_of_canStep canStep)]
    rcases ticked : e.tick with ⟨err | stores, e'⟩
    · have stepped := step_of_tick_error ticked
      have failed := stepAnswer_zero stepped
      have stops : e.StopsAt 0 := .inl ⟨err, failed⟩
      have isFault : err.isFault = true := by
        rcases tick_eq_error ticked with ⟨-, isFault, -⟩ | ⟨cannot, -⟩
        · exact isFault
        · rw [canStep] at cannot
          cases cannot
      exact ⟨1, isGreatest_unstopped_of_stopsAt stops, (afterSteps_succ stepped 0).symm,
        .fault rfl failed isFault⟩
    · have stepped := step_of_tick_ok ticked
      by_cases halted : e'.state = .halted
      · have stops : e.StopsAt 0 := by
          refine .inr ?_
          rw [afterSteps_succ stepped]
          exact halted
        simp only [runSteps_of_halted halted]
        exact ⟨1, isGreatest_unstopped_of_stopsAt stops, (afterSteps_succ stepped 0).symm,
          e'.sums_zero.after ticked⟩
      · have goesOn : ¬ e.StopsAt 0 := by
          intro stops
          rcases stops with ⟨err, failed⟩ | halts
          · cases failed.symm.trans (stepAnswer_zero stepped)
          · rw [afterSteps_succ stepped] at halts
            exact halted halts
        obtain ⟨count, greatest, left, sums⟩ := ih (canStep_of_tick ticked halted)
        exact ⟨count + 1, isGreatest_unstopped_succ stepped goesOn greatest,
          left.trans (afterSteps_succ stepped count).symm, sums.after ticked⟩

theorem map_followedBy_zero (halted : Bool) (answer : Except MachineError RunSummary) :
    answer.map (RunSummary.followedBy ⟨0, halted, []⟩) = answer := by
  cases answer with
  | error err => rfl
  | ok t => simp only [Except.map, RunSummary.followedBy, Nat.zero_add, List.nil_append]

theorem map_followedBy_after (stores : List Store) (s : RunSummary)
    (answer : Except MachineError RunSummary) :
    answer.map (s.after stores).followedBy = (answer.map s.followedBy).map (·.after stores) := by
  cases answer with
  | error err => rfl
  | ok t =>
    simp only [Except.map, RunSummary.followedBy, RunSummary.after, List.append_assoc,
      Nat.add_right_comm]

/-- A run that does not halt leaves an emulator that can go on, and a longer run does. -/
theorem runSteps_add {a : Nat} {s : RunSummary} (canStep : e.state.canStep = true)
    (ran : e.runSteps a = (.ok s, e')) (unhalted : s.halted = false) (b : Nat) :
    e'.state.canStep = true ∧
      e.runSteps (a + b) = ((e'.runSteps b).1.map s.followedBy, (e'.runSteps b).2) := by
  induction a generalizing e s with
  | zero =>
    cases ran
    refine ⟨canStep, ?_⟩
    rw [Nat.zero_add, map_followedBy_zero]
  | succ a ih =>
    rw [runSteps, if_neg (ne_halted_of_canStep canStep)] at ran
    rcases ticked : e.tick with ⟨err | stores, next⟩
    · rw [ticked] at ran
      cases ran
    · rw [ticked] at ran
      obtain ⟨answer, left⟩ := Prod.mk.inj ran
      obtain ⟨later, rest, rfl⟩ := Except.map_eq_ok_iff.mp answer
      have goesOn : next.state ≠ .halted := by
        intro halted
        rw [runSteps_of_halted halted, halted] at rest
        cases rest
        cases unhalted
      obtain ⟨canGoOn, added⟩ := ih (canStep_of_tick ticked goesOn) (Prod.ext rest left) unhalted
      refine ⟨canGoOn, ?_⟩
      rw [Nat.succ_add, runSteps, if_neg (ne_halted_of_canStep canStep), ticked]
      simp only [added, map_followedBy_after]

/-- **A run is the step iterated, and splits at any budget.** A run from a ready or running emulator
makes the largest number of calls of the step, up to its budget, of which none but the last halts
the machine or fails. It leaves what they leave, and it answers with the fault of the last call or
with the number of calls and their stores in order. So if a run neither fails nor halts, a second
one behind it leaves and answers what one run with both budgets does, where the numbers of steps add
up and the stores follow on each other. -/
theorem run_iterates_step (active : e.state = .ready ∨ e.state = .running) :
    (∀ n, ∃ count,
      IsGreatest {count | count ≤ n ∧ ∀ j, j + 1 < count → ¬ e.StopsAt j} count ∧
        (e.run n).2 = e.afterSteps count ∧ e.Sums count (e.run n).1) ∧
      ∀ a b s e', e.run a = (.ok s, e') → s.halted = false →
        e.run (a + b) = ((e'.run b).1.map s.followedBy, (e'.run b).2) := by
  have canStep := Lifecycle.canStep_iff.mpr active
  have run_eq (n : Nat) : e.run n = e.runSteps n := if_pos canStep
  constructor
  · intro n
    rw [run_eq]
    exact exists_sums_runSteps canStep n
  · intro a b s e' ran unhalted
    rw [run_eq] at ran ⊢
    obtain ⟨canGoOn, added⟩ := runSteps_add canStep ran unhalted b
    rw [added, run, if_pos canGoOn]

/-- The third instruction branches out of the program, so the fourth call fails. -/
theorem run_iterates_step_stackStart :
    stackStart.state = .ready ∧
      (∃ count, IsGreatest {count | count ≤ 9 ∧ ∀ j, j + 1 < count → ¬ stackStart.StopsAt j} count ∧
        (stackStart.run 9).2 = stackStart.afterSteps count ∧
        stackStart.Sums count (stackStart.run 9).1) ∧
      ∃ s, stackStart.run 2 = (.ok s, (stackStart.run 2).2) ∧ s.halted = false ∧
        stackStart.run (2 + 7) = (((stackStart.run 2).2.run 7).1.map s.followedBy,
          ((stackStart.run 2).2.run 7).2) := by
  have ready : stackStart.state = .ready := by decide +kernel
  let s : RunSummary := ⟨2, false, [⟨0x20ffc, [0, 16, 2, 0]⟩]⟩
  have succeeds : (stackStart.run 2).1 = .ok s := by decide +kernel
  have ran : stackStart.run 2 = (.ok s, (stackStart.run 2).2) := by
    rw [← succeeds]
  obtain ⟨iterates, splits⟩ := run_iterates_step (.inl ready)
  exact ⟨ready, iterates 9, s, ran, rfl, splits 2 7 s _ ran rfl⟩

end Emulator

end RobotMachine
