import RobotMachine.Console.Trace
import RobotMachine.Proofs.IteratedSteps
import RobotMachine.Proofs.SequentialService

/-!
# Traced runs

The service makes a plain run by itself and looks at its own state to see whether the machine has
halted. A traced run is made by a client that sends three requests for every step: for the
registers, for the word at the program counter, and for the step. It keeps the summary of the steps
so far and learns from a report that the machine has halted. Neither loop calls the other, yet they
answer the same and leave the same emulator.

* `Emulator.Shows`: what a client is shown in front of a step.
* `Emulator.TracesRun`: a client that traces a run by single requests.
* `Emulator.tracesRun_iff`: it traces what `Emulator.trace` does, and nothing else.
* `Emulator.trace_snd`: a trace makes the steps of a run.
* `Emulator.traced_run_is_run`: the two together, for a ready emulator.
-/

namespace RobotMachine

/-- What a client makes of the answer when it asks for the bytes of a word. -/
def Glimpse.ofAnswer : Except ServiceError Answer → Glimpse
  | .ok (.bytes bytes) =>
    match Instruction.decode (.ofNat (LittleEndian.number bytes)) with
    | .ok i => .instruction i
    | .error fault => .undecodable fault
  | _ => .unreadable

namespace Emulator

variable {e left looked : Emulator} {stores : List Store} {budget : Nat}

/-! ## The client -/

/-- A client asks for the registers and then for the word at the program counter. This is the
program counter, what it takes the word for, and the emulator that the requests leave. -/
inductive Shows (e : Emulator) : UInt32 → Glimpse → Emulator → Prop
  | intro {file : RegisterFile} {asked looked : Emulator} {answer : Except ServiceError Answer} :
    Request.registers.serve .never e = (.ok (.registers file), asked) →
      (Request.readMemory file.pc wordSize).serve .never asked = (answer, looked) →
        Shows e file.pc (.ofAnswer answer) looked

/-- A client traces a run, with a summary of the steps it has made. It ends when they are as many as
it may make, when a step fails, and when a report says that the machine has halted. -/
inductive TracesRun (budget : Nat) :
    RunSummary → Emulator → List TraceStep → Served RunSummary → Prop
  | spent {s : RunSummary} {e : Emulator} :
    budget ≤ s.steps → TracesRun budget s e [] (.ok s, e)
  | fails {s : RunSummary} {e looked left : Emulator} {pc : UInt32} {glimpse : Glimpse}
      {err : ServiceError} :
    s.steps < budget → e.Shows pc glimpse looked →
      Request.step.serve .never looked = (.error err, left) →
        TracesRun budget s e [⟨pc, glimpse, []⟩] (.error err, left)
  | halts {s : RunSummary} {e looked left : Emulator} {pc : UInt32} {glimpse : Glimpse}
      {r : StepReport} :
    s.steps < budget → e.Shows pc glimpse looked →
      Request.step.serve .never looked = (.ok (.report r), left) → r.snapshot.state = .halted →
        TracesRun budget s e [⟨pc, glimpse, commandsOf r.stores⟩]
          (.ok ⟨s.steps + 1, true, s.stores ++ r.stores⟩, left)
  | goesOn {s : RunSummary} {e looked left : Emulator} {pc : UInt32} {glimpse : Glimpse}
      {r : StepReport} {steps : List TraceStep} {served : Served RunSummary} :
    s.steps < budget → e.Shows pc glimpse looked →
      Request.step.serve .never looked = (.ok (.report r), left) → r.snapshot.state ≠ .halted →
        TracesRun budget ⟨s.steps + 1, s.halted, s.stores ++ r.stores⟩ left steps served →
          TracesRun budget s e (⟨pc, glimpse, commandsOf r.stores⟩ :: steps) served

/-- A request for the word at the program counter shows what stands there. -/
theorem exists_readMemory (e : Emulator) :
    ∃ answer, (Request.readMemory e.machine.pc wordSize).serve .never e = (answer, e) ∧
      .ofAnswer answer = e.glimpse := by
  refine ⟨_, rfl, ?_⟩
  rw [readMemory, glimpse, Memory.readWord]
  cases e.machine.memory.read e.machine.pc wordSize with
  | error fault => rfl
  | ok bytes => rfl

/-- Looking shows what stands at the program counter and changes nothing. -/
theorem shows_iff {pc : UInt32} {glimpse : Glimpse} :
    e.Shows pc glimpse looked ↔ pc = e.machine.pc ∧ glimpse = e.glimpse ∧ looked = e := by
  have asks : Request.registers.serve .never e = (.ok (.registers e.machine.registers), e) := rfl
  obtain ⟨answer, reads, answer_eq⟩ := e.exists_readMemory
  constructor
  · intro shown
    cases shown with
    | intro asked read =>
      cases asks.symm.trans asked
      cases reads.symm.trans read
      exact ⟨rfl, answer_eq, rfl⟩
  · intro ⟨pc_eq, glimpse_eq, looked_eq⟩
    rw [pc_eq, glimpse_eq, looked_eq, ← answer_eq]
    exact .intro asks reads

theorem serve_step_of_tick_ok (ticked : e.tick = (.ok stores, left)) :
    Request.step.serve .never e = (.ok (.report (left.report stores)), left) := by
  rw [Request.serve_never, perform, step_of_tick_ok ticked]
  rfl

theorem serve_step_of_tick_error {cause : MachineError} (ticked : e.tick = (.error cause, left)) :
    Request.step.serve .never e = (.error (.machine cause), left) := by
  rw [Request.serve_never, perform, step_of_tick_error ticked]
  rfl

/-- The report of a step tells the stores that the emulator made in it. -/
theorem exists_tick_of_report {r : StepReport}
    (served : Request.step.serve .never e = (.ok (.report r), left)) :
    ∃ stores, e.tick = (.ok stores, left) ∧ r = left.report stores := by
  rcases ticked : e.tick with ⟨cause | stores, next⟩
  · rw [serve_step_of_tick_error ticked] at served
    cases served
  · rw [serve_step_of_tick_ok ticked] at served
    cases served
    exact ⟨stores, rfl, rfl⟩

theorem exists_tick_of_refusal {err : ServiceError}
    (served : Request.step.serve .never e = (.error err, left)) :
    ∃ cause, e.tick = (.error cause, left) ∧ err = .machine cause := by
  rcases ticked : e.tick with ⟨cause | stores, next⟩
  · rw [serve_step_of_tick_error ticked] at served
    cases served
    exact ⟨cause, rfl, rfl⟩
  · rw [serve_step_of_tick_ok ticked] at served
    cases served

/-! ## The trace -/

/-- A step of a trace that gave some stores. -/
def shown (e : Emulator) (stores : List Store) : TraceStep :=
  ⟨e.machine.pc, e.glimpse, commandsOf stores⟩

theorem trace_of_tick_error {err : MachineError} (ticked : e.tick = (.error err, left)) :
    e.trace (budget + 1) = ([e.shown []], .error err, left) := by
  rw [trace, ticked]
  rfl

theorem trace_of_halted (ticked : e.tick = (.ok stores, left)) (halted : left.state = .halted) :
    e.trace (budget + 1) = ([e.shown stores], .ok ⟨1, true, stores⟩, left) := by
  rw [trace, ticked]
  simp only [if_pos halted]
  rfl

theorem trace_of_goesOn (ticked : e.tick = (.ok stores, left)) (goesOn : left.state ≠ .halted) :
    e.trace (budget + 1) = (e.shown stores :: (left.trace budget).1,
      (left.trace budget).2.1.map (·.after stores), (left.trace budget).2.2) := by
  rw [trace, ticked]
  simp only [if_neg goesOn]
  rfl

/-- A trace makes the steps of a run. -/
theorem trace_snd (running : e.state ≠ .halted) (budget : Nat) :
    (e.trace budget).2 = e.runSteps budget := by
  induction budget generalizing e with
  | zero =>
    have unhalted : (e.state == .halted) = false := beq_false_of_ne running
    rw [trace, runSteps, unhalted]
  | succ budget ih =>
    rw [runSteps, if_neg running]
    rcases ticked : e.tick with ⟨err | stores, left⟩
    · rw [trace_of_tick_error ticked]
    · by_cases halted : left.state = .halted
      · rw [trace_of_halted ticked halted]
        -- the plain run does not see it here but in front of a next step, which it does not make
        have alone : (⟨1, true, stores⟩ : RunSummary) = RunSummary.after stores ⟨0, true, []⟩ := by
          rw [RunSummary.after, List.append_nil]
        simp only [runSteps_of_halted halted, halted, alone]
        rfl
      · rw [trace_of_goesOn ticked halted]
        simp only [ih halted]

/-! ## The client and the trace -/

/-- What a client shows and answers that has made some steps before a trace. -/
def traceAfter (s : RunSummary) (remaining : Nat) (e : Emulator) :
    List TraceStep × Served RunSummary :=
  ((e.trace remaining).1, .ofAttempt s.followedBy (e.trace remaining).2)

variable {s : RunSummary} {remaining : Nat}

theorem traceAfter_zero (unhalted : s.halted = false) (e : Emulator) :
    e.traceAfter s 0 = ([], .ok s, e) := by
  have same : s.followedBy ⟨0, false, []⟩ = s := by
    rw [RunSummary.followedBy, ← unhalted, List.append_nil]
    rfl
  rw [traceAfter, trace, Served.ofAttempt, Except.map, same]
  rfl

theorem traceAfter_of_tick_error {cause : MachineError} (ticked : e.tick = (.error cause, left)) :
    e.traceAfter s (remaining + 1) = ([e.shown []], .error (.machine cause), left) := by
  rw [traceAfter, trace_of_tick_error ticked]
  rfl

theorem traceAfter_of_halted (ticked : e.tick = (.ok stores, left))
    (halted : left.state = .halted) :
    e.traceAfter s (remaining + 1) =
      ([e.shown stores], .ok ⟨s.steps + 1, true, s.stores ++ stores⟩, left) := by
  rw [traceAfter, trace_of_halted ticked halted]
  rfl

/-- The summary of the steps so far takes in the stores of the next one. -/
theorem followedBy_after (s t : RunSummary) (stores : List Store) :
    s.followedBy (t.after stores) =
      RunSummary.followedBy ⟨s.steps + 1, s.halted, s.stores ++ stores⟩ t := by
  simp only [RunSummary.followedBy, RunSummary.after, List.append_assoc, Nat.add_assoc,
    Nat.add_comm 1]

theorem traceAfter_of_goesOn (ticked : e.tick = (.ok stores, left))
    (goesOn : left.state ≠ .halted) :
    e.traceAfter s (remaining + 1) =
      (e.shown stores :: (left.traceAfter ⟨s.steps + 1, s.halted, s.stores ++ stores⟩ remaining).1,
        (left.traceAfter ⟨s.steps + 1, s.halted, s.stores ++ stores⟩ remaining).2) := by
  rw [traceAfter, trace_of_goesOn ticked goesOn, traceAfter]
  rcases left.trace remaining with ⟨steps, err | t, last⟩
  · rfl
  · simp only [Served.ofAttempt, Except.map, followedBy_after]

theorem tracesRun_traceAfter (unhalted : s.halted = false)
    (budget_eq : budget = s.steps + remaining) :
    TracesRun budget s e (e.traceAfter s remaining).1 (e.traceAfter s remaining).2 := by
  induction remaining generalizing s e with
  | zero =>
    rw [traceAfter_zero unhalted]
    exact .spent (Nat.le_of_eq budget_eq)
  | succ remaining ih =>
    have room : s.steps < budget := by omega
    have looks : e.Shows e.machine.pc e.glimpse e := shows_iff.mpr ⟨rfl, rfl, rfl⟩
    rcases ticked : e.tick with ⟨cause | stores, left⟩
    · rw [traceAfter_of_tick_error ticked]
      exact .fails room looks (serve_step_of_tick_error ticked)
    · have served := serve_step_of_tick_ok ticked
      by_cases halted : left.state = .halted
      · rw [traceAfter_of_halted ticked halted]
        exact .halts room looks served halted
      · rw [traceAfter_of_goesOn ticked halted]
        have later : budget = s.steps + 1 + remaining := by omega
        exact .goesOn room looks served halted (ih unhalted later)

theorem TracesRun.eq_traceAfter {steps : List TraceStep} {served : Served RunSummary}
    (unhalted : s.halted = false) (traces : TracesRun budget s e steps served) :
    (steps, served) = e.traceAfter s (budget - s.steps) := by
  -- each way to go on or end is a branch of the trace, which counts the budget down instead of up
  induction traces with
  | spent spent => rw [Nat.sub_eq_zero_of_le spent, traceAfter_zero unhalted]
  | @fails s _ _ _ _ _ _ room looks served =>
    obtain ⟨rfl, rfl, rfl⟩ := shows_iff.mp looks
    obtain ⟨cause, ticked, rfl⟩ := exists_tick_of_refusal served
    rw [← Nat.sub_add_cancel (Nat.sub_pos_of_lt room), traceAfter_of_tick_error ticked]
    rfl
  | @halts s _ _ _ _ _ _ room looks served halted =>
    obtain ⟨rfl, rfl, rfl⟩ := shows_iff.mp looks
    obtain ⟨stores, ticked, rfl⟩ := exists_tick_of_report served
    rw [← Nat.sub_add_cancel (Nat.sub_pos_of_lt room), traceAfter_of_halted ticked halted]
    rfl
  | @goesOn s _ _ _ _ _ _ _ _ room looks served goesOn _ ih =>
    obtain ⟨rfl, rfl, rfl⟩ := shows_iff.mp looks
    obtain ⟨stores, ticked, rfl⟩ := exists_tick_of_report served
    obtain ⟨rfl, rfl⟩ := Prod.mk.inj (ih unhalted)
    rw [← Nat.sub_add_cancel (Nat.sub_pos_of_lt room), traceAfter_of_goesOn ticked goesOn,
      Nat.sub_sub]
    rfl

/-- A client that traces a run by single requests traces what the emulator does. -/
theorem tracesRun_iff {steps : List TraceStep} {served : Served RunSummary}
    (unhalted : s.halted = false) (within : s.steps ≤ budget) :
    TracesRun budget s e steps served ↔ (steps, served) = e.traceAfter s (budget - s.steps) := by
  constructor
  · exact TracesRun.eq_traceAfter unhalted
  · intro same
    have traces : TracesRun budget s e (e.traceAfter s (budget - s.steps)).1
        (e.traceAfter s (budget - s.steps)).2 :=
      tracesRun_traceAfter unhalted (Nat.add_sub_cancel' within).symm
    rw [← same] at traces
    exact traces

theorem traceAfter_nothing (e : Emulator) (budget : Nat) :
    e.traceAfter ⟨0, false, []⟩ budget = ((e.trace budget).1, .ofAttempt id (e.trace budget).2) := by
  rw [traceAfter, Served.ofAttempt, map_followedBy_zero]
  rcases e.trace budget with ⟨steps, err | t, last⟩
  · rfl
  · rfl

/-- **Tracing does not change the run.** From a ready emulator and with any budget, a client that
traces a run by single requests, with nothing made before, ends in one way only. It shows the steps
of `Emulator.trace`, and it is answered what that answers. A request to run with the same budget has
the same answer, which is a summary or an error, and leaves the same emulator. -/
theorem traced_run_is_run (ready : e.state = .ready) (budget : Nat) :
    ∃ traced : Served RunSummary,
      (∀ steps served, TracesRun budget ⟨0, false, []⟩ e steps served ↔
        steps = (e.trace budget).1 ∧ served = traced) ∧
      traced = .ofAttempt id (e.trace budget).2 ∧
      Served.map .summary traced = (Request.run budget).serve .never e := by
  have canStep : e.state.canStep = true := Lifecycle.canStep_iff.mpr (.inl ready)
  have sameRun : (e.trace budget).2 = e.run budget := by
    rw [trace_snd (ne_halted_of_canStep canStep), run, if_pos canStep]
  refine ⟨_, fun steps served => ?_, rfl, ?_⟩
  · rw [tracesRun_iff rfl (Nat.zero_le budget), Nat.sub_zero, traceAfter_nothing, Prod.mk.injEq]
  · rw [sameRun, Served.map_ofAttempt, Request.serve_never]
    rfl

/-- The fourth step of the trace is shown and then fails, as it does in the plain run. -/
theorem traced_run_is_run_stackStart :
    stackStart.state = .ready ∧ (stackStart.trace 9).1.length = 4 ∧
      ∃ traced : Served RunSummary,
        (∀ steps served, TracesRun 9 ⟨0, false, []⟩ stackStart steps served ↔
          steps = (stackStart.trace 9).1 ∧ served = traced) ∧
        traced = .ofAttempt id (stackStart.trace 9).2 ∧
        Served.map .summary traced = (Request.run 9).serve .never stackStart := by
  have ready : stackStart.state = .ready := by decide +kernel
  have lines : (stackStart.trace 9).1.length = 4 := by decide +kernel
  exact ⟨ready, lines, traced_run_is_run ready 9⟩

end Emulator

end RobotMachine
