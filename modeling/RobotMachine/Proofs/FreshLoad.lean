import RobotMachine.Proofs.FailingCalls
import RobotMachine.Service.Request

/-!
# Loads that start afresh

A load clears the emulator part by part before anything else, and can end early in five ways: it is
cancelled before it starts or at its pause, the source does not assemble, or the code or the data
does not fit. Here it is followed in the order in which it changes the emulator. Every exit leaves a
cleared emulator, and a load that gets through leaves a cleared emulator with the program loaded, so
what was there before shows neither in the answer nor in the emulator.

* `Emulator.resetInPlace_eq`: clearing leaves no part as it was.
* `Emulator.load_all_or_nothing`: what a load answers and leaves.
-/

namespace RobotMachine

/-- Fills one region after the other with zeros. -/
def Memory.clear (m : Memory) : Memory :=
  Region.all.foldl (fun m r => m.setBank r ((m.bank r).map fun _ => 0)) m

/-- Zeroes the registers and the memory. -/
def Machine.clear (m : Machine) : Machine :=
  { m with registers := {}, memory := m.memory.clear }

theorem Memory.clear_eq (m : Memory) : m.clear = {} := by
  apply ext_bank
  intro r
  have zeros : ∀ bank : Bank, (bank.map fun _ => (0 : UInt8)) = Vector.replicate regionSize 0 :=
    fun _ => Vector.map_const'
  cases r with
  | code => exact zeros m.code
  | stack => exact zeros m.stack
  | data => exact zeros m.data

/-! ## Loads in place -/

namespace Emulator

/-- Clears the machine, drops the history, the code and its line map, and then becomes ready. -/
def resetInPlace (e : Emulator) : Emulator :=
  let e := { e with machine := e.machine.clear }
  let e := { e with history := [] }
  let e := { e with codeLength := 0, lines := [] }
  { e with state := .ready }

/-- Loading a program in place, after some pauses: an emulator that refuses the program is cleared
once more. -/
def serveLoadInPlace (e : Emulator) (c : Cancellation) (pauses : Nat) (p : Program) :
    Served StepReport :=
  let e := e.resetInPlace
  if c.isDue pauses then (.error .cancelled, e)
  else
    match e.loadProgramInPlace p with
    | (.ok (), e) => (.ok (e.report []), e)
    | (.error err, e) => (.error (.machine err), e.resetInPlace)

/-- Loading a source in place: it looks for a cancellation before and after it is assembled. -/
def serveLoadSourceInPlace (e : Emulator) (c : Cancellation) (source : String) :
    Served StepReport :=
  let e := e.resetInPlace
  if c.isDue 0 then (.error .cancelled, e)
  else
    match assemble source with
    | .error err => (.error (.assembly err), e)
    | .ok p => if c.isDue 1 then (.error .cancelled, e) else e.serveLoadInPlace c 1 p

theorem resetInPlace_eq (e : Emulator) : e.resetInPlace = e.reset := by
  rw [resetInPlace, Machine.clear, Memory.clear_eq]
  rfl

theorem serveLoadInPlace_eq (e : Emulator) (c : Cancellation) (pauses : Nat) (p : Program) :
    e.serveLoadInPlace c pauses p = e.serveLoad c pauses p := by
  simp only [serveLoadInPlace, serveLoad, resetInPlace_eq, loadProgramInPlace_eq]
  split
  · rfl
  · cases e.reset.loadProgram p with
    | ok loaded => rfl
    | error err => rfl

theorem serveLoadSourceInPlace_eq (e : Emulator) (c : Cancellation) (source : String) :
    e.serveLoadSourceInPlace c source = e.serveLoadSource c source := by
  simp only [serveLoadSourceInPlace, serveLoadSource, resetInPlace_eq, serveLoadInPlace_eq]
  split
  · rfl
  · cases assemble source with
    | error err => rfl
    | ok p =>
      -- the program is only loaded if there is no cancellation, which is looked for once more then
      by_cases due : c.isDue 1 = true
      · simp only [serveLoad, if_pos due]
      · simp only [serveLoad, if_neg due]
        rfl

end Emulator

/-- A request in place. -/
def Request.serveInPlace (c : Cancellation) (e : Emulator) : Request → Served Answer
  | loadSource source => Served.map .report (e.serveLoadSourceInPlace c source)
  | loadProgram p => Served.map .report (e.serveLoadInPlace c 0 p)
  | r => r.serve c e

theorem Request.serveInPlace_eq (c : Cancellation) (e : Emulator) (r : Request) :
    r.serveInPlace c e = r.serve c e := by
  unfold serveInPlace
  split
  · rw [e.serveLoadSourceInPlace_eq, serve]
  · rw [e.serveLoadInPlace_eq, serve]
  · rfl

/-! ## Outcomes of loads -/

/-- The program that a request is to load, if it is a load. A source may fail to give one. -/
def Request.toLoad? : Request → Option (Except AssemblyError Program)
  | loadSource source => some (assemble source)
  | loadProgram p => some (.ok p)
  | _ => none

/-- Why a load of a program fails. -/
inductive LoadFailure (c : Cancellation) : Except AssemblyError Program → ServiceError → Prop
  | cancelled {program : Except AssemblyError Program} :
    c ≠ .never → LoadFailure c program .cancelled
  | noProgram {err : AssemblyError} : LoadFailure c (.error err) (.assembly err)
  | dataTooLarge {p : Program} :
    regionSize < p.data.length → LoadFailure c (.ok p) (.machine (.dataTooLarge p.data.length))
  | codeTooLarge {p : Program} :
    regionWords < p.code.length →
      LoadFailure c (.ok p) (.machine (.programTooLarge p.code.length))

theorem Cancellation.ne_never_of_isDue {c : Cancellation} {pauses : Nat}
    (due : c.isDue pauses = true) : c ≠ .never := by
  rintro rfl
  cases due

namespace Emulator

variable {e : Emulator} {p : Program} {c : Cancellation}

/-- A ready emulator refuses a program for its size and for nothing else. -/
theorem loadFailure_of_loadProgram {err : MachineError} (ready : e.state = .ready)
    (failed : e.loadProgram p = .error err) : LoadFailure c (.ok p) (.machine err) := by
  rw [loadProgram, if_neg (not_not_intro ready)] at failed
  split at failed
  · next large =>
    cases failed
    exact .dataTooLarge large
  · next fits =>
    rw [Nat.not_lt] at fits
    rcases Except.bind_eq_error_iff.mp failed with noCode | ⟨loaded, -, noData⟩
    · rw [loadCode, if_neg (not_not_intro ready)] at noCode
      split at noCode
      · next large =>
        cases noCode
        exact .codeTooLarge large
      · cases noCode
    · have written := loaded.machine.memory.write_of_isWritable (Store.isWritable_dataBase fits)
      rw [written] at noData
      cases noData

theorem serveLoad_cases (e : Emulator) (c : Cancellation) (pauses : Nat) (p : Program) :
    (∃ loaded, initial.loadProgram p = .ok loaded ∧
      e.serveLoad c pauses p = (.ok (loaded.report []), loaded)) ∨
    ∃ err, LoadFailure c (.ok p) err ∧ e.serveLoad c pauses p = (.error err, initial) := by
  rw [serveLoad, reset]
  split
  · next due => exact .inr ⟨.cancelled, .cancelled (Cancellation.ne_never_of_isDue due), rfl⟩
  · cases outcome : initial.loadProgram p with
    | ok loaded => exact .inl ⟨loaded, rfl, rfl⟩
    | error err => exact .inr ⟨.machine err, loadFailure_of_loadProgram rfl outcome, rfl⟩

theorem serveLoadSource_cases (e : Emulator) (c : Cancellation) (source : String) :
    (∃ p loaded, assemble source = .ok p ∧ initial.loadProgram p = .ok loaded ∧
      e.serveLoadSource c source = (.ok (loaded.report []), loaded)) ∨
    ∃ err, LoadFailure c (assemble source) err ∧
      e.serveLoadSource c source = (.error err, initial) := by
  rw [serveLoadSource]
  split
  · next due => exact .inr ⟨.cancelled, .cancelled (Cancellation.ne_never_of_isDue due), rfl⟩
  · cases assemble source with
    | error err => exact .inr ⟨.assembly err, .noProgram, rfl⟩
    | ok p =>
      rcases e.serveLoad_cases c 1 p with ⟨loaded, fresh, served⟩ | ⟨err, failure, served⟩
      · exact .inl ⟨p, loaded, rfl, fresh, served⟩
      · exact .inr ⟨err, failure, served⟩

/-- A load either loads its program into a fresh emulator or leaves a fresh emulator. -/
theorem serve_load_cases (e : Emulator) (c : Cancellation) {r : Request}
    {program : Except AssemblyError Program} (load : r.toLoad? = some program) :
    (∃ p loaded, program = .ok p ∧ initial.loadProgram p = .ok loaded ∧
      r.serve c e = (.ok (.report (loaded.report [])), loaded)) ∨
    ∃ err, LoadFailure c program err ∧ r.serve c e = (.error err, initial) := by
  cases r with
  | loadSource source =>
    cases load
    rcases e.serveLoadSource_cases c source with
      ⟨p, loaded, assembled, fresh, served⟩ | ⟨err, failure, served⟩
    · exact .inl ⟨p, loaded, assembled, fresh, by rw [Request.serve, served]; rfl⟩
    · exact .inr ⟨err, failure, by rw [Request.serve, served]; rfl⟩
  | loadProgram p =>
    cases load
    rcases e.serveLoad_cases c 0 p with ⟨loaded, fresh, served⟩ | ⟨err, failure, served⟩
    · exact .inl ⟨p, loaded, rfl, fresh, by rw [Request.serve, served]; rfl⟩
    · exact .inr ⟨err, failure, by rw [Request.serve, served]; rfl⟩
  | _ => cases load

/-- What a load answers and leaves does not depend on the emulator. -/
theorem serve_load_congr (c : Cancellation) {r : Request} {program : Except AssemblyError Program}
    (load : r.toLoad? = some program) (e other : Emulator) : r.serve c e = r.serve c other := by
  cases r with
  | loadSource source => rfl
  | loadProgram p => rfl
  | _ => cases load

/-- **A load leaks nothing, and it is all or nothing.** Whatever the emulator was and whenever a
cancellation arrives, a load that fails leaves what a reset makes of a new emulator, and a load that
succeeds leaves what loading the program makes of that. Two emulators that load the same cannot be
told apart. -/
theorem load_all_or_nothing (c : Cancellation) (e : Emulator) {r : Request}
    {program : Except AssemblyError Program} (load : r.toLoad? = some program) :
    r.serveInPlace c e = r.serve c e ∧
      (∀ answer e', r.serveInPlace c e = (.ok answer, e') →
        ∃ p, program = .ok p ∧ ({} : Emulator).resetInPlace.loadProgram p = .ok e' ∧
          answer = .report (e'.report [])) ∧
      (∀ err e', r.serveInPlace c e = (.error err, e') →
        e' = ({} : Emulator).resetInPlace ∧ LoadFailure c program err) ∧
      ∀ other : Emulator, r.serveInPlace c other = r.serveInPlace c e := by
  simp only [Request.serveInPlace_eq, resetInPlace_eq]
  refine ⟨trivial, ?_, ?_, fun other => serve_load_congr c load other e⟩
  · intro answer e' answered
    rcases e.serve_load_cases c load with ⟨p, loaded, rfl, fresh, served⟩ | ⟨err, -, served⟩
    · rw [served] at answered
      cases answered
      exact ⟨p, rfl, fresh, rfl⟩
    · rw [served] at answered
      cases answered
  · intro err e' answered
    rcases e.serve_load_cases c load with ⟨p, loaded, -, -, served⟩ | ⟨err', failure, served⟩
    · rw [served] at answered
      cases answered
    · rw [served] at answered
      cases answered
      exact ⟨rfl, failure⟩

/-- An emulator that has branched into the data region and faulted there. -/
def faultedMidRun : Emulator :=
  (((call {} .reset).2.call (.loadCode [0x01000000, 0x50030000])).2.call (.move (.run 9))).2

theorem load_all_or_nothing_faultedMidRun :
    faultedMidRun.state = .faulted ∧ faultedMidRun.history.length = 2 ∧
      (∃ p e', assemble "HALT" = .ok p ∧ ({} : Emulator).resetInPlace.loadProgram p = .ok e' ∧
        (Request.loadSource "HALT").serveInPlace (.atPause 2) faultedMidRun =
          (.ok (.report (e'.report [])), e')) ∧
      (Request.loadSource "HALT").serveInPlace (.atPause 1) faultedMidRun =
        (.error .cancelled, ({} : Emulator).resetInPlace) ∧
      (Request.loadSource "HALT").serveInPlace (.atPause 1) {} =
        (.error .cancelled, ({} : Emulator).resetInPlace) := by
  have load : (Request.loadSource "HALT").toLoad? = some (assemble "HALT") := rfl
  obtain ⟨-, loads, -, -⟩ := load_all_or_nothing (.atPause 2) faultedMidRun load
  obtain ⟨-, -, leaves, same⟩ := load_all_or_nothing (.atPause 1) faultedMidRun load
  have inTime : ((Request.loadSource "HALT").serveInPlace (.atPause 1) faultedMidRun).1 =
      .error .cancelled := by
    decide +kernel
  have tooLate : ((Request.loadSource "HALT").serveInPlace (.atPause 2) faultedMidRun).1.isOk =
      true := by
    decide +kernel
  have interrupted : (Request.loadSource "HALT").serveInPlace (.atPause 1) faultedMidRun =
      (.error .cancelled, ({} : Emulator).resetInPlace) := by
    obtain ⟨fresh, -⟩ := leaves _ _ (Prod.ext inTime rfl)
    exact Prod.ext inTime fresh
  refine ⟨by decide +kernel, by decide +kernel, ?_, interrupted, (same {}).trans interrupted⟩
  rcases served : (Request.loadSource "HALT").serveInPlace (.atPause 2) faultedMidRun with
    ⟨err | answer, e'⟩
  · rw [served] at tooLate
    cases tooLate
  · obtain ⟨p, assembled, fresh, rfl⟩ := loads answer e' served
    exact ⟨p, e', assembled, fresh, rfl⟩

end Emulator

end RobotMachine
