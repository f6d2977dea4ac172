import RobotMachine.Execution.Emulator
import RobotMachine.Proofs.Memory
import RobotMachine.Proofs.Outcome

/-!
# Undoing a step

A record holds registers and bytes as they were when it was captured. Restoring it brings the
machine back whatever happened since, as long as only what the record holds has changed: the order
of restoring does not matter, and repeated registers and overlapping ranges do no harm, because
every captured value of one place is the same.

* `StepRecord.restore_of_capture`: restoring undoes every change that the record covers.
* `Machine.agreeOutside_apply`: effects change only the registers and the ranges they name.
* `Emulator.undo_of_tick`: the newest record of an emulator takes back its last step.
-/

namespace RobotMachine

/-- The range of addresses that a store writes. -/
def Store.range (s : Store) : UInt32 × Nat :=
  (s.address, s.bytes.length)

/-! ## Memory -/

namespace Memory

/-- What is captured are the bytes of the ranges, in their order. -/
theorem capture_eq_ok {m : Memory} {ranges : List (UInt32 × Nat)} {stores : List Store}
    (captured : m.capture ranges = .ok stores) :
    stores.map Store.range = ranges ∧
      ∀ s ∈ stores, m.read s.address s.bytes.length = .ok s.bytes := by
  induction ranges generalizing stores with
  | nil =>
    cases captured
    exact ⟨rfl, fun _ member => nomatch member⟩
  | cons range ranges ih =>
    simp only [capture, Except.bind_eq_ok_iff, Except.pure_eq_ok_iff] at captured
    obtain ⟨bytes, read, older, rest, rfl⟩ := captured
    obtain ⟨sameRanges, held⟩ := ih rest
    have length : bytes.length = range.2 := (getElem_of_read read).1
    constructor
    · rw [List.map_cons, sameRanges, Store.range, length]
    · intro s member
      rcases List.mem_cons.mp member with rfl | member
      · rw [length]
        exact read
      · exact held s member

/-- Writing what was read from a range makes that range agree again. -/
theorem AgreeOutside.patch_back {m m' : Memory} {s : Store} {ranges : List (UInt32 × Nat)}
    (h : AgreeOutside (s.range :: ranges) m m')
    (held : m.read s.address s.bytes.length = .ok s.bytes) :
    AgreeOutside ranges m (m'.patch s.address s.bytes) := by
  intro r i hi outside
  have located := (read_eq_ok_iff m s.address s.bytes.length).mp ⟨_, held⟩
  obtain ⟨inside, kept⟩ := getElem_bank_patch (m := m') located r i hi
  by_cases covers : Covers s.address s.bytes.length (r.addressOf i)
  · have before := (getElem_of_read held).2 r i hi covers
    exact Option.some.inj ((inside covers).symm.trans before)
  · rw [kept covers]
    refine h r i hi fun range member => ?_
    rcases List.mem_cons.mp member with rfl | member
    · exact covers
    · exact outside range member

/-- Writes of listed ranges keep the agreement. -/
theorem AgreeOutside.patchAll {m m' : Memory} {ranges : List (UInt32 × Nat)}
    (h : AgreeOutside ranges m m') {stores : List Store}
    (members : ∀ s ∈ stores, s.range ∈ ranges) :
    AgreeOutside ranges m
      (stores.foldl (fun memory s => memory.patch s.address s.bytes) m') := by
  induction stores generalizing m' with
  | nil => exact h
  | cons s stores ih =>
    exact ih (h.patch (members s List.mem_cons_self)) fun t member =>
      members t (List.mem_cons_of_mem _ member)

/-- Stores that hold the bytes of one memory restore it in any order. -/
theorem restore_of_agreeOutside {m m' : Memory} {stores : List Store}
    (held : ∀ s ∈ stores, m.read s.address s.bytes.length = .ok s.bytes)
    (h : AgreeOutside (stores.map Store.range) m m') :
    Memory.restore stores m' = (.ok (), m) := by
  induction stores generalizing m' with
  | nil =>
    rw [h.eq]
    rfl
  | cons s stores ih =>
    have heldHead := held s List.mem_cons_self
    have located := (read_eq_ok_iff m s.address s.bytes.length).mp ⟨_, heldHead⟩
    have written : m'.write s.address s.bytes = .ok (m'.patch s.address s.bytes) := by
      rw [write, if_pos located]
    rw [Memory.restore, written]
    exact ih (fun t member => held t (List.mem_cons_of_mem _ member)) (h.patch_back heldHead)

end Memory

/-! ## Registers -/

namespace RegisterFile

theorem ext_get {f f' : RegisterFile} (values : ∀ r, f.get r = f'.get r) (pc : f.pc = f'.pc)
    (flags : f.flags = f'.flags) : f = f' := by
  cases f
  cases f'
  simp only [mk.injEq]
  exact ⟨Vector.ext fun i hi => values ⟨⟨i, hi⟩⟩, pc, flags⟩

/-- The two files have the same values in all registers but the listed ones. -/
def AgreeOutside (registers : List Register) (f f' : RegisterFile) : Prop :=
  ∀ r, r ∉ registers → f'.get r = f.get r

/-- Assigns values to registers, one after the other. -/
abbrev setAll (f : RegisterFile) (values : List (Register × UInt32)) : RegisterFile :=
  values.foldl (fun file (r, value) => file.set r value) f

/-- Assignments change only the registers they name. -/
theorem agreeOutside_setAll (f : RegisterFile) (values : List (Register × UInt32)) :
    AgreeOutside (values.map (·.1)) f (f.setAll values) := by
  induction values generalizing f with
  | nil => exact fun _ _ => rfl
  | cons entry values ih =>
    intro r outside
    rw [List.map_cons, List.mem_cons, not_or] at outside
    exact (ih (f.set entry.1 entry.2) r outside.2).trans (get_set_of_ne f outside.1 entry.2)

/-- Assigning to registers the values they have in a file makes them agree with it again. -/
theorem get_setAll_of_agreeOutside {f f' : RegisterFile} {values : List (Register × UInt32)}
    (held : ∀ entry ∈ values, entry.2 = f.get entry.1)
    (h : AgreeOutside (values.map (·.1)) f f') (r : Register) :
    (f'.setAll values).get r = f.get r := by
  induction values generalizing f' with
  | nil => exact h r List.not_mem_nil
  | cons entry values ih =>
    refine ih (fun e member => held e (List.mem_cons_of_mem _ member)) ?_
    intro s outside
    by_cases same : s = entry.1
    · subst same
      rw [get_set_self, held entry List.mem_cons_self]
    · rw [get_set_of_ne f' same]
      refine h s fun member => ?_
      rcases List.mem_cons.mp member with eq | member
      · exact same eq
      · exact outside member

end RegisterFile

/-! ## Machines -/

/-- The two machines differ at most in the program counter, the flags, the listed registers and
the bytes of the listed ranges. -/
def Machine.AgreeOutside (registers : List Register) (ranges : List (UInt32 × Nat))
    (m m' : Machine) : Prop :=
  m.registers.AgreeOutside registers m'.registers ∧ m.memory.AgreeOutside ranges m'.memory

/-- Effects change only what they name. -/
theorem Machine.agreeOutside_apply (m : Machine) (effects : Effects) :
    m.AgreeOutside (effects.registers.map (·.1)) (effects.stores.map Store.range)
      (m.apply effects) := by
  constructor
  · exact m.registers.agreeOutside_setAll effects.registers
  · exact (Memory.AgreeOutside.refl _ _).patchAll fun s member => List.mem_map_of_mem member

namespace StepRecord

/-- Restoring a record takes back every change to what the record holds. -/
theorem restore_of_capture {prior : Lifecycle} {m m' : Machine} {registers : List Register}
    {ranges : List (UInt32 × Nat)} {record : StepRecord}
    (captured : capture prior m registers ranges = .ok record)
    (h : m.AgreeOutside registers ranges m') :
    record.restore m' = (.ok (), m) := by
  obtain ⟨memory, bytes, rfl⟩ := Except.map_eq_ok_iff.mp captured
  obtain ⟨rfl, held⟩ := Memory.capture_eq_ok bytes
  have memoryBack : Memory.restore memory.reverse m'.memory = (.ok (), m.memory) := by
    refine Memory.restore_of_agreeOutside (fun s member => held s (List.mem_reverse.mp member)) ?_
    intro r i hi outside
    refine h.2 r i hi fun range member => outside range ?_
    rw [List.map_reverse]
    exact List.mem_reverse.mpr member
  -- a register may be written twice and then is held twice, each time with its first value
  have valuesBack : ∀ r, (m'.registers.setAll
      (registers.map fun r => (r, m.registers.get r)).reverse).get r = m.registers.get r :=
    RegisterFile.get_setAll_of_agreeOutside (by simp)
      (fun r outside => h.1 r (by simpa using outside))
  simp only [restore, memoryBack, Prod.mk.injEq, true_and]
  cases m
  rw [Machine.mk.injEq]
  exact ⟨RegisterFile.ext_get valuesBack rfl rfl, rfl⟩

theorem prior_of_capture {prior : Lifecycle} {m : Machine} {registers : List Register}
    {ranges : List (UInt32 × Nat)} {record : StepRecord}
    (captured : capture prior m registers ranges = .ok record) : record.prior = prior := by
  obtain ⟨memory, -, rfl⟩ := Except.map_eq_ok_iff.mp captured
  rfl

end StepRecord

namespace History

variable {m m' : Machine} {history history' : History}

theorem undo_eq_ok {state : Lifecycle} (undone : history.undo m = (.ok state, m', history')) :
    ∃ record, history = record :: history' ∧ record.prior = state ∧
      record.restore m = (.ok (), m') := by
  unfold undo at undone
  split at undone
  · cases undone
  · next record older =>
    split at undone
    · next restored =>
      cases undone
      exact ⟨record, rfl, rfl, restored⟩
    · cases undone

/-- A record that cannot be restored stays in the history. -/
theorem undo_eq_error {err : MachineError} (undone : history.undo m = (.error err, m', history')) :
    history' = history := by
  unfold undo at undone
  split at undone
  · cases undone
    rfl
  · split at undone
    · cases undone
    · cases undone
      rfl

end History

/-! ## Steps of an emulator -/

namespace Emulator

variable {e e' : Emulator} {stores : List Store}

theorem isFault_of_fetch {err : MachineError} (failed : e.fetch = .error err) :
    err.isFault = true := by
  simp only [fetch] at failed
  split at failed
  · cases failed
    rfl
  · split at failed
    · cases failed
      rfl
    · simp only [Except.bind_eq_error_iff, Except.mapError_eq_error_iff] at failed
      rcases failed with ⟨_, -, rfl⟩ | ⟨_, -, _, -, rfl⟩
      · rfl
      · rfl

/-- An instruction can fail to be fetched or executed, and in no other way. -/
theorem isFault_of_nextEffects {err : MachineError} (failed : e.nextEffects = .error err) :
    err.isFault = true := by
  simp only [nextEffects, Except.bind_eq_error_iff, Except.mapError_eq_error_iff] at failed
  rcases failed with fetch | ⟨_, -, ⟨_, -, rfl⟩ | ⟨_, -, ⟨_, -, rfl⟩ | ⟨_, -, none⟩⟩⟩
  · exact isFault_of_fetch fetch
  · rfl
  · rfl
  · cases none

/-- What a step that succeeds does: it applies the effects of the instruction at the program
counter and keeps a record from which the machine before the step can be restored. -/
theorem tick_eq_ok (ticked : e.tick = (.ok stores, e')) :
    e.state.canStep = true ∧
      ∃ effects record, effects.stores = stores ∧ e' = e.advance effects record ∧
        record.prior = e.state ∧
          record.restore (e.machine.apply effects) = (.ok (), e.machine) := by
  unfold tick at ticked
  split at ticked
  · next canStep =>
    refine ⟨canStep, ?_⟩
    split at ticked
    · next effects record next =>
      cases ticked
      simp only [nextEffects, Except.bind_eq_ok_iff, Except.pure_eq_ok_iff,
        Except.mapError_eq_ok_iff] at next
      obtain ⟨instruction, -, effects', -, record', captured, same⟩ := next
      cases same
      exact ⟨effects, record, rfl, rfl, StepRecord.prior_of_capture captured,
        StepRecord.restore_of_capture captured (e.machine.agreeOutside_apply effects)⟩
    · cases ticked
  · cases ticked

/-- A step that fails faults the emulator, or was not allowed and changes nothing. -/
theorem tick_eq_error {err : MachineError} (ticked : e.tick = (.error err, e')) :
    (e.state.canStep = true ∧ err.isFault = true ∧ e' = { e with state := .faulted }) ∨
      (e.state.canStep = false ∧ err = .notReady e.state ∧ e' = e) := by
  unfold tick at ticked
  split at ticked
  · next canStep =>
    split at ticked
    · cases ticked
    · next fault =>
      cases ticked
      exact .inl ⟨canStep, isFault_of_nextEffects fault, rfl⟩
  · next cannot =>
    cases ticked
    exact .inr ⟨Bool.eq_false_iff.mpr cannot, rfl, rfl⟩

/-- A step is an execution of one instruction with a report added to it. -/
theorem step_eq (e : Emulator) : e.step = (e.tick.1.map e.tick.2.report, e.tick.2) := by
  unfold step
  split
  · next ticked =>
    rw [ticked]
    rfl
  · next ticked =>
    rw [ticked]
    rfl

/-- The newest record takes back the step that left it. -/
theorem undo_of_tick (ticked : e.tick = (.ok stores, e')) :
    e'.history.undo e'.machine = (.ok e.state, e.machine, e.history) := by
  obtain ⟨-, effects, record, -, rfl, prior, restored⟩ := tick_eq_ok ticked
  simp only [advance, History.undo, restored, prior]

theorem canRewind_of_tick (ticked : e.tick = (.ok stores, e')) :
    e'.state.canRewind = true := by
  obtain ⟨-, effects, record, -, rfl, -⟩ := tick_eq_ok ticked
  unfold advance
  split
  · rfl
  · rfl

/-- A step back after a step leads to the emulator before it. -/
theorem stepBack_of_tick (ticked : e.tick = (.ok stores, e')) :
    e'.stepBack = (.ok (e.report []), e) := by
  have back : ({ e' with machine := e.machine, state := e.state, history := e.history } :
      Emulator) = e := by
    obtain ⟨-, _, _, -, rfl, -⟩ := tick_eq_ok ticked
    rfl
  simp only [stepBack, if_pos (canRewind_of_tick ticked), undo_of_tick ticked, back]

end Emulator

end RobotMachine
