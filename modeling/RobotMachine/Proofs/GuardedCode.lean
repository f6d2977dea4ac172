import RobotMachine.Proofs.Reachable

/-!
# The code is guarded

An instruction stores only where it may, and that is never in the code region. A record holds the
bytes of the same ranges, so undoing a step does not touch the code either, and it cannot fail.

* `Machine.isWritable_of_execute`: the stores of an instruction.
* `History.Undoable.undoAll_eq`: undoing succeeds, however many steps are undone.
* `Emulator.KeepsCode`: preserved by every move.
* `Emulator.Reachable.undoable`: every step of a reachable emulator can be undone.
-/

namespace RobotMachine

/-! ## Stores -/

/-- All bytes of the store lie in one region, and one that instructions may store into. -/
def Store.IsWritable (s : Store) : Prop :=
  ∃ place, Region.locate? s.address s.bytes.length = some place ∧ place.region.writable = true

theorem Store.IsWritable.of_range_eq {s t : Store} (writable : s.IsWritable)
    (same : t.range = s.range) : t.IsWritable := by
  obtain ⟨address, length⟩ := Prod.mk.inj same
  unfold IsWritable
  rw [address, length]
  exact writable

/-- The start of the data is writable, as far as the region goes. -/
theorem Store.isWritable_dataBase {bytes : List UInt8} (fits : bytes.length ≤ regionSize) :
    Store.IsWritable ⟨dataBase, bytes⟩ := by
  have inside : 0 + bytes.length ≤ regionSize := by rwa [Nat.zero_add]
  exact ⟨_, Region.locate?_base .data inside, rfl⟩

namespace Memory

/-- The memory after stores, one after the other. -/
abbrev patchAll (m : Memory) (stores : List Store) : Memory :=
  stores.foldl (fun memory s => memory.patch s.address s.bytes) m

theorem isWritable_of_checkStore {s : Store}
    (allowed : checkStore s.address s.bytes.length = .ok ()) : s.IsWritable := by
  unfold checkStore at allowed
  split at allowed
  · next found => exact (Option.any_eq_true _ _).mp found
  · cases allowed

theorem write_of_isWritable (m : Memory) {s : Store} (writable : s.IsWritable) :
    m.write s.address s.bytes = .ok (m.patch s.address s.bytes) := by
  obtain ⟨place, located, -⟩ := writable
  rw [write, located]
  rfl

/-- A store into a writable region leaves the others as they were. -/
theorem bank_patch_of_isWritable (m : Memory) {s : Store} (writable : s.IsWritable) {r : Region}
    (guarded : r.writable = false) : (m.patch s.address s.bytes).bank r = m.bank r := by
  obtain ⟨place, located, isWritable⟩ := writable
  have other : r ≠ place.region := by
    rintro rfl
    rw [guarded] at isWritable
    cases isWritable
  unfold patch
  rw [located]
  exact bank_setBank_of_ne m other _

theorem code_patchAll (m : Memory) {stores : List Store}
    (writable : ∀ s ∈ stores, s.IsWritable) : (m.patchAll stores).code = m.code := by
  induction stores generalizing m with
  | nil => rfl
  | cons s stores ih =>
    have head : (m.patch s.address s.bytes).code = m.code :=
      bank_patch_of_isWritable m (writable s List.mem_cons_self) (r := .code) rfl
    exact (ih _ fun t member => writable t (List.mem_cons_of_mem s member)).trans head

/-- Writing to writable ranges does not fail. -/
theorem restore_of_isWritable (m : Memory) {stores : List Store}
    (writable : ∀ s ∈ stores, s.IsWritable) : restore stores m = (.ok (), m.patchAll stores) := by
  induction stores generalizing m with
  | nil => rfl
  | cons s stores ih =>
    rw [restore, m.write_of_isWritable (writable s List.mem_cons_self)]
    exact ih _ fun t member => writable t (List.mem_cons_of_mem s member)

end Memory

/-! ## Instructions -/

namespace Machine

variable {m : Machine} {effects : Effects}

theorem isWritable_of_store {address : UInt32} {bytes : List UInt8}
    (stored : m.store address bytes = .ok effects) : ∀ s ∈ effects.stores, s.IsWritable := by
  obtain ⟨⟨⟩, allowed, rfl⟩ := Except.map_eq_ok_iff.mp stored
  intro s member
  rw [List.mem_singleton.mp member]
  exact Memory.isWritable_of_checkStore allowed

theorem isWritable_of_push {rd : Register} (pushed : m.push rd = .ok effects) :
    ∀ s ∈ effects.stores, s.IsWritable := by
  obtain ⟨stored, isStored, rfl⟩ := Except.map_eq_ok_iff.mp pushed
  have writable := isWritable_of_store isStored
  exact writable

theorem isWritable_of_stores_eq_nil (none : effects.stores = []) :
    ∀ s ∈ effects.stores, s.IsWritable := by
  rw [none]
  nofun

theorem stores_branchIf (m : Machine) (taken : Bool) (target : UInt32) :
    (m.branchIf taken target).stores = [] := by
  cases taken <;> rfl

theorem stores_of_loadWord {rd : Register} {address : UInt32}
    (loaded : m.loadWord rd address = .ok effects) : effects.stores = [] := by
  obtain ⟨-, -, rfl⟩ := Except.map_eq_ok_iff.mp loaded
  rfl

theorem stores_of_loadByte {rd : Register} {address : UInt32}
    (loaded : m.loadByte rd address = .ok effects) : effects.stores = [] := by
  obtain ⟨-, -, rfl⟩ := Except.map_eq_ok_iff.mp loaded
  rfl

theorem stores_of_pop {rd : Register} (popped : m.pop rd = .ok effects) :
    effects.stores = [] := by
  obtain ⟨-, -, rfl⟩ := Except.map_eq_ok_iff.mp popped
  rfl

/-- An instruction stores only into writable regions. -/
theorem isWritable_of_execute {i : Instruction} (executed : m.execute i = .ok effects) :
    ∀ s ∈ effects.stores, s.IsWritable := by
  unfold execute at executed
  split at executed
  all_goals
    first
      | exact isWritable_of_store executed
      | exact isWritable_of_push executed
      | exact isWritable_of_stores_eq_nil (stores_of_loadWord executed)
      | exact isWritable_of_stores_eq_nil (stores_of_loadByte executed)
      | exact isWritable_of_stores_eq_nil (stores_of_pop executed)
      | cases executed
        first
          | exact isWritable_of_stores_eq_nil rfl
          | exact isWritable_of_stores_eq_nil (stores_branchIf _ _ _)

theorem code_apply (m : Machine) (writable : ∀ s ∈ effects.stores, s.IsWritable) :
    (m.apply effects).memory.code = m.memory.code :=
  m.memory.code_patchAll writable

end Machine

/-! ## Records -/

/-- The record holds bytes of writable ranges only. -/
def StepRecord.Undoable (record : StepRecord) : Prop :=
  ∀ s ∈ record.memory, s.IsWritable

/-- Every record of the history holds bytes of writable ranges only. -/
def History.Undoable (history : History) : Prop :=
  ∀ record ∈ history, record.Undoable

namespace StepRecord

/-- The record of a step holds the bytes of the ranges that the step stores to. -/
theorem undoable_of_capture {prior : Lifecycle} {m : Machine} {registers : List Register}
    {stores : List Store} {record : StepRecord} (writable : ∀ s ∈ stores, s.IsWritable)
    (captured : capture prior m registers (stores.map Store.range) = .ok record) :
    record.Undoable := by
  obtain ⟨memory, bytes, rfl⟩ := Except.map_eq_ok_iff.mp captured
  obtain ⟨sameRanges, -⟩ := Memory.capture_eq_ok bytes
  intro s member
  have listed : s.range ∈ stores.map Store.range := by
    rw [← sameRanges]
    exact List.mem_map_of_mem member
  obtain ⟨t, stored, same⟩ := List.mem_map.mp listed
  exact (writable t stored).of_range_eq same.symm

/-- The machine with what the record holds put back. -/
def putBack (record : StepRecord) (m : Machine) : Machine where
  memory := m.memory.patchAll record.memory.reverse
  registers := { m.registers.setAll record.registers.reverse with
    pc := record.pc, flags := record.flags }

variable {record : StepRecord} (undoable : record.Undoable)

include undoable

theorem Undoable.restore_eq (m : Machine) : record.restore m = (.ok (), record.putBack m) := by
  have writable : ∀ s ∈ record.memory.reverse, s.IsWritable :=
    fun s member => undoable s (List.mem_reverse.mp member)
  rw [restore, m.memory.restore_of_isWritable writable]
  rfl

theorem Undoable.code_putBack (m : Machine) :
    (record.putBack m).memory.code = m.memory.code :=
  m.memory.code_patchAll fun s member => undoable s (List.mem_reverse.mp member)

end StepRecord

namespace History

variable {record : StepRecord} {older history : History}

theorem Undoable.nil : Undoable [] := nofun

theorem Undoable.cons (head : record.Undoable) (tail : Undoable older) :
    Undoable (record :: older) :=
  List.forall_mem_cons.mpr ⟨head, tail⟩

theorem Undoable.head (h : Undoable (record :: older)) : record.Undoable :=
  h record List.mem_cons_self

theorem Undoable.tail (h : Undoable (record :: older)) : Undoable older :=
  fun r member => h r (List.mem_cons_of_mem record member)

/-- Undoing every step succeeds and leaves the code alone. -/
theorem Undoable.undoAll_eq (h : history.Undoable) (m : Machine) (state : Lifecycle) :
    ∃ state' m', history.undoAll m state = (.ok history.length, state', m', []) ∧
      m'.memory.code = m.memory.code := by
  induction history generalizing m state with
  | nil => exact ⟨state, m, rfl, rfl⟩
  | cons record older ih =>
    obtain ⟨state', m', undone, code⟩ := ih h.tail (record.putBack m) record.prior
    refine ⟨state', m', ?_, code.trans (h.head.code_putBack m)⟩
    rw [undoAll, h.head.restore_eq]
    dsimp only
    rw [undone]
    rfl

end History

/-! ## Emulators -/

namespace Emulator

variable {e₀ e : Emulator}

theorem nextEffects_eq_ok {effects : Effects} {record : StepRecord}
    (next : e.nextEffects = .ok (effects, record)) :
    ∃ instruction, e.fetch = .ok instruction ∧ e.machine.execute instruction = .ok effects ∧
      StepRecord.capture e.state e.machine (effects.registers.map (·.1))
        (effects.stores.map Store.range) = .ok record := by
  simp only [nextEffects, Except.bind_eq_ok_iff, Except.pure_eq_ok_iff,
    Except.mapError_eq_ok_iff] at next
  obtain ⟨instruction, fetched, effects', executed, record', captured, same⟩ := next
  cases same
  exact ⟨instruction, fetched, executed, captured⟩

theorem isWritable_of_nextEffects {effects : Effects} {record : StepRecord}
    (next : e.nextEffects = .ok (effects, record)) :
    (∀ s ∈ effects.stores, s.IsWritable) ∧ record.Undoable := by
  obtain ⟨instruction, -, executed, captured⟩ := nextEffects_eq_ok next
  have writable := Machine.isWritable_of_execute executed
  exact ⟨writable, StepRecord.undoable_of_capture writable captured⟩

/-- A step is refused, faults, or carries out the effects of one instruction. -/
theorem tick_cases (e : Emulator) :
    (e.state.canStep = false ∧ e.tick = (.error (.notReady e.state), e)) ∨
      (∃ err, e.state.canStep = true ∧ e.nextEffects = .error err ∧
        e.tick = (.error err, { e with state := .faulted })) ∨
      ∃ effects record, e.state.canStep = true ∧ e.nextEffects = .ok (effects, record) ∧
        e.tick = (.ok effects.stores, e.advance effects record) := by
  unfold tick
  cases canStep : e.state.canStep with
  | false => exact .inl ⟨rfl, rfl⟩
  | true =>
    cases next : e.nextEffects with
    | error err => exact .inr (.inl ⟨err, rfl, rfl, rfl⟩)
    | ok outcome => exact .inr (.inr ⟨outcome.1, outcome.2, rfl, rfl, rfl⟩)

/-- A step back fails if there is nothing to undo or the state does not allow it. -/
theorem stepBack_eq_error (undoable : e.history.Undoable) {err : MachineError}
    (failed : e.stepBack.1 = .error err) :
    (err = .nothingToUndo ∨ err = .notReady e.state) ∧ e.stepBack.2 = e := by
  unfold stepBack at failed ⊢
  split at failed
  · next canRewind =>
    rw [if_pos canRewind]
    cases history : e.history with
    | nil =>
      rw [history] at failed
      cases failed
      refine ⟨.inl rfl, ?_⟩
      rw [History.undo, ← history]
    | cons record older =>
      rw [history] at undoable failed
      rw [History.undo, undoable.head.restore_eq] at failed
      cases failed
  · next cannot =>
    rw [if_neg cannot]
    cases failed
    exact ⟨.inr rfl, rfl⟩

/-- A replay fails only if the state does not allow it. -/
theorem replayToStart_eq_error (undoable : e.history.Undoable) {err : MachineError}
    (failed : e.replayToStart.1 = .error err) :
    err = .notReady e.state ∧ e.replayToStart.2 = e := by
  unfold replayToStart at failed ⊢
  split at failed
  · obtain ⟨state, m, undone, -⟩ := undoable.undoAll_eq e.machine e.state
    rw [undone] at failed
    cases failed
  · next cannot =>
    rw [if_neg cannot]
    cases failed
    exact ⟨rfl, rfl⟩

/-- The emulator has the code that the first one has, and every step in its history can be
undone. -/
structure KeepsCode (e₀ e : Emulator) : Prop where
  undoable : e.history.Undoable
  code_eq : e.machine.memory.code = e₀.machine.memory.code
  codeLength_eq : e.codeLength = e₀.codeLength

namespace KeepsCode

theorem refl (undoable : e.history.Undoable) : KeepsCode e e :=
  ⟨undoable, rfl, rfl⟩

theorem faulted (h : KeepsCode e₀ e) : KeepsCode e₀ { e with state := .faulted } :=
  ⟨h.undoable, h.code_eq, h.codeLength_eq⟩

theorem advance (h : KeepsCode e₀ e) {effects : Effects} {record : StepRecord}
    (next : e.nextEffects = .ok (effects, record)) :
    KeepsCode e₀ (e.advance effects record) := by
  obtain ⟨writable, undoable⟩ := isWritable_of_nextEffects next
  exact ⟨h.undoable.cons undoable, (e.machine.code_apply writable).trans h.code_eq,
    h.codeLength_eq⟩

theorem tick (h : KeepsCode e₀ e) : KeepsCode e₀ e.tick.2 := by
  rcases e.tick_cases with ⟨-, ticked⟩ | ⟨err, -, -, ticked⟩ | ⟨effects, record, -, next, ticked⟩
  · rw [ticked]
    exact h
  · rw [ticked]
    exact h.faulted
  · rw [ticked]
    exact h.advance next

theorem runSteps (h : KeepsCode e₀ e) (budget : Nat) : KeepsCode e₀ (e.runSteps budget).2 := by
  induction budget generalizing e with
  | zero => exact h
  | succ budget ih =>
    unfold Emulator.runSteps
    split
    · exact h
    · have ticked := h.tick
      split
      · next eq => rwa [eq] at ticked
      · next eq =>
        rw [eq] at ticked
        exact ih ticked

theorem stepBack (h : KeepsCode e₀ e) : KeepsCode e₀ e.stepBack.2 := by
  unfold Emulator.stepBack
  split
  · cases history : e.history with
    | nil => exact ⟨.nil, h.code_eq, h.codeLength_eq⟩
    | cons record older =>
      have undoable := h.undoable
      rw [history] at undoable
      rw [History.undo, undoable.head.restore_eq]
      exact ⟨undoable.tail, (undoable.head.code_putBack _).trans h.code_eq, h.codeLength_eq⟩
  · exact h

theorem replayToStart (h : KeepsCode e₀ e) : KeepsCode e₀ e.replayToStart.2 := by
  unfold Emulator.replayToStart
  split
  · obtain ⟨state, m, undone, code⟩ := h.undoable.undoAll_eq e.machine e.state
    rw [undone]
    exact ⟨.nil, code.trans h.code_eq, h.codeLength_eq⟩
  · exact h

/-- No move changes the code, forwards or backwards. -/
theorem move (h : KeepsCode e₀ e) (m : Move) : KeepsCode e₀ (e.move m).2 := by
  cases m with
  | step =>
    rw [Emulator.move, step_eq]
    exact h.tick
  | stepBack => exact h.stepBack
  | run budget =>
    rw [Emulator.move, run]
    split
    · exact h.runSteps budget
    · exact h
  | replayToStart => exact h.replayToStart

end KeepsCode

/-! ## Reachable emulators -/

theorem history_of_loadCode {code : List UInt32} {e' : Emulator}
    (loaded : e.loadCode code = .ok e') : e'.history = [] := by
  unfold loadCode at loaded
  split at loaded
  · cases loaded
  · split at loaded
    · cases loaded
    · cases loaded
      rfl

theorem history_of_loadProgram {p : Program} {e' : Emulator}
    (loaded : e.loadProgram p = .ok e') : e'.history = [] := by
  unfold loadProgram at loaded
  split at loaded
  · cases loaded
  · split at loaded
    · cases loaded
    · simp only [Except.bind_eq_ok_iff, Except.pure_eq_ok_iff] at loaded
      obtain ⟨withCode, code, memory, -, rfl⟩ := loaded
      have empty := history_of_loadCode code
      exact empty

theorem history_of_writeMemory {address : UInt32} {bytes : List UInt8} {e' : Emulator}
    (written : e.writeMemory address bytes = .ok e') : e'.history = e.history := by
  unfold writeMemory at written
  split at written
  · cases written
  · simp only [Except.bind_eq_ok_iff, Except.pure_eq_ok_iff] at written
    obtain ⟨memory, -, rfl⟩ := written
    rfl

theorem undoable_orKeep (undoable : e.history.Undoable) {outcome : Except MachineError Emulator}
    (ok : ∀ e', outcome = .ok e' → e'.history.Undoable) :
    (e.orKeep outcome).2.history.Undoable := by
  cases outcome with
  | ok e' => exact ok e' rfl
  | error err => exact undoable

theorem undoable_call (undoable : e.history.Undoable) (c : Call) :
    (e.call c).2.history.Undoable := by
  cases c with
  | reset => exact .nil
  | loadCode code =>
    refine undoable_orKeep undoable fun e' loaded => ?_
    rw [history_of_loadCode loaded]
    exact .nil
  | loadProgram p =>
    refine undoable_orKeep undoable fun e' loaded => ?_
    rw [history_of_loadProgram loaded]
    exact .nil
  | writeMemory address bytes =>
    refine undoable_orKeep undoable fun e' written => ?_
    rw [history_of_writeMemory written]
    exact undoable
  | move m => exact ((KeepsCode.refl undoable).move m).undoable

/-- Every step of a reachable emulator can be undone. -/
theorem Reachable.undoable (reachable : e.Reachable) : e.history.Undoable := by
  induction reachable with
  | new => exact .nil
  | call c _ ih => exact undoable_call ih c

end Emulator

end RobotMachine
