import RobotMachine.Proofs.AssembledProgram
import RobotMachine.Proofs.GuardedCode
import RobotMachine.Proofs.LittleEndian
import RobotMachine.Proofs.TimeTravel

/-!
# Loaded code

Loading puts the words of a program one behind the other into the code region. No move changes
them, and no write from outside does that keeps to the other addresses. So what is fetched is always
one of the loaded words, and if each of these is an instruction, the only faults that a fetch can
have are those of the program counter.

* `Bank.HoldsWords`: the words at the start of a bank.
* `Emulator.loadProgram_eq_withProgram`: a program that fits its regions is loaded.
* `Emulator.KeepsCode.callAll`: calls that spare the code.
* `Emulator.loaded_code_keeps`: assembled code runs as it was assembled.
-/

namespace RobotMachine

/-! ## Words in a bank -/

theorem length_flatMap_wordBytes (words : List UInt32) :
    (words.flatMap wordBytes).length = words.length * wordSize := by
  induction words with
  | nil => rfl
  | cons word words ih =>
    rw [List.flatMap_cons, List.length_append, ih, wordBytes, LittleEndian.length_bytes,
      List.length_cons, Nat.succ_mul, Nat.add_comm]

/-- The words of a program that fits fill the code region at most. -/
theorem room_flatMap_wordBytes {words : List UInt32} (fits : words.length ≤ regionWords) :
    0 + (words.flatMap wordBytes).length ≤ regionSize := by
  rw [length_flatMap_wordBytes, Nat.zero_add]
  exact Nat.mul_le_mul_right wordSize fits

/-- Each word takes up its own four bytes. -/
theorem take_drop_flatMap_wordBytes {words : List UInt32} {i : Nat} {word : UInt32}
    (found : words[i]? = some word) :
    ((words.flatMap wordBytes).drop (i * wordSize)).take wordSize = wordBytes word := by
  have length (w : UInt32) : (wordBytes w).length = wordSize := LittleEndian.length_bytes _ _
  induction words generalizing i with
  | nil => cases found
  | cons first words ih =>
    cases i with
    | zero =>
      cases found
      rw [Nat.zero_mul, List.drop_zero, List.flatMap_cons, List.take_left' (length _)]
    | succ i =>
      rw [List.flatMap_cons, Nat.succ_mul, Nat.add_comm, ← List.drop_drop,
        List.drop_left' (length first)]
      exact ih found

theorem number_wordBytes (word : UInt32) :
    UInt32.ofNat (LittleEndian.number (wordBytes word)) = word := by
  have small : word.toNat < 256 ^ wordSize := word.toNat_lt
  rw [wordBytes, LittleEndian.number_bytes, Nat.mod_eq_of_lt small, UInt32.ofNat_toNat]

/-- The bank starts with the bytes of the words. -/
def Bank.HoldsWords (bank : Bank) (words : List UInt32) : Prop :=
  ∀ i word, words[i]? = some word →
    ∃ fits, bank.slice (i * wordSize) wordSize fits = wordBytes word

theorem Bank.holdsWords_overwrite (bank : Bank) {words : List UInt32}
    (fits : 0 + (words.flatMap wordBytes).length ≤ regionSize) :
    (bank.overwrite 0 (words.flatMap wordBytes) fits).HoldsWords words := by
  intro i word found
  have inside : i * wordSize + wordSize ≤ (words.flatMap wordBytes).length := by
    have below : i < words.length := (List.getElem?_eq_some_iff.mp found).1
    rw [length_flatMap_wordBytes, ← Nat.succ_mul]
    exact Nat.mul_le_mul_right _ below
  have sliced := slice_overwrite bank fits inside (by omega)
  simp only [Nat.zero_add] at sliced
  exact ⟨by omega, sliced.trans (take_drop_flatMap_wordBytes found)⟩

/-- A word of the code is read back from its address. -/
theorem Memory.readWord_of_holdsWords {m : Memory} {words : List UInt32}
    (holds : m.code.HoldsWords words) {i : Nat} {word : UInt32} (found : words[i]? = some word)
    {address : UInt32} (at_word : address.toNat = codeAddress i) :
    m.readWord address = .ok word := by
  obtain ⟨fits, sliced⟩ := holds i word found
  have located : Region.locate? address wordSize = some ⟨.code, i * wordSize, fits⟩ :=
    Region.locate?_eq_some_iff.mpr at_word.symm
  have read : m.read address wordSize = .ok (wordBytes word) := by
    rw [Memory.read, located, ← sliced]
    rfl
  rw [readWord, read, Except.ok_map, number_wordBytes]

/-- The code region holds the words that were loaded. -/
theorem Machine.holdsWords_loadCode (m : Machine) {code : List UInt32}
    (fits : code.length ≤ regionWords) : (m.loadCode code).memory.code.HoldsWords code := by
  have room := room_flatMap_wordBytes fits
  simp only [loadCode, Memory.patch, Region.locate?_base .code room]
  exact Bank.holdsWords_overwrite _ room

/-- A call that leaves the code to the program: a move, or a write to no byte of the code
region. -/
def Call.SparesCode : Call → Prop
  | move _ => True
  | writeMemory address bytes =>
    ∀ i < regionSize, ¬ Covers address bytes.length (Region.code.addressOf i)
  | reset | loadCode _ | loadProgram _ => False

namespace Emulator

variable {e₀ e e' : Emulator}

/-! ## Loading -/

/-- The ready emulator that loading a program leaves. -/
def withProgram (e : Emulator) (p : Program) : Emulator where
  machine := { e.machine.loadCode p.code with
    memory := (e.machine.loadCode p.code).memory.patch dataBase p.data }
  state := .ready
  codeLength := p.code.length
  lines := p.lines

/-- A ready emulator loads every program whose code and data fit their regions. -/
theorem loadProgram_eq_withProgram {p : Program} (ready : e.state = .ready)
    (code : p.code.length ≤ regionWords) (data : p.data.length ≤ regionSize) :
    e.loadProgram p = .ok (e.withProgram p) := by
  have loadedCode : e.loadCode p.code = .ok
      { machine := e.machine.loadCode p.code, state := .ready, codeLength := p.code.length } := by
    rw [loadCode, ready, if_neg (not_not_intro rfl), if_neg (Nat.not_lt.mpr code)]
  have written := (e.machine.loadCode p.code).memory.write_of_isWritable
    (Store.isWritable_dataBase data)
  rw [loadProgram, ready, if_neg (not_not_intro rfl), if_neg (Nat.not_lt.mpr data), loadedCode]
  simp only [Except.ok_bind, written]
  rfl

/-- Once a program is loaded its words are in the code region. -/
theorem loadProgram_eq_ok {p : Program} (ready : e.state = .ready) (fits : p.FitsRegions) :
    ∃ e', e.loadProgram p = .ok e' ∧ e'.machine.memory.code.HoldsWords p.code ∧
      e'.codeLength = p.code.length ∧ e'.history = [] := by
  have code : (e.withProgram p).machine.memory.code = (e.machine.loadCode p.code).memory.code :=
    Memory.bank_patch_of_isWritable _ (Store.isWritable_dataBase fits.data_le) (r := .code) rfl
  refine ⟨e.withProgram p, loadProgram_eq_withProgram ready fits.code_le fits.data_le, ?_, rfl, rfl⟩
  rw [code]
  exact e.machine.holdsWords_loadCode fits.code_le

/-! ## Fetching -/

/-- An aligned address inside the program is the address of one of its words. -/
theorem exists_codeAddress {address : UInt32} {count : Nat} (lower : codeBase ≤ address)
    (upper : address.toNat - codeBase.toNat < count * wordSize)
    (aligned : (address.toNat - codeBase.toNat) % wordSize = 0) :
    ∃ i < count, address.toNat = codeAddress i := by
  have lower' : codeBase.toNat ≤ address.toNat := UInt32.le_iff_toNat_le.mp lower
  obtain ⟨i, offset⟩ := Nat.dvd_of_mod_eq_zero aligned
  rw [offset, Nat.mul_comm] at upper
  refine ⟨i, Nat.lt_of_mul_lt_mul_right upper, ?_⟩
  rw [codeAddress, Nat.mul_comm, ← offset, Nat.add_sub_cancel' lower']

/-- If the loaded words are instructions, a fetch fails only for where the program counter is. -/
theorem fetch_eq_error {words : List UInt32} (holds : e.machine.memory.code.HoldsWords words)
    (length : e.codeLength = words.length)
    (decodes : ∀ word ∈ words, ∃ i, Instruction.decode word = .ok i) {pc : UInt32}
    {fault : FetchFault} (failed : e.fetch = .error (.fetch pc fault)) :
    fault = .outsideProgram ∨ fault = .misaligned := by
  simp only [fetch] at failed
  split at failed
  · cases failed
    exact .inl rfl
  · next inside =>
    split at failed
    · cases failed
      exact .inr rfl
    · next aligned =>
      rw [not_or, UInt32.not_lt, Nat.not_le, length] at inside
      obtain ⟨lower, upper⟩ := inside
      rw [ne_eq, Decidable.not_not] at aligned
      obtain ⟨index, below, at_word⟩ := exists_codeAddress lower upper aligned
      have found := List.getElem?_eq_getElem below
      obtain ⟨i, decoded⟩ := decodes _ (List.mem_of_getElem? found)
      rw [Memory.readWord_of_holdsWords holds found at_word] at failed
      simp only [Except.mapError, Except.ok_bind, decoded] at failed
      cases failed

theorem fetch_of_nextEffects {pc : UInt32} {fault : FetchFault}
    (failed : e.nextEffects = .error (.fetch pc fault)) : e.fetch = .error (.fetch pc fault) := by
  simp only [nextEffects, Except.bind_eq_error_iff, Except.mapError_eq_error_iff] at failed
  rcases failed with failed | ⟨_, -, ⟨_, -, other⟩ | ⟨_, -, ⟨_, -, other⟩ | ⟨_, -, none⟩⟩⟩
  · exact failed
  · cases other
  · cases other
  · cases none

theorem fetch_of_tick {pc : UInt32} {fault : FetchFault}
    (failed : e.tick.1 = .error (.fetch pc fault)) : e.fetch = .error (.fetch pc fault) := by
  rcases e.tick_cases with ⟨-, ticked⟩ | ⟨err, -, next, ticked⟩ | ⟨effects, record, -, -, ticked⟩
  · rw [ticked] at failed
    cases failed
  · rw [ticked] at failed
    cases failed
    exact fetch_of_nextEffects next
  · rw [ticked] at failed
    cases failed

namespace KeepsCode

/-- A fetch that fails in the course of a run fails in an emulator with the same code. -/
theorem fetch_of_runSteps (h : KeepsCode e₀ e) {budget : Nat} {pc : UInt32} {fault : FetchFault}
    (failed : (e.runSteps budget).1 = .error (.fetch pc fault)) :
    ∃ e', KeepsCode e₀ e' ∧ e'.fetch = .error (.fetch pc fault) := by
  induction budget generalizing e with
  | zero => cases failed
  | succ budget ih =>
    have kept := h.tick
    have fetch := @fetch_of_tick e pc fault
    rw [Emulator.runSteps] at failed
    split at failed
    · cases failed
    · split at failed
      · next ticked =>
        rw [ticked] at fetch
        cases failed
        exact ⟨e, h, fetch rfl⟩
      · next ticked =>
        rw [ticked] at kept
        exact ih kept (Except.map_eq_error_iff.mp failed)

theorem fetch_of_move (h : KeepsCode e₀ e) {m : Move} {pc : UInt32} {fault : FetchFault}
    (failed : (e.move m).1 = .error (.fetch pc fault)) :
    ∃ e', KeepsCode e₀ e' ∧ e'.fetch = .error (.fetch pc fault) := by
  cases m with
  | step =>
    rw [Emulator.move, step_eq] at failed
    have ticked := Except.map_eq_error_iff.mp (Except.map_eq_error_iff.mp failed)
    exact ⟨e, h, fetch_of_tick ticked⟩
  | stepBack =>
    obtain ⟨other, -⟩ := stepBack_eq_error h.undoable (Except.map_eq_error_iff.mp failed)
    rcases other with other | other
    · cases other
    · cases other
  | run budget =>
    have ran := Except.map_eq_error_iff.mp failed
    unfold Emulator.run at ran
    split at ran
    · exact h.fetch_of_runSteps ran
    · cases ran
  | replayToStart =>
    obtain ⟨other, -⟩ := replayToStart_eq_error h.undoable (Except.map_eq_error_iff.mp failed)
    cases other

end KeepsCode

/-! ## Calls that spare the code -/

/-- The emulator after some calls. -/
def callAll (e : Emulator) (calls : List Call) : Emulator :=
  calls.foldl (fun e c => (e.call c).2) e

/-- A write to other addresses leaves the code as it was. -/
theorem code_of_writeMemory {address : UInt32} {bytes : List UInt8}
    (spares : ∀ i < regionSize, ¬ Covers address bytes.length (Region.code.addressOf i))
    (written : e.writeMemory address bytes = .ok e') :
    e'.machine.memory.code = e.machine.memory.code ∧ e'.codeLength = e.codeLength := by
  unfold writeMemory at written
  split at written
  · cases written
  · simp only [Except.bind_eq_ok_iff, Except.pure_eq_ok_iff, Except.mapError_eq_ok_iff] at written
    obtain ⟨memory, patched, rfl⟩ := written
    refine ⟨?_, rfl⟩
    unfold Memory.write at patched
    split at patched
    · next located =>
      cases patched
      apply Vector.ext
      intro i hi
      exact (Memory.getElem_bank_patch located .code i hi).2 (spares i hi)
    · cases patched

namespace KeepsCode

theorem call (h : KeepsCode e₀ e) {c : Call} (spares : c.SparesCode) :
    KeepsCode e₀ (e.call c).2 := by
  cases c with
  | reset | loadCode | loadProgram => cases spares
  | writeMemory address bytes =>
    cases written : e.writeMemory address bytes with
    | error err =>
      rw [Emulator.call, written]
      exact h
    | ok e' =>
      obtain ⟨code, codeLength⟩ := code_of_writeMemory spares written
      rw [Emulator.call, written]
      refine ⟨?_, code.trans h.code_eq, codeLength.trans h.codeLength_eq⟩
      rw [orKeep, history_of_writeMemory written]
      exact h.undoable
  | move m => exact h.move m

theorem callAll (h : KeepsCode e₀ e) {calls : List Call} (spare : ∀ c ∈ calls, c.SparesCode) :
    KeepsCode e₀ (e.callAll calls) := by
  induction calls generalizing e with
  | nil => exact h
  | cons c calls ih =>
    exact ih (h.call (spare c List.mem_cons_self)) fun d member =>
      spare d (List.mem_cons_of_mem c member)

theorem travel (h : KeepsCode e₀ e) (moves : List Move) : KeepsCode e₀ (e.travel moves).2 := by
  induction moves generalizing e with
  | nil => exact h
  | cons m moves ih =>
    rw [travel_cons]
    exact ih (h.move m)

theorem fetch_of_call (h : KeepsCode e₀ e) {c : Call} (spares : c.SparesCode) {pc : UInt32}
    {fault : FetchFault} (failed : (e.call c).1 = .error (.fetch pc fault)) :
    ∃ e', KeepsCode e₀ e' ∧ e'.fetch = .error (.fetch pc fault) := by
  cases c with
  | reset | loadCode | loadProgram => cases spares
  | writeMemory address bytes =>
    simp only [Emulator.call, writeMemory] at failed
    split at failed
    · cases failed
    · cases written : e.machine.memory.write address bytes with
      | ok memory =>
        rw [written] at failed
        cases failed
      | error other =>
        rw [written] at failed
        cases failed
  | move m => exact h.fetch_of_move failed

end KeepsCode

/-- **Assembled code runs as it was assembled.** No moves of a reachable emulator change its code.
So once an assembled program is loaded into a reset emulator, whatever moves and writes to other
addresses follow, the only decode faults are those of a program counter outside the program or
between two words. -/
theorem loaded_code_keeps :
    (∀ e : Emulator, e.Reachable → ∀ moves : List Move,
      (e.travel moves).2.machine.memory.code = e.machine.memory.code ∧
        (e.travel moves).2.codeLength = e.codeLength) ∧
      ∀ source p, assemble source = .ok p → ∀ e : Emulator,
        ∃ e₀, e.reset.loadProgram p = .ok e₀ ∧
          ∀ calls : List Call, (∀ c ∈ calls, c.SparesCode) → ∀ c : Call, c.SparesCode →
            ∀ pc fault, ((e₀.callAll calls).call c).1 = .error (.fetch pc fault) →
              fault = .outsideProgram ∨ fault = .misaligned := by
  constructor
  · intro e reachable moves
    have kept := (KeepsCode.refl reachable.undoable).travel moves
    exact ⟨kept.code_eq, kept.codeLength_eq⟩
  · intro source p assembled e
    obtain ⟨e₀, loaded, holds, length, empty⟩ :=
      loadProgram_eq_ok (e := e.reset) rfl (assemble_fitsRegions assembled)
    refine ⟨e₀, loaded, fun calls spare c spares pc fault failed => ?_⟩
    have undoable : e₀.history.Undoable := by
      rw [empty]
      exact .nil
    have kept := (KeepsCode.refl undoable).callAll spare
    obtain ⟨e', keptHere, fetch⟩ := kept.fetch_of_call spares failed
    have codeLength := keptHere.codeLength_eq.trans length
    refine fetch_eq_error ?_ codeLength (assemble_decodes assembled) fetch
    rw [keptHere.code_eq]
    exact holds

/-- A program that goes where the mailbox says. -/
def jumpSource : String :=
  "LDR R0, [MAILBOX]\nBX R0"

/-- A write to the mailbox that sends the program between its two words. -/
def misleadingWrite : Call :=
  .writeMemory mailboxAddress [0x02, 0x00, 0x01, 0x00]

theorem loaded_code_keeps_jumpSource :
    ∃ p e₀, assemble jumpSource = .ok p ∧ initial.reset.loadProgram p = .ok e₀ ∧
      e₀.Reachable ∧
      (e₀.travel [.run 9, .replayToStart]).2.machine.memory.code = e₀.machine.memory.code ∧
      misleadingWrite.SparesCode ∧
      ((e₀.callAll [misleadingWrite]).call (.move (.run 9))).1 =
        .error (.fetch 0x10002 .misaligned) ∧
      ∀ pc fault,
        ((e₀.callAll [misleadingWrite]).call (.move (.run 9))).1 = .error (.fetch pc fault) →
          fault = .outsideProgram ∨ fault = .misaligned := by
  let p : Program := { code := [0x41030000, 0x5a000000], lines := [1, 2] }
  have assembled : assemble jumpSource = .ok p := by decide +kernel
  have spares : misleadingWrite.SparesCode := by
    intro i hi covers
    have lower : mailboxAddress.toNat ≤ Region.code.addressOf i := covers.1
    rw [Region.addressOf, show mailboxAddress.toNat = 0x30000 from rfl,
      show Region.code.base.toNat = 0x10000 from rfl] at lower
    simp only [regionSize] at hi
    omega
  have spare : ∀ c ∈ [misleadingWrite], c.SparesCode := List.forall_mem_singleton.mpr spares
  have stops : (((initial.orKeep (initial.reset.loadProgram p)).2.callAll [misleadingWrite]).call
      (.move (.run 9))).1 = .error (.fetch 0x10002 .misaligned) := by
    decide +kernel
  obtain ⟨keeps, loads⟩ := loaded_code_keeps
  obtain ⟨e₀, loaded, faults⟩ := loads jumpSource p assembled initial
  have reachable : ((initial.reset.call (.loadProgram p)).2).Reachable :=
    .call _ (.call .reset .new)
  rw [Emulator.call, loaded] at reachable
  rw [loaded] at stops
  obtain ⟨code, -⟩ := keeps e₀ reachable [.run 9, .replayToStart]
  exact ⟨p, e₀, assembled, loaded, reachable, code, spares, stops, faults _ spare _ trivial⟩

end Emulator

end RobotMachine
