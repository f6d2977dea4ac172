import RobotMachine.Proofs.FailingCalls
import RobotMachine.Proofs.Transfers

/-!
# How a step can end

A step of an emulator that may step goes wrong in one of four ways, which are tried in turn: the
program counter is outside the program, it is between two words, the word there is no instruction,
or the memory map does not allow the transfer that the instruction makes. There is no fifth one:
loaded code fits its region, so the word is always there to be fetched, and what an instruction may
store to can always be captured.

* `Emulator.fetch_of_decode_ok`, `Emulator.fetch_of_decode_error`: a fetch inside the program.
* `Emulator.ends`: the ways that a step can end, with what tells them apart.
* `Emulator.Reachable.step_outcomes`: when a step ends in which of them.
-/

namespace RobotMachine

/-! ## Capturing -/

theorem Memory.exists_capture (m : Memory) {stores : List Store}
    (writable : ∀ s ∈ stores, s.IsWritable) :
    ∃ held, m.capture (stores.map Store.range) = .ok held := by
  induction stores with
  | nil => exact ⟨[], rfl⟩
  | cons s stores ih =>
    obtain ⟨place, located, -⟩ := writable s List.mem_cons_self
    obtain ⟨bytes, read⟩ := (m.read_eq_ok_iff _ _).mpr (Option.isSome_of_eq_some located)
    obtain ⟨held, captured⟩ := ih fun t member => writable t (List.mem_cons_of_mem s member)
    refine ⟨⟨s.address, bytes⟩ :: held, ?_⟩
    rw [List.map_cons, Store.range, capture, read, captured]
    rfl

namespace Emulator

variable {e : Emulator}

/-! ## Fetching -/

/-- The program counter is at one of the bytes of the loaded program. -/
def InProgram (e : Emulator) : Prop :=
  codeBase.toNat ≤ e.machine.pc.toNat ∧
    e.machine.pc.toNat < codeBase.toNat + wordSize * e.codeLength

instance decidableInProgram (e : Emulator) : Decidable e.InProgram :=
  inferInstanceAs (Decidable (_ ∧ _))

/-- The program counter is at the start of a word. -/
def IsAligned (e : Emulator) : Prop :=
  wordSize ∣ e.machine.pc.toNat

instance decidableIsAligned (e : Emulator) : Decidable e.IsAligned :=
  inferInstanceAs (Decidable (_ ∣ _))

theorem outside_iff :
    (e.machine.pc < codeBase ∨ e.codeLength * wordSize ≤ e.machine.pc.toNat - codeBase.toNat) ↔
      ¬ e.InProgram := by
  rw [InProgram, UInt32.lt_iff_toNat_lt, Nat.mul_comm e.codeLength]
  omega

theorem fetch_of_outside (outside : ¬ e.InProgram) :
    e.fetch = .error (.fetch e.machine.pc .outsideProgram) := by
  simp only [fetch, if_pos (outside_iff.mpr outside)]

theorem offset_mod_wordSize_iff (inside : e.InProgram) :
    (e.machine.pc.toNat - codeBase.toNat) % wordSize = 0 ↔ e.IsAligned := by
  have base : wordSize ∣ codeBase.toNat := by decide
  rw [← Nat.dvd_iff_mod_eq_zero, IsAligned, Nat.dvd_sub_iff_left inside.1 base]

theorem fetch_of_misaligned (inside : e.InProgram) (misaligned : ¬ e.IsAligned) :
    e.fetch = .error (.fetch e.machine.pc .misaligned) := by
  have notOutside := not_imp_not.mpr outside_iff.mp (not_not_intro inside)
  rw [← offset_mod_wordSize_iff inside] at misaligned
  simp only [fetch, if_neg notOutside, if_pos misaligned]

section

variable (inside : e.InProgram) (aligned : e.IsAligned) {word : UInt32}
  (found : e.machine.memory.readWord e.machine.pc = .ok word)

include inside aligned found

theorem fetch_of_readWord :
    e.fetch = (Instruction.decode word).mapError fun reason =>
      .fetch e.machine.pc (.undecodable reason) := by
  have notOutside := not_imp_not.mpr outside_iff.mp (not_not_intro inside)
  rw [← offset_mod_wordSize_iff inside] at aligned
  simp only [fetch, if_neg notOutside, if_neg (not_not_intro aligned), found]
  rfl

theorem fetch_of_decode_error {reason : WordFault}
    (refused : Instruction.decode word = .error reason) :
    e.fetch = .error (.fetch e.machine.pc (.undecodable reason)) := by
  rw [fetch_of_readWord inside aligned found, refused]
  rfl

theorem fetch_of_decode_ok {i : Instruction} (decoded : Instruction.decode word = .ok i) :
    e.fetch = .ok i := by
  rw [fetch_of_readWord inside aligned found, decoded]
  rfl

end

/-- The code region holds all words of the program. -/
theorem exists_readWord (fits : e.codeLength ≤ regionWords) (inside : e.InProgram)
    (aligned : e.IsAligned) : ∃ word, e.machine.memory.readWord e.machine.pc = .ok word := by
  have held : Region.code.Holds e.machine.pc wordSize := by
    obtain ⟨i, at_word⟩ := aligned
    obtain ⟨lower, upper⟩ := inside
    refine ⟨lower, ?_⟩
    -- the program counter is a multiple of four below the end of the region, which is one too
    simp only [show codeBase.toNat = 4 * 0x4000 from rfl, wordSize, regionWords, regionSize] at *
    omega
  obtain ⟨bytes, read⟩ := (Memory.exists_read_iff (m := e.machine.memory)).mpr ⟨.code, held⟩
  exact ⟨_, Except.map_eq_ok_iff.mpr ⟨bytes, read, rfl⟩⟩

theorem fetch_ne_memory (fits : e.codeLength ≤ regionWords) (fault : MemoryFault) :
    e.fetch ≠ .error (.memory fault) := by
  intro failed
  by_cases inside : e.InProgram
  · by_cases aligned : e.IsAligned
    · obtain ⟨word, found⟩ := exists_readWord fits inside aligned
      rw [fetch_of_readWord inside aligned found, Except.mapError_eq_error_iff] at failed
      obtain ⟨_, -, other⟩ := failed
      cases other
    · rw [fetch_of_misaligned inside aligned] at failed
      cases failed
  · rw [fetch_of_outside inside] at failed
    cases failed

/-! ## Stepping -/

/-- How the next step of an emulator ends, if its code fits the region: the ways are tried from the
first to the last. -/
inductive Ends (e : Emulator) : Except MachineError (Effects × StepRecord) → Prop
  | outside : ¬ e.InProgram → Ends e (.error (.fetch e.machine.pc .outsideProgram))
  | misaligned : e.InProgram → ¬ e.IsAligned → Ends e (.error (.fetch e.machine.pc .misaligned))
  | undecodable {word : UInt32} {reason : WordFault} :
    e.InProgram → e.IsAligned → e.machine.memory.readWord e.machine.pc = .ok word →
      Instruction.decode word = .error reason →
        Ends e (.error (.fetch e.machine.pc (.undecodable reason)))
  | refused {word : UInt32} {i : Instruction} {t : Transfer} :
    e.InProgram → e.IsAligned → e.machine.memory.readWord e.machine.pc = .ok word →
      Instruction.decode word = .ok i → e.machine.transfer? i = some t → ¬ t.IsAllowed →
        Ends e (.error (.memory t.fault))
  | done {word : UInt32} {i : Instruction} {next : Effects × StepRecord} :
    e.InProgram → e.IsAligned → e.machine.memory.readWord e.machine.pc = .ok word →
      Instruction.decode word = .ok i → (∀ t, e.machine.transfer? i = some t → t.IsAllowed) →
        Ends e (.ok next)

theorem nextEffects_of_fetch_error {err : MachineError} (failed : e.fetch = .error err) :
    e.nextEffects = .error err := by
  rw [nextEffects, failed]
  rfl

theorem nextEffects_of_execute_error {i : Instruction} {fault : MemoryFault}
    (fetched : e.fetch = .ok i) (failed : e.machine.execute i = .error fault) :
    e.nextEffects = .error (.memory fault) := by
  rw [nextEffects, fetched, Except.ok_bind, failed]
  rfl

/-- What an instruction stores to can be captured, so nothing fails behind the instruction. -/
theorem exists_nextEffects_of_execute {i : Instruction} {effects : Effects}
    (fetched : e.fetch = .ok i) (executed : e.machine.execute i = .ok effects) :
    ∃ record, e.nextEffects = .ok (effects, record) := by
  obtain ⟨held, captured⟩ :=
    e.machine.memory.exists_capture (Machine.isWritable_of_execute executed)
  have ranges : (effects.stores.map fun s => (s.address, s.bytes.length)) =
      effects.stores.map Store.range := rfl
  simp only [nextEffects, fetched, Except.ok_bind, executed, Except.mapError, ranges,
    StepRecord.capture, captured, Except.ok_map]
  exact ⟨_, rfl⟩

theorem ends (fits : e.codeLength ≤ regionWords) : e.Ends e.nextEffects := by
  by_cases inside : e.InProgram
  · by_cases aligned : e.IsAligned
    · obtain ⟨word, found⟩ := exists_readWord fits inside aligned
      cases decoded : Instruction.decode word with
      | error reason =>
        have failed := fetch_of_decode_error inside aligned found decoded
        rw [nextEffects_of_fetch_error failed]
        exact .undecodable inside aligned found decoded
      | ok i =>
        have fetched := fetch_of_decode_ok inside aligned found decoded
        have answers := e.machine.execute_answers i
        cases executed : e.machine.execute i with
        | error fault =>
          obtain ⟨t, transfer, refused, rfl⟩ := answers.error_iff.mp executed
          rw [nextEffects_of_execute_error fetched executed]
          exact .refused inside aligned found decoded transfer refused
        | ok effects =>
          obtain ⟨record, next⟩ := exists_nextEffects_of_execute fetched executed
          rw [next]
          exact .done inside aligned found decoded (answers.exists_ok_iff.mp ⟨effects, executed⟩)
    · rw [nextEffects_of_fetch_error (fetch_of_misaligned inside aligned)]
      exact .misaligned inside aligned
  · rw [nextEffects_of_fetch_error (fetch_of_outside inside)]
    exact .outside inside

section

variable (fits : e.codeLength ≤ regionWords)

include fits

theorem nextEffects_eq_outsideProgram_iff :
    e.nextEffects = .error (.fetch e.machine.pc .outsideProgram) ↔ ¬ e.InProgram := by
  constructor
  · intro failed
    have ends := e.ends fits
    rw [failed] at ends
    cases ends with
    | outside outside => exact outside
  · intro outside
    exact nextEffects_of_fetch_error (fetch_of_outside outside)

theorem nextEffects_eq_misaligned_iff (inside : e.InProgram) :
    e.nextEffects = .error (.fetch e.machine.pc .misaligned) ↔ ¬ e.IsAligned := by
  constructor
  · intro failed
    have ends := e.ends fits
    rw [failed] at ends
    cases ends with
    | misaligned _ misaligned => exact misaligned
  · intro misaligned
    exact nextEffects_of_fetch_error (fetch_of_misaligned inside misaligned)

variable (inside : e.InProgram) (aligned : e.IsAligned) {word : UInt32}
  (found : e.machine.memory.readWord e.machine.pc = .ok word)

include inside aligned found

theorem nextEffects_eq_undecodable_iff (reason : WordFault) :
    e.nextEffects = .error (.fetch e.machine.pc (.undecodable reason)) ↔
      Instruction.decode word = .error reason := by
  constructor
  · intro failed
    have ends := e.ends fits
    rw [failed] at ends
    cases ends with
    | undecodable _ _ found' decoded =>
      cases found.symm.trans found'
      exact decoded
  · intro refused
    exact nextEffects_of_fetch_error (fetch_of_decode_error inside aligned found refused)

variable {i : Instruction} (decoded : Instruction.decode word = .ok i)

include decoded

theorem nextEffects_eq_memory_iff (fault : MemoryFault) :
    e.nextEffects = .error (.memory fault) ↔
      ∃ t, e.machine.transfer? i = some t ∧ ¬ t.IsAllowed ∧ fault = t.fault := by
  constructor
  · intro failed
    have ends := e.ends fits
    rw [failed] at ends
    cases ends with
    | refused _ _ found' decoded' transfer refused =>
      cases found.symm.trans found'
      cases decoded.symm.trans decoded'
      exact ⟨_, transfer, refused, rfl⟩
  · intro refused
    have failed := (e.machine.execute_answers i).error_iff.mpr refused
    exact nextEffects_of_execute_error (fetch_of_decode_ok inside aligned found decoded) failed

theorem exists_nextEffects_iff :
    (∃ next, e.nextEffects = .ok next) ↔ ∀ t, e.machine.transfer? i = some t → t.IsAllowed := by
  constructor
  · intro goesOn
    obtain ⟨next, made⟩ := goesOn
    have ends := e.ends fits
    rw [made] at ends
    cases ends with
    | done _ _ found' decoded' allowed =>
      cases found.symm.trans found'
      cases decoded.symm.trans decoded'
      exact allowed
  · intro allowed
    have fetched := fetch_of_decode_ok inside aligned found decoded
    obtain ⟨effects, executed⟩ := (e.machine.execute_answers i).exists_ok_iff.mpr allowed
    obtain ⟨record, next⟩ := exists_nextEffects_of_execute fetched executed
    exact ⟨_, next⟩

end

theorem tick_answer (canStep : e.state.canStep = true) :
    e.tick.1 = e.nextEffects.map fun next => next.1.stores := by
  rcases e.tick_cases with ⟨cannot, -⟩ | ⟨err, -, next, ticked⟩ |
    ⟨effects, record, -, next, ticked⟩
  · rw [canStep] at cannot
    cases cannot
  · rw [ticked, next]
    rfl
  · rw [ticked, next]
    rfl

theorem step_eq_error_iff (canStep : e.state.canStep = true) {err : MachineError} :
    e.step.1 = .error err ↔ e.nextEffects = .error err := by
  rw [step_eq, tick_answer canStep, Except.map_eq_error_iff, Except.map_eq_error_iff]

theorem exists_step_iff (canStep : e.state.canStep = true) :
    (∃ report, e.step.1 = .ok report) ↔ ∃ next, e.nextEffects = .ok next := by
  rw [step_eq, tick_answer canStep]
  constructor
  · intro succeeds
    obtain ⟨report, stepped⟩ := succeeds
    obtain ⟨stores, ticked, -⟩ := Except.map_eq_ok_iff.mp stepped
    obtain ⟨next, made, -⟩ := Except.map_eq_ok_iff.mp ticked
    exact ⟨next, made⟩
  · intro goesOn
    obtain ⟨next, made⟩ := goesOn
    rw [made]
    exact ⟨_, rfl⟩

/-- **A step ends in one of five ways.** A step of a reachable emulator that is ready or running
fails if the program counter is outside the program; else if it is between two words; else if the
word there is no instruction, for the reason that the decoder gives, while the fetch itself never
fails on memory; else if the instruction loads from a range that is not in one region, or stores to
one that is not in the stack or the data. Otherwise it succeeds. -/
theorem Reachable.step_outcomes (reachable : e.Reachable)
    (active : e.state = .ready ∨ e.state = .running) :
    (∀ fault, e.fetch ≠ .error (.memory fault)) ∧
      (e.step.1 = .error (.fetch e.machine.pc .outsideProgram) ↔ ¬ e.InProgram) ∧
      (e.InProgram →
        (e.step.1 = .error (.fetch e.machine.pc .misaligned) ↔ ¬ e.IsAligned) ∧
        (e.IsAligned → ∃ word, e.machine.memory.readWord e.machine.pc = .ok word ∧
          (∀ reason, e.step.1 = .error (.fetch e.machine.pc (.undecodable reason)) ↔
            Instruction.decode word = .error reason) ∧
          ∀ i, Instruction.decode word = .ok i →
            (∀ fault, e.step.1 = .error (.memory fault) ↔
              ∃ t, e.machine.transfer? i = some t ∧ ¬ t.IsAllowed ∧ fault = t.fault) ∧
            ((∃ report, e.step.1 = .ok report) ↔
              ∀ t, e.machine.transfer? i = some t → t.IsAllowed))) := by
  have canStep := Lifecycle.canStep_iff.mpr active
  have fits := reachable.consistent.codeLength_le
  simp only [step_eq_error_iff canStep, exists_step_iff canStep]
  refine ⟨fetch_ne_memory fits, nextEffects_eq_outsideProgram_iff fits, fun inside =>
    ⟨nextEffects_eq_misaligned_iff fits inside, fun aligned => ?_⟩⟩
  obtain ⟨word, found⟩ := exists_readWord fits inside aligned
  refine ⟨word, found, nextEffects_eq_undecodable_iff fits inside aligned found,
    fun i decoded => ⟨?_, ?_⟩⟩
  · exact nextEffects_eq_memory_iff fits inside aligned found decoded
  · exact exists_nextEffects_iff fits inside aligned found decoded

theorem step_outcomes_storingIntoCode :
    storingIntoCode.Reachable ∧ storingIntoCode.state = .ready ∧ storingIntoCode.InProgram ∧
      storingIntoCode.IsAligned ∧
      storingIntoCode.step.1 = .error (.memory ⟨.write, codeBase, wordSize⟩) ∧
      ¬ ∃ report, storingIntoCode.step.1 = .ok report := by
  have reachable : storingIntoCode.Reachable := .call _ (.call .reset .new)
  have ready : storingIntoCode.state = .ready := by decide +kernel
  have inside : storingIntoCode.InProgram := by decide +kernel
  have aligned : storingIntoCode.IsAligned := by decide +kernel
  obtain ⟨-, -, classified⟩ := reachable.step_outcomes (.inl ready)
  obtain ⟨word, found, -, executed⟩ := (classified inside).2 aligned
  have isStore : word = 0x43010000 := by
    have here : storingIntoCode.machine.memory.readWord storingIntoCode.machine.pc =
        .ok 0x43010000 := by
      decide +kernel
    exact Except.ok.inj (found.symm.trans here)
  obtain ⟨i, stored, decoded, transfer⟩ : ∃ i stored, Instruction.decode word = .ok i ∧
      storingIntoCode.machine.transfer? i = some (.storeWord codeBase stored) := by
    rw [isStore]
    exact ⟨_, _, rfl, rfl⟩
  have guarded : ¬ MayStore codeBase wordSize := by decide
  have refused : ¬ (Transfer.storeWord codeBase stored).IsAllowed := guarded
  obtain ⟨failsIff, succeedsIff⟩ := executed i decoded
  refine ⟨reachable, ready, inside, aligned, ?_, fun succeeds => ?_⟩
  · exact (failsIff _).mpr ⟨_, transfer, refused, rfl⟩
  · exact refused (succeedsIff.mp succeeds _ transfer)

end Emulator

end RobotMachine
