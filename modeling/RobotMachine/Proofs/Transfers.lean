import RobotMachine.Proofs.ByteMap

/-!
# Transfers between registers and memory

Besides being fetched, an instruction touches memory at most once: it loads a word or a byte, or
stores one. Which of these it does, and at which address, can be read off the instruction and the
registers. Whether it succeeds depends on nothing else but the memory map.

* `Machine.transfer?`: the transfer of each instruction.
* `Machine.execute_answers`: what executing an instruction answers, and what it stores.
-/

namespace RobotMachine

/-- What an instruction moves between the registers and memory. -/
inductive Transfer
  | load (address : UInt32) (length : Nat)
  | storeWord (address word : UInt32)
  | storeByte (address : UInt32) (byte : UInt8)
  deriving DecidableEq

/-- Instructions may store to the range: it lies in the stack or in the data. -/
def MayStore (address : UInt32) (length : Nat) : Prop :=
  Region.stack.Holds address length ∨ Region.data.Holds address length

instance decidableMayStore (address : UInt32) (length : Nat) :
    Decidable (MayStore address length) :=
  inferInstanceAs (Decidable (_ ∨ _))

namespace Transfer

/-- The memory map allows the transfer: a load from one region, a store to the stack or the data. -/
def IsAllowed : Transfer → Prop
  | load address length => Mapped address length
  | storeWord address _ => MayStore address wordSize
  | storeByte address _ => MayStore address 1

instance decidableIsAllowed : (t : Transfer) → Decidable t.IsAllowed
  | load address length => decidableMapped address length
  | storeWord address _ => decidableMayStore address wordSize
  | storeByte address _ => decidableMayStore address 1

/-- The fault of a transfer that is not allowed. -/
def fault : Transfer → MemoryFault
  | load address length => ⟨.read, address, length⟩
  | storeWord address _ => ⟨.write, address, wordSize⟩
  | storeByte address _ => ⟨.write, address, 1⟩

/-- What the transfer writes. -/
def stores : Transfer → List Store
  | load .. => []
  | storeWord address word => [⟨address, wordBytes word⟩]
  | storeByte address byte => [⟨address, [byte]⟩]

end Transfer

namespace Machine

/-- The address at a distance from the one in a register, modulo 2³². -/
def displaced (m : Machine) (r : Register) (distance : Int) : UInt32 :=
  UInt32.ofInt ((m.reg r).toNat + distance)

/-- The low byte of a register. -/
def lowByte (m : Machine) (r : Register) : UInt8 :=
  UInt8.ofNat (m.reg r).toNat

/-- The transfer that an instruction makes, if it makes one. -/
def transfer? (m : Machine) : Instruction → Option Transfer
  | ⟨.ldrOff, _, rn, v, ()⟩ => some (.load (m.displaced rn v.val) wordSize)
  | ⟨.ldrAbs, _, a, ()⟩ => some (.load (.ofInt a.val) wordSize)
  | ⟨.ldrbOff, _, rn, v, ()⟩ => some (.load (m.displaced rn v.val) 1)
  | ⟨.ldrbAbs, _, a, ()⟩ => some (.load (.ofInt a.val) 1)
  | ⟨.pop, _, ()⟩ => some (.load (m.reg .sp) wordSize)
  | ⟨.strOff, rd, rn, v, ()⟩ => some (.storeWord (m.displaced rn v.val) (m.reg rd))
  | ⟨.strAbs, rd, a, ()⟩ => some (.storeWord (.ofInt a.val) (m.reg rd))
  | ⟨.strbOff, rd, rn, v, ()⟩ => some (.storeByte (m.displaced rn v.val) (m.lowByte rd))
  | ⟨.strbAbs, rd, a, ()⟩ => some (.storeByte (.ofInt a.val) (m.lowByte rd))
  | ⟨.push, rd, ()⟩ => some (.storeWord (m.displaced .sp (-wordSize)) (m.reg rd))
  | ⟨.up, ()⟩ => some (.storeWord mailboxAddress Command.up.word)
  | ⟨.down, ()⟩ => some (.storeWord mailboxAddress Command.down.word)
  | ⟨.left, ()⟩ => some (.storeWord mailboxAddress Command.left.word)
  | ⟨.right, ()⟩ => some (.storeWord mailboxAddress Command.right.word)
  | _ => none

end Machine

/-- What an instruction answers that makes a certain transfer, or none: it goes through, with the
stores of the transfer, unless the transfer is not allowed. -/
inductive Transfer.Answers : Option Transfer → Except MemoryFault Effects → Prop
  | idle {effects : Effects} : effects.stores = [] → Answers none (.ok effects)
  | done {t : Transfer} {effects : Effects} :
    t.IsAllowed → effects.stores = t.stores → Answers (some t) (.ok effects)
  | refused {t : Transfer} : ¬ t.IsAllowed → Answers (some t) (.error t.fault)

namespace Transfer.Answers

variable {made : Option Transfer} {answer : Except MemoryFault Effects}

theorem error_iff (answers : Answers made answer) {fault : MemoryFault} :
    answer = .error fault ↔ ∃ t, made = some t ∧ ¬ t.IsAllowed ∧ fault = t.fault := by
  cases answers with
  | idle =>
    refine ⟨nofun, fun refused => ?_⟩
    obtain ⟨_, none, -⟩ := refused
    cases none
  | done allowed =>
    refine ⟨nofun, fun refused => ?_⟩
    obtain ⟨_, same, forbidden, -⟩ := refused
    cases same
    exact absurd allowed forbidden
  | refused forbidden =>
    constructor
    · intro same
      exact ⟨_, rfl, forbidden, (Except.error.inj same).symm⟩
    · intro refused
      obtain ⟨_, same, -, rfl⟩ := refused
      cases same
      rfl

theorem exists_ok_iff (answers : Answers made answer) :
    (∃ effects, answer = .ok effects) ↔ ∀ t, made = some t → t.IsAllowed := by
  cases answers with
  | idle => exact ⟨fun _ => nofun, fun _ => ⟨_, rfl⟩⟩
  | done allowed =>
    refine ⟨fun _ t same => ?_, fun _ => ⟨_, rfl⟩⟩
    cases same
    exact allowed
  | refused forbidden => exact ⟨nofun, fun allowed => absurd (allowed _ rfl) forbidden⟩

theorem stores_eq {effects : Effects} (answers : Answers made (.ok effects)) :
    effects.stores = made.elim [] Transfer.stores := by
  cases answers with
  | idle none => exact none
  | done _ stores => exact stores

end Transfer.Answers

theorem Memory.exists_read_iff {m : Memory} {address : UInt32} {length : Nat} :
    (∃ bytes, m.read address length = .ok bytes) ↔ Mapped address length :=
  (m.read_eq_ok_iff address length).trans Region.isSome_locate?_iff

theorem Memory.read_of_not_mapped {m : Memory} {address : UInt32} {length : Nat}
    (unmapped : ¬ Mapped address length) :
    m.read address length = .error ⟨.read, address, length⟩ := by
  unfold Memory.read
  cases located : Region.locate? address length with
  | none => rfl
  | some place =>
    have mapped := Region.isSome_locate?_iff.mp (Option.isSome_of_eq_some located)
    exact absurd mapped unmapped

theorem Region.exists_iff {P : Region → Prop} : (∃ r, P r) ↔ P .code ∨ P .stack ∨ P .data := by
  constructor
  · intro some
    obtain ⟨r, holds⟩ := some
    cases r with
    | code => exact .inl holds
    | stack => exact .inr (.inl holds)
    | data => exact .inr (.inr holds)
  · intro one
    rcases one with holds | holds | holds
    · exact ⟨_, holds⟩
    · exact ⟨_, holds⟩
    · exact ⟨_, holds⟩

theorem mayStore_iff {address : UInt32} {length : Nat} :
    (Region.locate? address length).any (·.region.writable) = true ↔ MayStore address length := by
  rw [Region.any_writable_locate?_iff, Region.exists_iff]
  simp [Region.writable, MayStore]

theorem Memory.checkStore_eq (address : UInt32) (length : Nat) :
    checkStore address length =
      if MayStore address length then .ok () else .error ⟨.write, address, length⟩ := by
  simp only [checkStore, mayStore_iff]

namespace Machine

open Transfer (Answers)

variable (m : Machine)

theorem displaced_eq (r : Register) (v : Int) : m.displaced r v = m.reg r + UInt32.ofInt v := by
  have whole : UInt32.ofInt ((m.reg r).toNat : Int) = m.reg r := by
    rw [← UInt32.toNat_inj, toNat_ofInt_of_lt (m.reg r).toNat_lt]
  rw [displaced, UInt32.ofInt_add, whole]

/-- What is read from memory is only put into registers. -/
theorem map_read_answers {α : Type} {address : UInt32} {length : Nat} {value : List UInt8 → α}
    {effects : α → Effects} (none : ∀ a, (effects a).stores = []) :
    Answers (some (.load address length))
      (((m.memory.read address length).map value).map effects) := by
  by_cases mapped : Mapped address length
  · obtain ⟨bytes, read⟩ := (Memory.exists_read_iff (m := m.memory)).mpr mapped
    rw [read]
    exact .done mapped (none _)
  · rw [Memory.read_of_not_mapped mapped]
    exact .refused mapped

theorem loadWord_answers (rd : Register) {address address' : UInt32} (same : address = address') :
    Answers (some (.load address wordSize)) (m.loadWord rd address') := by
  subst same
  exact m.map_read_answers fun _ => rfl

theorem loadByte_answers (rd : Register) {address address' : UInt32} (same : address = address') :
    Answers (some (.load address 1)) (m.loadByte rd address') := by
  subst same
  exact m.map_read_answers fun _ => rfl

theorem pop_answers (rd : Register) :
    Answers (some (.load (m.reg .sp) wordSize)) (m.pop rd) :=
  m.map_read_answers fun _ => rfl

theorem storeWord_answers {address address' : UInt32} (same : address = address') (word : UInt32) :
    Answers (some (.storeWord address word)) (m.storeWord address' word) := by
  have length : (wordBytes word).length = wordSize := LittleEndian.length_bytes _ _
  subst same
  rw [storeWord, store, Memory.checkStore_eq, length]
  split
  · next allowed => exact .done allowed rfl
  · next refused => exact .refused refused

theorem storeByte_answers {address address' : UInt32} (same : address = address') (rd : Register) :
    Answers (some (.storeByte address (m.lowByte rd))) (m.storeByte address' (m.reg rd)) := by
  subst same
  rw [storeByte, store, Memory.checkStore_eq]
  split
  · next allowed => exact .done allowed rfl
  · next refused => exact .refused refused

theorem push_answers (rd : Register) :
    Answers (some (.storeWord (m.displaced .sp (-wordSize)) (m.reg rd))) (m.push rd) := by
  have below : m.displaced .sp (-wordSize) = m.reg .sp - 4 := by
    rw [displaced_eq, UInt32.sub_eq_add_neg]
    rfl
  have stored := m.storeWord_answers below (m.reg rd)
  rw [push]
  generalize m.storeWord (m.reg .sp - 4) (m.reg rd) = outcome at stored
  cases stored with
  | done allowed stores => exact .done allowed stores
  | refused refused => exact .refused refused

/-- **What an instruction answers.** -/
theorem execute_answers (i : Instruction) : Answers (m.transfer? i) (m.execute i) := by
  unfold execute
  split
  all_goals
    first
      | exact .idle rfl
      | exact .idle (m.stores_branchIf _ _)
      | exact m.pop_answers _
      | exact m.push_answers _
      | exact m.storeWord_answers rfl _
      | exact m.loadWord_answers _ rfl
      | exact m.loadByte_answers _ rfl
      | exact m.storeByte_answers rfl _
      | exact m.loadWord_answers _ (m.displaced_eq _ _)
      | exact m.loadByte_answers _ (m.displaced_eq _ _)
      | exact m.storeWord_answers (m.displaced_eq _ _) _
      | exact m.storeByte_answers (m.displaced_eq _ _) _

end Machine

end RobotMachine
