import RobotMachine.Proofs.FreshLoad
import RobotMachine.Proofs.LoadedCode

/-!
# Memory as a map from addresses to bytes

Seen from outside, memory is a map that gives a byte to some addresses. What it gives to an address
is decided by the operations alone: the newest write that covered the address counts, and clearing
starts over with zeros. The banks and the offsets in them do not show, nor do writes that failed.

* `Region.Holds`: a range of addresses lies in a region.
* `Memory.byteAt`: the byte of an address after some operations.
* `Memory.getElem_bank_ofOperations`: the bytes in the banks are those of their addresses.
* `Memory.reads_byteAt`: what memory answers after any operations.
-/

namespace RobotMachine

/-! ## Ranges of addresses -/

namespace Region

/-- The addresses of a range lie in the region. The end of the range does not wrap, and an empty
range may stand at the end of the region. -/
def Holds (r : Region) (address : UInt32) (length : Nat) : Prop :=
  r.base.toNat ≤ address.toNat ∧ address.toNat + length ≤ r.base.toNat + regionSize

instance decidableHolds (r : Region) (address : UInt32) (length : Nat) :
    Decidable (r.Holds address length) :=
  inferInstanceAs (Decidable (_ ∧ _))

theorem exists_place_iff {r : Region} {address : UInt32} {length : Nat} :
    (∃ place : Place length, place.region = r ∧ place.region.addressOf place.offset =
      address.toNat) ↔ r.Holds address length := by
  unfold Holds addressOf
  constructor
  · rintro ⟨place, rfl, start⟩
    have fits := place.fits
    omega
  · rintro ⟨lower, upper⟩
    refine ⟨⟨r, address.toNat - r.base.toNat, by omega⟩, rfl, ?_⟩
    simp only
    omega

/-- A range is located if and only if it lies in some region. -/
theorem isSome_locate?_iff {address : UInt32} {length : Nat} :
    (locate? address length).isSome = true ↔ ∃ r : Region, r.Holds address length := by
  simp only [← exists_place_iff, Option.isSome_iff_exists, locate?_eq_some_iff]
  constructor
  · rintro ⟨place, start⟩
    exact ⟨_, place, rfl, start⟩
  · rintro ⟨_, place, -, start⟩
    exact ⟨place, start⟩

/-- A range that an instruction may store to lies in a region that can be written. -/
theorem any_writable_locate?_iff {address : UInt32} {length : Nat} :
    (locate? address length).any (·.region.writable) = true ↔
      ∃ r : Region, r.writable = true ∧ r.Holds address length := by
  simp only [← exists_place_iff, Option.any_eq_true, locate?_eq_some_iff]
  constructor
  · rintro ⟨place, start, writable⟩
    exact ⟨_, writable, place, rfl, start⟩
  · rintro ⟨_, writable, place, rfl, start⟩
    exact ⟨place, start, writable⟩

end Region

/-- The addresses of a range lie in one region. -/
def Mapped (address : UInt32) (length : Nat) : Prop :=
  ∃ r : Region, r.Holds address length

instance decidableMapped (address : UInt32) (length : Nat) : Decidable (Mapped address length) :=
  decidable_of_iff _ Region.isSome_locate?_iff

instance decidableCovers (address : UInt32) (length a : Nat) :
    Decidable (Covers address length a) :=
  inferInstanceAs (Decidable (_ ∧ _))

namespace Memory

/-! ## Operations and what they say of an address -/

/-- A change that is made to memory from outside. -/
inductive Operation
  | write (address : UInt32) (bytes : List UInt8)
  | clear
  deriving DecidableEq, Repr

/-- Carries out an operation: its outcome, and the memory behind it. -/
def perform (m : Memory) : Operation → Except MemoryFault Unit × Memory
  | .write address bytes =>
    match m.write address bytes with
    | .ok written => (.ok (), written)
    | .error fault => (.error fault, m)
  | .clear => (.ok (), m.clear)

/-- The memory after some operations, the newest first. Before all of them it is zero. -/
def ofOperations : List Operation → Memory
  | [] => {}
  | op :: earlier => ((ofOperations earlier).perform op).2

/-- The byte that some operations, the newest first, leave at an address: that of the newest write
which was carried out and covers the address, unless memory was cleared since, and else zero. -/
def byteAt : List Operation → Nat → UInt8
  | [], _ => 0
  | .clear :: _, _ => 0
  | .write address bytes :: earlier, a =>
    if Mapped address bytes.length ∧ Covers address bytes.length a then
      bytes.getD (a - address.toNat) 0
    else
      byteAt earlier a

/-! ## Banks -/

theorem getElem_bank_empty (r : Region) (i : Nat) (hi : i < regionSize) :
    (bank {} r)[i] = 0 := by
  cases r with
  | code | stack | data => exact Vector.getElem_replicate hi

theorem perform_write (m : Memory) (address : UInt32) (bytes : List UInt8) :
    m.perform (.write address bytes) =
      if Mapped address bytes.length then (.ok (), m.patch address bytes)
      else (.error ⟨.write, address, bytes.length⟩, m) := by
  by_cases mapped : Mapped address bytes.length
  · rw [perform, write, if_pos (Region.isSome_locate?_iff.mpr mapped), if_pos mapped]
  · rw [perform, write, if_neg (mt Region.isSome_locate?_iff.mp mapped), if_neg mapped]

/-- Each byte of a bank is the one that the operations left at its address. -/
theorem getElem_bank_ofOperations (ops : List Operation) (r : Region) (i : Nat)
    (hi : i < regionSize) :
    ((ofOperations ops).bank r)[i] = byteAt ops (r.addressOf i) := by
  induction ops with
  | nil => exact getElem_bank_empty r i hi
  | cons op earlier ih =>
    cases op with
    | clear =>
      have cleared : ofOperations (.clear :: earlier) = {} := clear_eq _
      simp only [cleared]
      exact getElem_bank_empty r i hi
    | write address bytes =>
      by_cases mapped : Mapped address bytes.length
      · have written : ofOperations (.write address bytes :: earlier) =
            (ofOperations earlier).patch address bytes := by
          rw [ofOperations, perform_write, if_pos mapped]
        obtain ⟨inside, outside⟩ := getElem_bank_patch (m := ofOperations earlier)
          (Region.isSome_locate?_iff.mpr mapped) r i hi
        simp only [written, byteAt]
        by_cases covers : Covers address bytes.length (r.addressOf i)
        · simp only [if_pos (And.intro mapped covers), List.getD_eq_getElem?_getD, inside covers,
            Option.getD_some]
        · simp only [if_neg (not_and_of_not_right _ covers), outside covers, ih]
      -- a write that fails leaves every byte as it was
      · have kept : ofOperations (.write address bytes :: earlier) = ofOperations earlier := by
          rw [ofOperations, perform_write, if_neg mapped]
        simp only [kept, byteAt, if_neg (not_and_of_not_left _ mapped), ih]

/-! ## Answers -/

/-- The bytes that some operations leave at the addresses of a range. -/
def bytesAt (ops : List Operation) (address : UInt32) (length : Nat) : List UInt8 :=
  (List.range length).map fun k => byteAt ops (address.toNat + k)

theorem read_ofOperations (ops : List Operation) (address : UInt32) (length : Nat) :
    (ofOperations ops).read address length =
      if Mapped address length then .ok (bytesAt ops address length)
      else .error ⟨.read, address, length⟩ := by
  unfold read
  cases located : Region.locate? address length with
  | none =>
    have unmapped : ¬ Mapped address length := by
      rw [Mapped, ← Region.isSome_locate?_iff, located]
      exact Bool.false_ne_true
    rw [if_neg unmapped]
  | some place =>
    have mapped : Mapped address length := by
      rw [Mapped, ← Region.isSome_locate?_iff, located]
      rfl
    have start := Region.locate?_eq_some_iff.mp located
    rw [if_pos mapped]
    refine congrArg Except.ok (List.ext_getElem ?_ fun k _ _ => ?_)
    · rw [Bank.length_slice, bytesAt, List.length_map, List.length_range]
    · have here : place.region.addressOf (place.offset + k) = address.toNat + k := by
        rw [← start, Region.addressOf, Region.addressOf, Nat.add_assoc]
      simp only [Bank.slice, bytesAt, List.getElem_ofFn, List.getElem_map, List.getElem_range,
        getElem_bank_ofOperations, here]

theorem readWord_eq_ok_iff {m : Memory} {address word : UInt32} :
    m.readWord address = .ok word ↔ m.read address wordSize = .ok (wordBytes word) := by
  rw [readWord, Except.map_eq_ok_iff]
  constructor
  · rintro ⟨bytes, read, rfl⟩
    have length := (getElem_of_read read).1
    have small := LittleEndian.number_lt bytes
    rw [length] at small
    rw [read, wordBytes, UInt32.toNat_ofNat_of_lt' small, ← length, LittleEndian.bytes_number]
  · intro read
    exact ⟨_, read, number_wordBytes word⟩

theorem readByte_eq_ok_iff {m : Memory} {address : UInt32} {byte : UInt8} :
    m.readByte address = .ok byte ↔ m.read address 1 = .ok [byte] := by
  rw [readByte, Except.map_eq_ok_iff]
  constructor
  · rintro ⟨bytes, read, rfl⟩
    obtain ⟨b, rfl⟩ := List.length_eq_one_iff.mp (getElem_of_read read).1
    rw [read]
    simp [LittleEndian.number]
  · intro read
    exact ⟨_, read, by simp [LittleEndian.number]⟩

/-- **Memory refines a partial map from addresses to bytes.** Whatever was written and cleared
before, with whatever outcome, a read succeeds on the ranges that lie in one region and gives the
bytes that the operations left at their addresses. A write succeeds on the same ranges and
otherwise leaves the memory as it was, an instruction may store to the ranges in the stack and in
the data, and words and single bytes are read as their bytes in little-endian order. -/
theorem reads_byteAt (ops : List Operation) :
    (∀ address length, (ofOperations ops).read address length =
        if Mapped address length then .ok (bytesAt ops address length)
        else .error ⟨.read, address, length⟩) ∧
      (∀ address bytes, (ofOperations ops).perform (.write address bytes) =
        if Mapped address bytes.length then
          (.ok (), ofOperations (.write address bytes :: ops))
        else (.error ⟨.write, address, bytes.length⟩, ofOperations ops)) ∧
      (∀ address length, checkStore address length =
        if Region.stack.Holds address length ∨ Region.data.Holds address length then .ok ()
        else .error ⟨.write, address, length⟩) ∧
      (∀ address word, (ofOperations ops).readWord address = .ok word ↔
        (ofOperations ops).read address wordSize = .ok (wordBytes word)) ∧
      ∀ address byte, (ofOperations ops).readByte address = .ok byte ↔
        (ofOperations ops).read address 1 = .ok [byte] := by
  refine ⟨read_ofOperations ops, fun address bytes => ?_, fun address length => ?_,
    fun _ _ => readWord_eq_ok_iff, fun _ _ => readByte_eq_ok_iff⟩
  · rw [ofOperations, perform_write]
    split <;> rfl
  · have writable : (∃ r : Region, r.writable = true ∧ r.Holds address length) ↔
        Region.stack.Holds address length ∨ Region.data.Holds address length := by
      constructor
      · rintro ⟨r, writable, holds⟩
        cases r with
        | code => cases writable
        | stack => exact .inl holds
        | data => exact .inr holds
      · rintro (holds | holds)
        · exact ⟨.stack, rfl, holds⟩
        · exact ⟨.data, rfl, holds⟩
    simp only [checkStore, Region.any_writable_locate?_iff, writable]

/-- Two writes overlap, and a third one runs over the end of its region and fails. -/
example : (ofOperations [.write 0x30ffe [1, 2, 3], .write 0x30ffd [7, 8],
    .write 0x30ffc [4, 5, 6]]).read 0x30ffc 4 = .ok [4, 7, 8, 0] :=
  (read_ofOperations _ _ _).trans (by decide)

end Memory

end RobotMachine
