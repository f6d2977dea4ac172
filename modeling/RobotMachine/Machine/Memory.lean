import RobotMachine.Machine.Region
import RobotMachine.Bytes.LittleEndian
import RobotMachine.Text.Column

/-!
# Memory

Three banks of bytes, one for each region. An access names an address and a count of bytes, and
succeeds only if all of them lie in one region; it need not be aligned. The end of the range is
computed without wrapping, and an empty range may also stand at the very end of a region.

* `Memory.read_eq_ok_iff`: a read succeeds exactly on the ranges that `Region.locate?` finds.
* `Bank.getElem_overwrite`: which byte stands where after a write.
-/

namespace RobotMachine

/-- Whether an access reads or writes. -/
inductive Access
  | read
  | write
  deriving DecidableEq, Repr

def Access.name : Access → String
  | .read => "read"
  | .write => "write"

/-- An access that the memory map does not allow. -/
structure MemoryFault where
  access : Access
  address : UInt32
  length : Nat
  deriving DecidableEq, Repr

def MemoryFault.message (fault : MemoryFault) : String :=
  "memory fault: " ++ toString fault.length ++ "-byte " ++ fault.access.name ++ " at " ++
    wordHex fault.address

/-- A place for `length` bytes inside one region. -/
structure Place (length : Nat) where
  region : Region
  offset : Nat
  fits : offset + length ≤ regionSize

namespace Region

/-- The place of `length` bytes from an address on, if they all lie in the region. -/
def place? (r : Region) (address : UInt32) (length : Nat) : Option (Place length) :=
  if h : r.base.toNat ≤ address.toNat ∧ address.toNat - r.base.toNat + length ≤ regionSize then
    some ⟨r, address.toNat - r.base.toNat, h.2⟩
  else
    none

/-- The place of `length` bytes from an address on, in whichever region holds them all. -/
def locate? (address : UInt32) (length : Nat) : Option (Place length) :=
  all.findSome? (·.place? address length)

end Region

/-- The bytes of one region. -/
abbrev Bank := Vector UInt8 regionSize

namespace Bank

/-- The bytes of a range of the bank. -/
def slice (bank : Bank) (offset length : Nat) (fits : offset + length ≤ regionSize) : List UInt8 :=
  List.ofFn fun i : Fin length => bank[offset + i.val]

/-- The bank with bytes written from an offset on. -/
def overwrite (bank : Bank) (offset : Nat) :
    (bytes : List UInt8) → offset + bytes.length ≤ regionSize → Bank
  | [], _ => bank
  | b :: bs, fits =>
    have fits' : offset + 1 + bs.length ≤ regionSize := by
      simp only [List.length_cons] at fits; omega
    overwrite (bank.set offset b (by omega)) (offset + 1) bs fits'

theorem getElem_overwrite (bank : Bank) (offset : Nat) (bytes : List UInt8)
    (fits : offset + bytes.length ≤ regionSize) (i : Nat) (hi : i < regionSize) :
    (bank.overwrite offset bytes fits)[i] =
      if h : offset ≤ i ∧ i < offset + bytes.length then bytes.get ⟨i - offset, by omega⟩
      else bank[i] := by
  induction bytes generalizing bank offset with
  | nil => simp [overwrite, show ¬ (offset ≤ i ∧ i < offset) by omega]
  | cons b bs ih =>
    simp only [overwrite, ih, List.length_cons]
    rcases Nat.lt_trichotomy i offset with lt | rfl | gt
    · rw [dif_neg (by omega), dif_neg (by omega), Vector.getElem_set_ne _ _ (by omega)]
    · rw [dif_neg (by omega), dif_pos (by omega), Vector.getElem_set_self]
      simp
    · by_cases h : i < offset + 1 + bs.length
      · rw [dif_pos (by omega), dif_pos (by omega)]
        simp only [show i - offset = (i - (offset + 1)) + 1 by omega, List.get_cons_succ]
      · rw [dif_neg (by omega), dif_neg (by omega), Vector.getElem_set_ne _ _ (by omega)]

end Bank

/-- The contents of the three regions, zero at first. -/
structure Memory where
  code : Bank := Vector.replicate regionSize 0
  stack : Bank := Vector.replicate regionSize 0
  data : Bank := Vector.replicate regionSize 0
  deriving DecidableEq

namespace Memory

/-- The bytes of a region. -/
def bank (m : Memory) : Region → Bank
  | .code => m.code
  | .stack => m.stack
  | .data => m.data

/-- The memory with one region's bytes replaced. -/
def setBank (m : Memory) (r : Region) (bank : Bank) : Memory :=
  match r with
  | .code => { m with code := bank }
  | .stack => { m with stack := bank }
  | .data => { m with data := bank }

/-- The bytes of a range. -/
def read (m : Memory) (address : UInt32) (length : Nat) : Except MemoryFault (List UInt8) :=
  match Region.locate? address length with
  | some place => .ok ((m.bank place.region).slice place.offset length place.fits)
  | none => .error ⟨.read, address, length⟩

/-- The little-endian word at an address. -/
def readWord (m : Memory) (address : UInt32) : Except MemoryFault UInt32 :=
  (m.read address wordSize).map fun bytes => UInt32.ofNat (LittleEndian.number bytes)

/-- The byte at an address. -/
def readByte (m : Memory) (address : UInt32) : Except MemoryFault UInt8 :=
  (m.read address 1).map fun bytes => UInt8.ofNat (LittleEndian.number bytes)

/-- The memory with bytes put at an address; the same memory if they do not lie in one region. -/
def patch (m : Memory) (address : UInt32) (bytes : List UInt8) : Memory :=
  match Region.locate? address bytes.length with
  | some place =>
    m.setBank place.region ((m.bank place.region).overwrite place.offset bytes place.fits)
  | none => m

/-- Writes bytes in any region, the code included. Instructions are held to `checkStore`. -/
def write (m : Memory) (address : UInt32) (bytes : List UInt8) : Except MemoryFault Memory :=
  if (Region.locate? address bytes.length).isSome then .ok (m.patch address bytes)
  else .error ⟨.write, address, bytes.length⟩

/-- Whether an instruction may store `length` bytes at an address. -/
def checkStore (address : UInt32) (length : Nat) : Except MemoryFault Unit :=
  if (Region.locate? address length).any (·.region.writable) then .ok ()
  else .error ⟨.write, address, length⟩

theorem read_eq_ok_iff (m : Memory) (address : UInt32) (length : Nat) :
    (∃ bytes, m.read address length = .ok bytes) ↔
      (Region.locate? address length).isSome = true := by
  unfold read
  cases Region.locate? address length <;> simp

@[simp]
theorem bank_setBank_self (m : Memory) (r : Region) (bank : Bank) :
    (m.setBank r bank).bank r = bank := by
  cases r <;> rfl

theorem bank_setBank_of_ne (m : Memory) {r s : Region} (h : s ≠ r) (bank : Bank) :
    (m.setBank r bank).bank s = m.bank s := by
  cases r <;> cases s <;> first | rfl | exact absurd rfl h

end Memory

/-- A word as the bytes it has in memory. -/
def wordBytes (w : UInt32) : List UInt8 :=
  LittleEndian.bytes wordSize w.toNat

end RobotMachine
