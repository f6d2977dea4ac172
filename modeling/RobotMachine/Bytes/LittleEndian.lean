/-!
# Little-endian numbers

A number is written as a fixed count of bytes, least significant first.

* `LittleEndian.bytes_number`: writing back what was read gives the same bytes.
-/

namespace RobotMachine.LittleEndian

/-- The `count` lowest bytes of a number, least significant first. -/
def bytes : Nat → Nat → List UInt8
  | 0, _ => []
  | count + 1, n => UInt8.ofNat n :: bytes count (n / 256)

/-- The number that bytes denote, least significant first. -/
def number : List UInt8 → Nat
  | [] => 0
  | b :: bs => b.toNat + 256 * number bs

@[simp]
theorem length_bytes (count n : Nat) : (bytes count n).length = count := by
  induction count generalizing n with
  | zero => rfl
  | succ count ih => simp [bytes, ih]

theorem bytes_number (bs : List UInt8) : bytes bs.length (number bs) = bs := by
  induction bs with
  | nil => rfl
  | cons b bs ih =>
    have := b.toNat_lt
    simp only [List.length_cons, number, bytes]
    rw [show (b.toNat + 256 * number bs) / 256 = number bs by omega, ih]
    congr 1
    apply UInt8.toNat.inj
    simp only [UInt8.toNat_ofNat']
    omega

end RobotMachine.LittleEndian
