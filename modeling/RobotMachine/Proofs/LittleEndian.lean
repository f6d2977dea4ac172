import Mathlib.Algebra.Order.Ring.Nat
import RobotMachine.Bytes.LittleEndian

/-!
# Little-endian numbers read back

* `LittleEndian.number_bytes`: reading back what was written gives the number modulo `256 ^ count`.
* `LittleEndian.number_lt`: bytes denote a number below `256 ^ length`.
-/

namespace RobotMachine.LittleEndian

theorem number_bytes (count n : Nat) : number (bytes count n) = n % 256 ^ count := by
  induction count generalizing n with
  | zero => simp [bytes, number, Nat.mod_one]
  | succ count ih =>
    have low : (UInt8.ofNat n).toNat = n % 256 := UInt8.toNat_ofNat'
    rw [bytes, number, ih, low, Nat.pow_succ, Nat.mul_comm (256 ^ count) 256, Nat.mod_mul]

theorem number_lt (bs : List UInt8) : number bs < 256 ^ bs.length := by
  induction bs with
  | nil => simp [number]
  | cons b bs ih =>
    have := b.toNat_lt
    simp only [number, List.length_cons, Nat.pow_succ]
    omega

end RobotMachine.LittleEndian
