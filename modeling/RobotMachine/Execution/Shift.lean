/-!
# Shifts

A shift moves a word by any number of bits and gives, with the result, the last bit that was moved
out. Only the low byte of the amount counts, and a shift by zero keeps the carry that came in.
-/

namespace RobotMachine

/-- The three shifts: to the left, and to the right filling with zeros or with the sign. -/
inductive Shift
  | left
  | right
  | arithmeticRight
  deriving DecidableEq, Repr

namespace Shift

/-- The result of a shift by `n` bits. -/
def result (kind : Shift) (value : UInt32) (n : Nat) : UInt32 :=
  match kind with
  | left => ⟨value.toBitVec <<< n⟩
  | right => ⟨value.toBitVec >>> n⟩
  | arithmeticRight => ⟨value.toBitVec.sshiftRight n⟩

/-- The last bit that a shift by `n` bits moves out; `n` is not zero. -/
def lastBitOut (kind : Shift) (value : UInt32) (n : Nat) : Bool :=
  match kind with
  | left => n ≤ 32 && value.toBitVec.getLsbD (32 - n)
  | right => value.toBitVec.getLsbD (n - 1)
  | arithmeticRight => value.toBitVec.getLsbD (min (n - 1) 31)

/-- The result and the carry of a shift. -/
def apply (kind : Shift) (value amount : UInt32) (carry : Bool) : UInt32 × Bool :=
  let n := amount.toNat % 256
  if n = 0 then (value, carry) else (kind.result value n, kind.lastBitOut value n)

end Shift

end RobotMachine
