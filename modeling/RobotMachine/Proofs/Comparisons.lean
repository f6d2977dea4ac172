import RobotMachine.Proofs.ExactFlags

/-!
# Comparing and branching

CMP subtracts and keeps the flags only. Each conditional branch looks at some of them, and they are
chosen so that it is taken exactly if a relation holds between the words that were compared, as
integers in two's complement or as natural numbers. The relation of the signed words cannot be read
off the sign of the difference alone, which is the wrong one if the difference overflows.

* `Condition.Holds`: the relation that a branch stands for.
* `subtractionFlags_signed_iff`: the sign and the overflow together give the signed order.
* `Machine.comparison_decides_branch`: a branch behind a comparison.
-/

namespace RobotMachine

variable {a b : UInt32}

/-! ## Flags of a comparison -/

theorem subtractionFlags_z_iff : (subtractionFlags a b (a - b)).z = true ↔ a = b := by
  have small := a.toNat_lt
  have small' := b.toNat_lt
  rw [subtractionFlags, beq_iff_eq, ← UInt32.toNat_inj, ← UInt32.toNat_inj, UInt32.toNat_sub,
    UInt32.toNat_zero]
  omega

/-- The difference has the sign of the exact one unless it overflows, and then the other one. -/
theorem subtractionFlags_signed_iff :
    (subtractionFlags a b (a - b)).n = (subtractionFlags a b (a - b)).v ↔ signed b ≤ signed a := by
  have lower := neg_le_signed a
  have upper := signed_lt a
  have lower' := neg_le_signed b
  have upper' := signed_lt b
  have difference : signed (a - b) = (signed a - signed b).bmod (2 ^ 32) := by
    rw [signed, UInt32.toBitVec_sub, BitVec.toInt_sub]
    rfl
  have negative : (subtractionFlags a b (a - b)).n = true ↔ signed (a - b) < 0 :=
    msb_iff_signed_neg (a - b)
  rw [Bool.eq_iff_iff, subtractionFlags_v_iff, negative, difference, Overflows, Int.bmod_def]
  split <;> omega

-- the least integer is below one, but their difference wraps to the greatest
example : signed 0x80000000 < signed 1 ∧
    subtractionFlags 0x80000000 1 (0x80000000 - 1) = ⟨false, false, true, true⟩ := by decide

/-! ## Conditions -/

/-- What a conditional branch asks of the words that were compared. -/
inductive Condition
  | equal | notEqual
  | less | atLeast | greater | atMost
  | below | notBelow
  deriving DecidableEq, Repr

namespace Condition

/-- The relation that makes the branch be taken. The last two are those of natural numbers. -/
def Holds (a b : UInt32) : Condition → Prop
  | equal => a = b
  | notEqual => a ≠ b
  | less => signed a < signed b
  | atLeast => signed a ≥ signed b
  | greater => signed a > signed b
  | atMost => signed a ≤ signed b
  | below => a.toNat < b.toNat
  | notBelow => a.toNat ≥ b.toNat

instance decidableHolds (a b : UInt32) : (c : Condition) → Decidable (c.Holds a b)
  | equal => inferInstanceAs (Decidable (a = b))
  | notEqual => inferInstanceAs (Decidable (a ≠ b))
  | less => inferInstanceAs (Decidable (signed a < signed b))
  | atLeast => inferInstanceAs (Decidable (signed a ≥ signed b))
  | greater => inferInstanceAs (Decidable (signed a > signed b))
  | atMost => inferInstanceAs (Decidable (signed a ≤ signed b))
  | below => inferInstanceAs (Decidable (a.toNat < b.toNat))
  | notBelow => inferInstanceAs (Decidable (a.toNat ≥ b.toNat))

/-- The branch on the condition. -/
def branch (target : Field.addr20.Value) : Condition → Instruction
  | equal => ⟨.beq, target, ()⟩
  | notEqual => ⟨.bne, target, ()⟩
  | less => ⟨.blt, target, ()⟩
  | atLeast => ⟨.bge, target, ()⟩
  | greater => ⟨.bgt, target, ()⟩
  | atMost => ⟨.ble, target, ()⟩
  | below => ⟨.blo, target, ()⟩
  | notBelow => ⟨.bhs, target, ()⟩

/-- What the branch reads off the flags. -/
def isMet (flags : Flags) : Condition → Bool
  | equal => flags.z
  | notEqual => !flags.z
  | less => flags.n != flags.v
  | atLeast => flags.n == flags.v
  | greater => !flags.z && flags.n == flags.v
  | atMost => flags.z || flags.n != flags.v
  | below => !flags.c
  | notBelow => flags.c

theorem execute_branch (m : Machine) (c : Condition) (target : Field.addr20.Value) :
    m.execute (c.branch target) =
      .ok (m.branchIf (c.isMet m.flags) (UInt32.ofInt target.val)) := by
  cases c <;> rfl

theorem isMet_iff (c : Condition) :
    c.isMet (subtractionFlags a b (a - b)) = true ↔ c.Holds a b := by
  have zero := subtractionFlags_z_iff (a := a) (b := b)
  have carry := subtractionFlags_c_iff (a := a) (b := b)
  have order := subtractionFlags_signed_iff (a := a) (b := b)
  have same := signed_inj (a := a) (b := b)
  generalize subtractionFlags a b (a - b) = flags at zero carry order
  cases c with
  | equal => exact zero
  | notEqual => rw [isMet, Bool.not_eq_true', ← Bool.not_eq_true, zero, Holds]
  | less => rw [isMet, bne_iff_ne, Ne, order, Holds, Int.not_le]
  | atLeast => rw [isMet, beq_iff_eq, order, Holds]
  | greater =>
    rw [isMet, Bool.and_eq_true, Bool.not_eq_true', ← Bool.not_eq_true, zero, beq_iff_eq, order,
      Holds, ← same]
    omega
  | atMost =>
    rw [isMet, Bool.or_eq_true, zero, bne_iff_ne, Ne, order, Holds, ← same]
    omega
  | below => rw [isMet, Bool.not_eq_true', ← Bool.not_eq_true, carry, Holds, Nat.not_le]
  | notBelow => exact carry

end Condition

/-! ## Comparing, then branching -/

/-- CMP with a register or an immediate. -/
def SecondOperand.comparison (rn : Register) : SecondOperand → Instruction
  | register rm => ⟨.cmpReg, rn, rm, ()⟩
  | immediate v => ⟨.cmpImm, rn, v, ()⟩

namespace Machine

variable (m : Machine)

theorem execute_comparison (rn : Register) (operand : SecondOperand) :
    m.execute (operand.comparison rn) = .ok (m.compare (m.reg rn) (operand.value m)) := by
  cases operand with
  | register rm => rfl
  | immediate v =>
    rw [SecondOperand.value, ← ofInt_eq_signExtend]
    rfl

theorem perform_branch (c : Condition) (target : Field.addr20.Value) :
    m.perform (c.branch target) =
      .ok ([], m.jumpTo (if c.isMet m.flags then .ofInt target.val else m.pc + 4)) := by
  rw [perform_of_execute (c.execute_branch m target), branchIf]
  split <;> rfl

/-- **A comparison decides a branch.** CMP succeeds with a register or a sign-extended immediate as
the second operand, and it changes nothing but the flags and the program counter. On every machine
that has these flags, each conditional branch goes to its target if its relation holds between the
words that were compared, and else to the next word, and changes nothing but the program counter. -/
theorem comparison_decides_branch (rn : Register) (operand : SecondOperand) :
    ∃ flags, (m.execute (operand.comparison rn)).map Effects.flags = .ok (some flags) ∧
      m.perform (operand.comparison rn) = .ok ([], (m.jumpTo (m.pc + 4)).withFlags flags) ∧
      ∀ (m' : Machine) (c : Condition) (target : Field.addr20.Value),
        (m'.withFlags flags).perform (c.branch target) =
          .ok ([], (m'.withFlags flags).jumpTo
            (if c.Holds (m.reg rn) (operand.value m) then .ofInt target.val else m'.pc + 4)) := by
  have executed := m.execute_comparison rn operand
  refine ⟨subtractionFlags (m.reg rn) (operand.value m) (m.reg rn - operand.value m), ?_, ?_, ?_⟩
  · rw [executed]
    rfl
  · rw [perform_of_execute executed]
    rfl
  · intro m' c target
    rw [perform_branch, flags_withFlags, pc_withFlags]
    simp only [c.isMet_iff]

end Machine

end RobotMachine
