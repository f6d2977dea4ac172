import Mathlib.Algebra.Order.Ring.Int
import RobotMachine.Proofs.MachineRuns

/-!
# Exact sums and differences

Words are added and subtracted modulo 2³², and the flags say how the result relates to the exact sum
or difference: the carry to that of the words as natural numbers, the overflow to that of the words
as integers in two's complement. The overflow is found with the sign bits alone: it is set if the
operands leave only one sign for the exact value and the result has the other.

* `signed`: a word as an integer in two's complement.
* `additionFlags_v_iff`, `subtractionFlags_v_iff`: the exact value does not fit into a word.
* `Machine.arithmetic_exact`: what ADD and SUB do to a machine.
-/

namespace RobotMachine

variable {a b : UInt32}

/-! ## Words as integers -/

/-- A word read as an integer in two's complement. -/
def signed (w : UInt32) : Int :=
  w.toBitVec.toInt

theorem neg_le_signed (w : UInt32) : -2 ^ 31 ≤ signed w :=
  BitVec.le_toInt w.toBitVec

theorem signed_lt (w : UInt32) : signed w < 2 ^ 31 :=
  BitVec.toInt_lt

theorem signed_inj : signed a = signed b ↔ a = b := by
  rw [signed, signed, BitVec.toInt_inj, UInt32.toBitVec_inj]

theorem signed_ofInt {v : Int} (lower : -2 ^ 31 ≤ v) (upper : v < 2 ^ 31) :
    signed (UInt32.ofInt v) = v := by
  have word : (UInt32.ofInt v).toBitVec = BitVec.ofInt 32 v := by
    apply BitVec.eq_of_toNat_eq
    rw [BitVec.toNat_ofInt, UInt32.toNat_toBitVec, UInt32.ofInt, UInt32.toNat_ofNat']
    omega
  rw [signed, word]
  exact BitVec.toInt_ofInt_eq_self (by decide) lower upper

theorem msb_iff_signed_neg (w : UInt32) : w.toBitVec.msb = true ↔ signed w < 0 := by
  rw [BitVec.msb_eq_toInt, decide_eq_true_eq, signed]

theorem msb_eq_testBit (w : UInt32) : w.toBitVec.msb = w.toNat.testBit 31 := by
  rw [BitVec.msb_eq_getLsbD_last, ← BitVec.testBit_toNat]
  rfl

/-- The exact value does not fit into a word in two's complement. -/
def Overflows (exact : Int) : Prop :=
  ¬ (-2 ^ 31 ≤ exact ∧ exact ≤ 2 ^ 31 - 1)

/-! ## Flags -/

/-- The sign bits tell whether the exact sum fits: only operands of one sign can overflow. -/
theorem additionFlags_v_iff :
    (additionFlags a b (a + b)).v = true ↔ Overflows (signed a + signed b) := by
  have signs : (additionFlags a b (a + b)).v = a.toBitVec.saddOverflow b.toBitVec := by
    rw [BitVec.saddOverflow_eq, additionFlags, UInt32.toBitVec_and, UInt32.toBitVec_xor,
      UInt32.toBitVec_xor, UInt32.toBitVec_add, BitVec.msb_and, BitVec.msb_xor, BitVec.msb_xor]
    cases a.toBitVec.msb <;> cases b.toBitVec.msb <;>
      cases (a.toBitVec + b.toBitVec).msb <;> rfl
  rw [signs, BitVec.saddOverflow, Overflows, signed, signed]
  simp only [Bool.or_eq_true, decide_eq_true_eq]
  omega

theorem subtractionFlags_v_iff :
    (subtractionFlags a b (a - b)).v = true ↔ Overflows (signed a - signed b) := by
  have signs : (subtractionFlags a b (a - b)).v = a.toBitVec.ssubOverflow b.toBitVec := by
    rw [BitVec.ssubOverflow_eq, subtractionFlags, UInt32.toBitVec_and, UInt32.toBitVec_xor,
      UInt32.toBitVec_xor, UInt32.toBitVec_sub, BitVec.msb_and, BitVec.msb_xor, BitVec.msb_xor]
    cases a.toBitVec.msb <;> cases b.toBitVec.msb <;>
      cases (a.toBitVec - b.toBitVec).msb <;> rfl
  rw [signs, BitVec.ssubOverflow, Overflows, signed, signed]
  simp only [Bool.or_eq_true, decide_eq_true_eq]
  omega

/-- A sum has wrapped if and only if it is below its operands. -/
theorem additionFlags_c_iff :
    (additionFlags a b (a + b)).c = true ↔ 2 ^ 32 ≤ a.toNat + b.toNat := by
  have small := a.toNat_lt
  have small' := b.toNat_lt
  rw [additionFlags, decide_eq_true_eq, UInt32.lt_iff_toNat_lt, UInt32.toNat_add]
  omega

theorem subtractionFlags_c_iff :
    (subtractionFlags a b (a - b)).c = true ↔ b.toNat ≤ a.toNat := by
  rw [subtractionFlags, decide_eq_true_eq, UInt32.le_iff_toNat_le]

/-! ## Addition and subtraction -/

/-- The second operand of an instruction. -/
inductive SecondOperand
  | register (rm : Register)
  | immediate (v : Field.imm16.Value)

/-- The word that the operand stands for: the contents of the register, or the sixteen bits of the
field with their sign extended. -/
def SecondOperand.value (m : Machine) : SecondOperand → UInt32
  | register rm => m.reg rm
  | immediate v => ⟨(BitVec.ofNat 16 (Field.imm16.bits v)).signExtend 32⟩

/-- Extending the sign keeps the integer, and the integer determines the word. -/
theorem ofInt_eq_signExtend (v : Field.imm16.Value) :
    UInt32.ofInt v.val = ⟨(BitVec.ofNat 16 (Field.imm16.bits v)).signExtend 32⟩ := by
  have lower : -2 ^ 15 ≤ v.val := v.property.1
  have upper : v.val < 2 ^ 15 := v.property.2
  have field : BitVec.ofNat 16 (Field.imm16.bits v) = BitVec.ofInt 16 v.val := by
    apply BitVec.eq_of_toNat_eq
    rw [BitVec.toNat_ofNat, BitVec.toNat_ofInt, Field.bits]
    omega
  apply signed_inj.mp
  rw [signed_ofInt (by omega) (by omega), signed, BitVec.toInt_signExtend_of_le (by decide), field]
  exact (BitVec.toInt_ofInt_eq_self (by decide) lower upper).symm

/-- The two operations that set the flags by their exact result. -/
inductive Arithmetic
  | addition
  | subtraction

namespace Arithmetic

/-- The exact sum or difference. -/
def exact : Arithmetic → Int → Int → Int
  | addition, x, y => x + y
  | subtraction, x, y => x - y

/-- What the carry says of two natural numbers: their sum is too large for a word, or nothing is
borrowed for their difference. -/
def Carries : Arithmetic → Nat → Nat → Prop
  | addition, x, y => 2 ^ 32 ≤ x + y
  | subtraction, x, y => y ≤ x

/-- ADD or SUB, with a register or an immediate. -/
def instruction (rd rn : Register) : Arithmetic → SecondOperand → Instruction
  | addition, .register rm => ⟨.addReg, rd, rn, rm, ()⟩
  | addition, .immediate v => ⟨.addImm, rd, rn, v, ()⟩
  | subtraction, .register rm => ⟨.subReg, rd, rn, rm, ()⟩
  | subtraction, .immediate v => ⟨.subImm, rd, rn, v, ()⟩

/-- The effects of the operation on two words. -/
def effects (m : Machine) (rd : Register) : Arithmetic → UInt32 → UInt32 → Effects
  | addition, a, b => m.add rd a b
  | subtraction, a, b => m.subtract rd a b

theorem execute_instruction (m : Machine) (op : Arithmetic) (rd rn : Register)
    (operand : SecondOperand) :
    m.execute (op.instruction rd rn operand) =
      .ok (op.effects m rd (m.reg rn) (operand.value m)) := by
  cases operand with
  | register rm => cases op <;> rfl
  | immediate v =>
    rw [SecondOperand.value, ← ofInt_eq_signExtend]
    cases op <;> rfl

/-- A result and flags are exact for two operands: the result is the exact value modulo 2³², and the
flags are its sign bit, whether it is zero, the carry, and whether the operands, taken with their
signs, overflow. -/
structure IsExact (op : Arithmetic) (a b result : UInt32) (flags : Flags) : Prop where
  result_eq : (result.toNat : Int) = op.exact a.toNat b.toNat % 2 ^ 32
  negative_eq : flags.n = result.toNat.testBit 31
  zero_iff : flags.z = true ↔ result = 0
  carry_iff : flags.c = true ↔ op.Carries a.toNat b.toNat
  overflow_iff : flags.v = true ↔ Overflows (op.exact (signed a) (signed b))

theorem isExact_addition : addition.IsExact a b (a + b) (additionFlags a b (a + b)) := by
  constructor
  case result_eq =>
    rw [exact, UInt32.toNat_add]
    omega
  case negative_eq => exact msb_eq_testBit _
  case zero_iff => exact beq_iff_eq
  case carry_iff => exact additionFlags_c_iff
  case overflow_iff => exact additionFlags_v_iff

theorem isExact_subtraction :
    subtraction.IsExact a b (a - b) (subtractionFlags a b (a - b)) := by
  constructor
  case result_eq =>
    have small := a.toNat_lt
    have small' := b.toNat_lt
    rw [exact, UInt32.toNat_sub]
    omega
  case negative_eq => exact msb_eq_testBit _
  case zero_iff => exact beq_iff_eq
  case carry_iff => exact subtractionFlags_c_iff
  case overflow_iff => exact subtractionFlags_v_iff

theorem isExact_apply (m : Machine) (op : Arithmetic) (rd : Register) (a b : UInt32) :
    op.IsExact a b ((m.apply (op.effects m rd a b)).reg rd)
      (m.apply (op.effects m rd a b)).flags := by
  cases op with
  | addition =>
    have result : (m.apply (m.add rd a b)).reg rd = a + b :=
      m.reg_apply_of_concat (List.nil_append _).symm
    rw [effects, result]
    exact isExact_addition
  | subtraction =>
    have result : (m.apply (m.subtract rd a b)).reg rd = a - b :=
      m.reg_apply_of_concat (List.nil_append _).symm
    rw [effects, result]
    exact isExact_subtraction

end Arithmetic

/-- **Addition and subtraction are exact.** Whatever the registers hold, ADD and SUB succeed with a
register or a sign-extended immediate as the second operand. The destination gets the exact sum or
difference of the operands modulo 2³², also if it is one of them, and the flags are exact. No other
register changes, and memory does not. -/
theorem Machine.arithmetic_exact (m : Machine) (op : Arithmetic) (rd rn : Register)
    (operand : SecondOperand) :
    ∃ m', m.perform (op.instruction rd rn operand) = .ok ([], m') ∧
      op.IsExact (m.reg rn) (operand.value m) (m'.reg rd) m'.flags ∧
      m'.pc = m.pc + 4 ∧ m.registers.AgreeOutside [rd] m'.registers ∧ m'.memory = m.memory := by
  have performed := perform_of_execute (op.execute_instruction m rd rn operand)
  have exact := op.isExact_apply m rd (m.reg rn) (operand.value m)
  have unchanged := m.agreeOutside_apply (op.effects m rd (m.reg rn) (operand.value m))
  cases op with
  | addition => exact ⟨_, performed, exact, rfl, unchanged.1, rfl⟩
  | subtraction => exact ⟨_, performed, exact, rfl, unchanged.1, rfl⟩

end RobotMachine
