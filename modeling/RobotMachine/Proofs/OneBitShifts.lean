import RobotMachine.Proofs.ExactFlags
import Mathlib.Logic.Function.Iterate

/-!
# Shifts bit by bit

A shift by any amount is the shift by one bit, made as often as the low byte of the amount says.
Each time the bit that is moved out becomes the carry, so the last one remains, and a shift by zero
keeps the carry that came in. On words that can be shifted by less than their width only, the same
shift is put together from cases: no bits, fewer than 32, all 32, and more.

* `Shift.oneBit`: the shift by one bit.
* `Shift.apply_eq_iterate`: a shift is the one-bit shift, repeated.
* `Shift.byCases`, `Shift.byCases_eq_apply`: the cases together are the shift.
* `Machine.shift_iterates`: what LSL, LSR and ASR do to a machine.
-/

namespace RobotMachine

namespace Shift

variable (kind : Shift) (w : UInt32) (n : Nat)

/-! ## One bit at a time -/

/-- A word moved by one bit. A zero comes in behind it, or for an arithmetic shift the sign. -/
def moveOne : Shift → UInt32 → UInt32
  | left, w => ⟨(w.toBitVec.setWidth 31).concat false⟩
  | right, w => ⟨(w.toBitVec.extractLsb' 1 31).cons false⟩
  | arithmeticRight, w => ⟨(w.toBitVec.extractLsb' 1 31).cons w.toBitVec.msb⟩

/-- The bit that goes out of a word when it is moved by one bit. -/
def bitOut : Shift → UInt32 → Bool
  | left, w => w.toBitVec.msb
  | right, w | arithmeticRight, w => w.toBitVec.getLsbD 0

/-- The shift of a word and a carry by one bit. The bit that goes out becomes the carry. -/
def oneBit (kind : Shift) : UInt32 × Bool → UInt32 × Bool
  | (w, _) => (kind.moveOne w, kind.bitOut w)

theorem concat_eq_shiftLeft (x : BitVec 32) : (x.setWidth 31).concat false = x <<< 1 := by
  apply BitVec.eq_of_getElem_eq
  intro i below
  rw [BitVec.getElem_concat, BitVec.getElem_shiftLeft]
  by_cases first : i = 0
  · subst first
    rfl
  · have moved : ¬ i < 1 := by omega
    rw [dif_neg first, BitVec.getElem_setWidth, BitVec.getLsbD_eq_getElem, decide_eq_false moved,
      Bool.not_false, Bool.true_and]

theorem cons_eq_ushiftRight (x : BitVec 32) : (x.extractLsb' 1 31).cons false = x >>> 1 := by
  apply BitVec.eq_of_getElem_eq
  intro i below
  rw [BitVec.getElem_cons, BitVec.getElem_ushiftRight]
  by_cases last : i = 31
  · rw [dif_pos last, BitVec.getLsbD_of_ge _ _ (by omega)]
  · rw [dif_neg last, BitVec.getElem_extractLsb']

theorem cons_eq_sshiftRight (x : BitVec 32) :
    (x.extractLsb' 1 31).cons x.msb = x.sshiftRight 1 := by
  apply BitVec.eq_of_getElem_eq
  intro i below
  rw [BitVec.getElem_cons, BitVec.getElem_sshiftRight]
  by_cases last : i = 31
  · rw [dif_pos last, dif_neg (by omega)]
  · rw [dif_neg last, dif_pos (by omega), BitVec.getElem_extractLsb', BitVec.getLsbD_eq_getElem]

theorem moveOne_eq : kind.moveOne w = kind.result w 1 := by
  apply UInt32.toBitVec_inj.mp
  cases kind with
  | left => exact concat_eq_shiftLeft w.toBitVec
  | right => exact cons_eq_ushiftRight w.toBitVec
  | arithmeticRight => exact cons_eq_sshiftRight w.toBitVec

theorem result_zero : kind.result w 0 = w := by
  apply UInt32.toBitVec_inj.mp
  cases kind with
  | left => exact BitVec.shiftLeft_zero _
  | right => exact BitVec.ushiftRight_zero _
  | arithmeticRight => exact BitVec.sshiftRight_zero

theorem moveOne_result : kind.moveOne (kind.result w n) = kind.result w (n + 1) := by
  rw [moveOne_eq]
  apply UInt32.toBitVec_inj.mp
  cases kind with
  | left => exact (BitVec.shiftLeft_add _ n 1).symm
  | right => exact (BitVec.shiftRight_add _ n 1).symm
  | arithmeticRight => exact BitVec.sshiftRight_add.symm

/-- The bit that goes out next is the last one of a shift by one bit more. -/
theorem bitOut_result : kind.bitOut (kind.result w n) = kind.lastBitOut w (n + 1) := by
  cases kind with
  | left =>
    rw [bitOut, result, lastBitOut, BitVec.msb_eq_getLsbD_last, BitVec.getLsbD_shiftLeft]
    have position : 32 - 1 - n = 32 - (n + 1) := by omega
    have inside : n + 1 ≤ 32 ↔ ¬ 32 - 1 < n := by omega
    rw [position, decide_eq_decide.mpr inside, decide_not]
    rfl
  | right =>
    rw [bitOut, result, lastBitOut, BitVec.getLsbD_ushiftRight]
    rfl
  | arithmeticRight =>
    rw [bitOut, result, lastBitOut, BitVec.getLsbD_sshiftRight, Nat.add_sub_cancel, Nat.add_zero]
    by_cases within : n < 32
    · have lowest : min n 31 = n := by omega
      rw [lowest, if_pos within]
      rfl
    · have lowest : min n 31 = 31 := by omega
      rw [lowest, if_neg within, BitVec.msb_eq_getLsbD_last]
      rfl

theorem iterate_oneBit_succ (carry : Bool) :
    kind.oneBit^[n + 1] (w, carry) = (kind.result w (n + 1), kind.lastBitOut w (n + 1)) := by
  induction n with
  | zero => rw [Function.iterate_one, ← bitOut_result, ← moveOne_result, result_zero, oneBit]
  | succ n ih =>
    rw [Function.iterate_succ_apply', ih, oneBit, moveOne_result, bitOut_result]

/-- A shift by no bits is none, and keeps the carry. -/
theorem apply_eq_iterate (amount : UInt32) (carry : Bool) :
    kind.apply w amount carry = kind.oneBit^[amount.toNat % 256] (w, carry) := by
  rw [apply]
  cases amount.toNat % 256 with
  | zero => rfl
  | succ n => exact (kind.iterate_oneBit_succ w n carry).symm

/-! ## Shifts by cases -/

/-- A bit of a word, moved to the lowest place. -/
def bit (w n : UInt32) : Bool :=
  (w >>> n) &&& 1 == 1

/-- A shift by some bits, put together from shifts by fewer than 32. -/
def someBits : Shift → UInt32 → UInt32 → UInt32 × Bool
  | left, w, n =>
    if n < 32 then (w <<< n, bit w (32 - n))
    else if n = 32 then (0, bit w 0)
    else (0, false)
  | right, w, n =>
    if n < 32 then (w >>> n, bit w (n - 1))
    else if n = 32 then (0, bit w 31)
    else (0, false)
  | arithmeticRight, w, n =>
    if n < 32 then ((w.toInt32 >>> n.toInt32).toUInt32, bit w (n - 1))
    else ((w.toInt32 >>> 31).toUInt32, bit w 31)

/-- The shift by as many bits as the low byte of the amount says, if that is not zero. -/
def byCases (kind : Shift) (w amount : UInt32) (carry : Bool) : UInt32 × Bool :=
  let n := amount &&& 0xff
  if n = 0 then (w, carry) else kind.someBits w n

section

variable {n : UInt32} (below : n.toNat < 32)

include below

theorem toNat_mod_width : (n.toBitVec % 32).toNat = n.toNat := by
  rw [BitVec.toNat_umod, UInt32.toNat_toBitVec]
  exact Nat.mod_eq_of_lt below

theorem shiftLeft_eq_result : w <<< n = left.result w n.toNat := by
  apply UInt32.toBitVec_inj.mp
  rw [UInt32.toBitVec_shiftLeft, BitVec.shiftLeft_eq', toNat_mod_width below, result]

theorem shiftRight_eq_result : w >>> n = right.result w n.toNat := by
  apply UInt32.toBitVec_inj.mp
  rw [UInt32.toBitVec_shiftRight, BitVec.ushiftRight_eq', toNat_mod_width below, result]

theorem int_shiftRight_eq_result :
    (w.toInt32 >>> n.toInt32).toUInt32 = arithmeticRight.result w n.toNat := by
  have positive : n.toBitVec.msb = false := by
    rw [BitVec.msb_eq_decide, decide_eq_false_iff_not, UInt32.toNat_toBitVec]
    omega
  have count : (n.toBitVec.smod 32).toNat = n.toNat := by
    rw [BitVec.toNat_smod, positive]
    exact toNat_mod_width below
  have shifted := Int32.toBitVec_shiftRight w.toInt32 n.toInt32
  rw [BitVec.sshiftRight_eq', UInt32.toBitVec_toInt32, UInt32.toBitVec_toInt32, count] at shifted
  apply UInt32.toBitVec_inj.mp
  exact shifted

theorem bit_eq_getLsbD : bit w n = w.toBitVec.getLsbD n.toNat := by
  have lowest : ((w >>> n) &&& 1).toBitVec =
      BitVec.setWidth 32 (BitVec.ofBool (w.toBitVec.getLsbD n.toNat)) := by
    have one : (1 : UInt32).toBitVec = 1#32 := rfl
    rw [shiftRight_eq_result w below, UInt32.toBitVec_and, one,
      BitVec.and_one_eq_setWidth_ofBool_getLsbD, result, BitVec.getLsbD_ushiftRight, Nat.add_zero]
  have compared : bit w n = (((w >>> n) &&& 1).toBitVec == 1#32) := by
    rw [bit, Bool.eq_iff_iff, beq_iff_eq, beq_iff_eq, ← UInt32.toBitVec_inj]
    rfl
  rw [compared, lowest]
  cases w.toBitVec.getLsbD n.toNat with
  | false => rfl
  | true => rfl

end

/-- Beyond 31 bits nothing but the sign is left. -/
theorem sshiftRight_of_width_le (x : BitVec 32) {n : Nat} (wide : 32 ≤ n) :
    x.sshiftRight n = x.sshiftRight 31 := by
  apply BitVec.eq_of_getElem_eq
  intro i below
  rw [BitVec.getElem_sshiftRight, BitVec.getElem_sshiftRight, dif_neg (by omega)]
  split
  · next inside =>
    have lowest : i = 0 := by omega
    subst lowest
    exact BitVec.msb_eq_getLsbD_last x
  · rfl

theorem someBits_of_lt {n : UInt32} (some : n.toNat ≠ 0) (fewer : n.toNat < 32) :
    kind.someBits w n = (kind.result w n.toNat, kind.lastBitOut w n.toNat) := by
  have below : n < 32 := UInt32.lt_iff_toNat_lt.mpr fewer
  have pred : (n - 1).toNat = n.toNat - 1 :=
    UInt32.toNat_sub_of_le n 1 (UInt32.le_iff_toNat_le.mpr (Nat.pos_of_ne_zero some))
  have rest : (32 - n).toNat = 32 - n.toNat :=
    UInt32.toNat_sub_of_le 32 n (UInt32.le_iff_toNat_le.mpr (Nat.le_of_lt fewer))
  cases kind with
  | left =>
    rw [someBits, if_pos below, shiftLeft_eq_result w fewer, bit_eq_getLsbD w (by omega), rest,
      lastBitOut, decide_eq_true (Nat.le_of_lt fewer), Bool.true_and]
  | right =>
    rw [someBits, if_pos below, shiftRight_eq_result w fewer, bit_eq_getLsbD w (by omega), pred,
      lastBitOut]
  | arithmeticRight =>
    have lowest : min (n.toNat - 1) 31 = n.toNat - 1 := by omega
    rw [someBits, if_pos below, int_shiftRight_eq_result w fewer, bit_eq_getLsbD w (by omega),
      pred, lastBitOut, lowest]

theorem someBits_of_width_le {n : UInt32} (wide : 32 ≤ n.toNat) :
    kind.someBits w n = (kind.result w n.toNat, kind.lastBitOut w n.toNat) := by
  have beyond : ¬ n < 32 := mt UInt32.lt_iff_toNat_lt.mp (Nat.not_lt.mpr wide)
  have all_iff : n = 32 ↔ n.toNat = 32 := UInt32.toNat_inj.symm
  cases kind with
  | left =>
    have cleared : left.result w n.toNat = 0 :=
      UInt32.toBitVec_inj.mp (BitVec.shiftLeft_eq_zero wide)
    rw [someBits, if_neg beyond, cleared, lastBitOut]
    by_cases all : n.toNat = 32
    · rw [if_pos (all_iff.mpr all), bit_eq_getLsbD w (by decide), all]
      rfl
    · have more : ¬ n.toNat ≤ 32 := by omega
      rw [if_neg (mt all_iff.mp all), decide_eq_false more, Bool.false_and]
  | right =>
    have cleared : right.result w n.toNat = 0 :=
      UInt32.toBitVec_inj.mp (BitVec.ushiftRight_eq_zero wide)
    rw [someBits, if_neg beyond, cleared, lastBitOut]
    by_cases all : n.toNat = 32
    · rw [if_pos (all_iff.mpr all), bit_eq_getLsbD w (by decide), all]
      rfl
    · rw [if_neg (mt all_iff.mp all), BitVec.getLsbD_of_ge _ _ (by omega)]
  | arithmeticRight =>
    have lowest : min (n.toNat - 1) 31 = 31 := by omega
    have filled : arithmeticRight.result w n.toNat = arithmeticRight.result w 31 :=
      UInt32.toBitVec_inj.mp (sshiftRight_of_width_le _ wide)
    have shifted := int_shiftRight_eq_result w (n := 31) (by decide)
    rw [someBits, if_neg beyond, filled, lastBitOut, lowest, bit_eq_getLsbD w (by decide)]
    exact congrArg₂ Prod.mk shifted rfl

theorem someBits_eq {n : UInt32} (some : n.toNat ≠ 0) :
    kind.someBits w n = (kind.result w n.toNat, kind.lastBitOut w n.toNat) := by
  rcases Nat.lt_or_ge n.toNat 32 with fewer | wide
  · exact kind.someBits_of_lt w some fewer
  · exact kind.someBits_of_width_le w wide

/-- The cases agree with the shift by any number of bits. -/
theorem byCases_eq_apply (amount : UInt32) (carry : Bool) :
    kind.byCases w amount carry = kind.apply w amount carry := by
  have count : (amount &&& 0xff).toNat = amount.toNat % 256 := by
    rw [UInt32.toNat_and]
    exact Nat.and_two_pow_sub_one_eq_mod _ 8
  have none_iff : amount &&& 0xff = 0 ↔ (amount &&& 0xff).toNat = 0 := UInt32.toNat_inj.symm
  unfold byCases apply
  rw [← count]
  by_cases none : (amount &&& 0xff).toNat = 0
  · rw [if_pos (none_iff.mpr none), if_pos none]
  · rw [if_neg (mt none_iff.mp none), if_neg none, someBits_eq kind w none]

/-! ## Shift instructions -/

/-- By how much an instruction shifts. -/
inductive Amount
  | register (rm : Register)
  | immediate (v : Field.shift.Value)

namespace Amount

/-- The amount as a natural number. -/
def value (m : Machine) : Amount → Nat
  | register rm => (m.reg rm).toNat
  | immediate v => v.val.toNat

theorem value_lt (m : Machine) (amount : Amount) : amount.value m < 2 ^ 32 := by
  cases amount with
  | register rm => exact (m.reg rm).toNat_lt
  | immediate v =>
    have upper : v.val < 33 := v.property.2
    rw [value]
    omega

end Amount

/-- LSL, LSR or ASR, with a register or an immediate. -/
def instruction (rd rn : Register) : Shift → Amount → Instruction
  | left, .register rm => ⟨.lslReg, rd, rn, rm, ()⟩
  | left, .immediate v => ⟨.lslImm, rd, rn, v, ()⟩
  | right, .register rm => ⟨.lsrReg, rd, rn, rm, ()⟩
  | right, .immediate v => ⟨.lsrImm, rd, rn, v, ()⟩
  | arithmeticRight, .register rm => ⟨.asrReg, rd, rn, rm, ()⟩
  | arithmeticRight, .immediate v => ⟨.asrImm, rd, rn, v, ()⟩

theorem execute_instruction (m : Machine) (rd rn : Register) (amount : Amount) :
    m.execute (kind.instruction rd rn amount) =
      .ok (m.assignShift kind rd (m.reg rn) (.ofNat (amount.value m))) := by
  cases amount with
  | register rm =>
    rw [Amount.value, UInt32.ofNat_toNat]
    cases kind <;> rfl
  | immediate v =>
    have lower : 0 ≤ v.val := v.property.1
    have upper : v.val < 33 := v.property.2
    have same : UInt32.ofInt v.val = .ofNat v.val.toNat := by
      rw [UInt32.ofInt, Int.emod_eq_of_lt lower (by omega)]
    rw [Amount.value, ← same]
    cases kind <;> rfl

end Shift

/-- **A shift is a repeated shift by one bit.** Whatever the registers and the carry hold, LSL, LSR
and ASR succeed, with an amount in a register or in the instruction. The destination and the carry
become what the shift by one bit makes of the source and the carry if it is made as often as the low
byte of the amount says, and the cases on shifts by fewer than 32 bits give the same. The sign and
the zero flag are those of the result, and nothing else changes but the program counter. -/
theorem Machine.shift_iterates (m : Machine) (kind : Shift) (rd rn : Register)
    (amount : Shift.Amount) :
    ∃ m', m.perform (kind.instruction rd rn amount) = .ok ([], m') ∧
      (m'.reg rd, m'.flags.c) = kind.oneBit^[amount.value m % 256] (m.reg rn, m.flags.c) ∧
      (m'.reg rd, m'.flags.c) = kind.byCases (m.reg rn) (.ofNat (amount.value m)) m.flags.c ∧
      m'.flags.n = (m'.reg rd).toNat.testBit 31 ∧ (m'.flags.z = true ↔ m'.reg rd = 0) ∧
      m'.flags.v = m.flags.v ∧ m'.pc = m.pc + 4 ∧
      m.registers.AgreeOutside [rd] m'.registers ∧ m'.memory = m.memory := by
  have executed := kind.execute_instruction m rd rn amount
  have count : (UInt32.ofNat (amount.value m)).toNat = amount.value m :=
    UInt32.toNat_ofNat_of_lt' (amount.value_lt m)
  have iterated := kind.apply_eq_iterate (m.reg rn) (.ofNat (amount.value m)) m.flags.c
  rw [count] at iterated
  generalize UInt32.ofNat (amount.value m) = word at executed iterated
  have result : (m.apply (m.assignShift kind rd (m.reg rn) word)).reg rd =
      (kind.apply (m.reg rn) word m.flags.c).1 :=
    m.reg_apply_of_concat (List.nil_append _).symm
  have unchanged := m.agreeOutside_apply (m.assignShift kind rd (m.reg rn) word)
  refine ⟨_, perform_of_execute executed, ?_, ?_, ?_, ?_, rfl, rfl, unchanged.1, rfl⟩
  · rw [result, ← iterated]
    rfl
  · rw [result, Shift.byCases_eq_apply]
    rfl
  · rw [result]
    exact msb_eq_testBit _
  · rw [result]
    exact beq_iff_eq

end RobotMachine
