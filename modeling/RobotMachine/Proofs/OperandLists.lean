import RobotMachine.Proofs.Words

/-!
# Words and operand lists

A word that decodes, an instruction, and an opcode with a list of operands that its fields admit are
three ways to give the same thing. An operand list names the instruction whose operands it lists,
and a word decodes to the instruction whose word it is, so each way determines the two others.

* `Field.Admits`: the kind and the range of a field.
* `Operands.pack_eq_ok_iff`, `Operands.exists_unpack_iff`: which lists fill some fields, and how.
* `Instruction.words_and_operands`: the correspondence.
-/

namespace RobotMachine

/-- The operand is of the kind that a field holds, and in its range. -/
def Field.Admits : Field → OperandValue → Prop
  | .rd, .register _ | .rn, .register _ | .rm, .register _ => True
  | .imm16, .integer v => -0x8000 ≤ v ∧ v < 0x8000
  | .imm20, .integer v => -0x80000 ≤ v ∧ v < 0x80000
  | .shift, .integer v => 0 ≤ v ∧ v ≤ 32
  | .addr20, .integer v => 0 ≤ v ∧ v < 0x100000
  | _, _ => False

/-! ## One field -/

theorem OperandValue.val_of_toBounded {lo hi : Int} {field : Field} {a : OperandValue}
    {v : Bounded lo hi} (fits : a.toBounded lo hi field = .ok v) : .integer v.val = a := by
  cases a with
  | register r => cases fits
  | integer n =>
    simp only [toBounded, Bounded.ofInt?] at fits
    split at fits
    · next found =>
      split at found
      · cases found
        cases fits
        rfl
      · cases found
    · cases fits

namespace Field

variable {f : Field} {a : OperandValue}

/-- The only operand that packs into a value is the one that the value unpacks to. -/
theorem pack_eq_ok_iff {v : f.Value} : f.pack a = .ok v ↔ f.unpack v = a := by
  refine ⟨fun packed => ?_, fun unpacked => unpacked ▸ f.pack_unpack v⟩
  cases f with
  | rd | rn | rm =>
    cases a with
    | register r =>
      cases packed
      rfl
    | integer n => cases packed
  | imm16 | imm20 | shift | addr20 => exact OperandValue.val_of_toBounded packed

/-- A field admits the operands that its values unpack to, and no others. -/
theorem exists_unpack_iff : (∃ v, f.unpack v = a) ↔ f.Admits a := by
  constructor
  · rintro ⟨v, rfl⟩
    cases f with
    | rd | rn | rm => trivial
    | imm16 | imm20 | addr20 => exact v.property
    | shift => exact ⟨v.property.1, Int.lt_add_one_iff.mp v.property.2⟩
  · intro admitted
    cases a with
    | register r =>
      cases f with
      | rd | rn | rm => exact ⟨r, rfl⟩
      | imm16 | imm20 | shift | addr20 => cases admitted
    | integer n =>
      cases f with
      | rd | rn | rm => cases admitted
      | imm16 | imm20 | addr20 => exact ⟨⟨n, admitted⟩, rfl⟩
      | shift => exact ⟨⟨n, admitted.1, Int.lt_add_one_iff.mpr admitted.2⟩, rfl⟩

end Field

/-! ## Lists of fields -/

namespace Operands

theorem pack_eq_ok_iff {fields : List Field} {as : List OperandValue} {vs : Operands fields} :
    pack fields as = .ok vs ↔ unpack fields vs = as := by
  refine ⟨fun packed => ?_, fun unpacked => unpacked ▸ pack_unpack fields vs⟩
  induction fields generalizing as with
  | nil =>
    cases as with
    | nil => rfl
    | cons a as => cases packed
  | cons f fields ih =>
    cases as with
    | nil => cases packed
    | cons a as =>
      obtain ⟨v, head, packed⟩ := Except.bind_eq_ok_iff.mp packed
      obtain ⟨vs, tail, made⟩ := Except.bind_eq_ok_iff.mp packed
      cases made
      rw [unpack, Field.pack_eq_ok_iff.mp head, ih tail]

/-- Fields are filled by one operand each that they admit. -/
theorem exists_unpack_iff {fields : List Field} {as : List OperandValue} :
    (∃ vs, unpack fields vs = as) ↔ List.Forall₂ Field.Admits fields as := by
  induction fields generalizing as with
  | nil =>
    rw [List.forall₂_nil_left_iff]
    exact ⟨fun ⟨_, same⟩ => same.symm, fun same => ⟨(), same.symm⟩⟩
  | cons f fields ih =>
    simp only [List.forall₂_cons_left_iff, ← ih, ← Field.exists_unpack_iff]
    constructor
    · rintro ⟨⟨v, vs⟩, rfl⟩
      exact ⟨f.unpack v, unpack fields vs, ⟨v, rfl⟩, ⟨vs, rfl⟩, rfl⟩
    · rintro ⟨-, -, ⟨v, rfl⟩, ⟨vs, rfl⟩, rfl⟩
      exact ⟨(v, vs), rfl⟩

end Operands

/-! ## Instructions -/

namespace Instruction

/-- An opcode and operands make the instruction that has them. -/
theorem ofOperands_eq_ok_iff {op : Opcode} {as : List OperandValue} {i : Instruction} :
    ofOperands op as = .ok i ↔ i.opcode = op ∧ i.operandValues = as := by
  constructor
  · intro made
    obtain ⟨vs, packed, rfl⟩ := Except.map_eq_ok_iff.mp made
    exact ⟨rfl, Operands.pack_eq_ok_iff.mp packed⟩
  · rintro ⟨rfl, rfl⟩
    exact i.ofOperands_operandValues

theorem exists_ofOperands_iff {op : Opcode} {as : List OperandValue} :
    (∃ i, ofOperands op as = .ok i) ↔ List.Forall₂ Field.Admits op.fields as := by
  rw [← Operands.exists_unpack_iff]
  constructor
  · rintro ⟨i, made⟩
    obtain ⟨rfl, rfl⟩ := ofOperands_eq_ok_iff.mp made
    exact ⟨i.operands, rfl⟩
  · rintro ⟨vs, rfl⟩
    exact ⟨⟨op, vs⟩, ofOperands_eq_ok_iff.mpr ⟨rfl, rfl⟩⟩

theorem decode_eq_ok_iff {word : UInt32} {i : Instruction} :
    decode word = .ok i ↔ i.encode = word :=
  ⟨encode_of_decode, fun same => same ▸ i.decode_encode⟩

/-- **Words that decode and valid operand lists correspond one to one.** An opcode takes the lists
with one operand for each of its fields, each of the field's kind and in its range. The instruction
that it makes of such a list is the one with this opcode and these operands, and a word decodes to
the one instruction that has it as its word. So an instruction comes back from its word and from its
operands. -/
theorem words_and_operands :
    (∀ op as, (∃ i, ofOperands op as = .ok i) ↔ List.Forall₂ Field.Admits op.fields as) ∧
      (∀ op as i, ofOperands op as = .ok i ↔ i.opcode = op ∧ i.operandValues = as) ∧
      (∀ word i, decode word = .ok i ↔ i.encode = word) ∧
      ∀ i, decode i.encode = .ok i ∧ ofOperands i.opcode i.operandValues = .ok i :=
  ⟨fun _ _ => exists_ofOperands_iff, fun _ _ _ => ofOperands_eq_ok_iff,
    fun _ _ => decode_eq_ok_iff, fun i => ⟨i.decode_encode, i.ofOperands_operandValues⟩⟩

end Instruction

end RobotMachine
