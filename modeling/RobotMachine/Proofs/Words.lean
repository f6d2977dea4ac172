import RobotMachine.Instruction.Basic
import RobotMachine.Proofs.Outcome

/-!
# Instructions, their words and their operands

* `Instruction.encode_of_decode`: an instruction that was decoded encodes to the same word.
* `Instruction.decode_encode`: the word of an instruction decodes to it.
* `Instruction.ofOperands_operandValues`: the operands of an instruction give it back.
* `Opcode.serves`: written operands and fields correspond for every opcode.
-/

namespace RobotMachine

/-! ## Words -/

theorem Instruction.encode_of_decode {word : UInt32} {i : Instruction}
    (decoded : decode word = .ok i) : i.encode = word := by
  simp only [decode] at decoded
  split at decoded
  · cases decoded
  split at decoded
  · cases decoded
  split at decoded
  · next same =>
    cases decoded
    exact same
  · cases decoded

/-! ### Fields side by side -/

namespace Field

/-- The weight of a field's lowest bit in a word. -/
def unit : Field → Nat
  | rd => 0x100000
  | rn => 0x10000
  | rm | imm16 | imm20 | shift | addr20 => 1

/-- The number of contents that the bits of a field can have. -/
def size : Field → Nat
  | rd | rn | rm => 16
  | imm16 | shift => 0x10000
  | imm20 | addr20 => 0x100000

theorem registerIn_eq_ok {bits : Nat} {r : Register} (same : bits % 16 = r.index.val) :
    registerIn bits = .ok r := by
  have found : Register.ofNat? (bits % 16) = some r := by
    rw [same]
    exact dif_pos r.index.isLt
  rw [registerIn, found]

theorem boundedIn_eq_ok {lo hi n : Int} (v : Bounded lo hi) (same : n = v.val) :
    boundedIn lo hi n = .ok v := by
  subst same
  have found : Bounded.ofInt? lo hi v.val = some v := dif_pos v.property
  rw [boundedIn, found]

/-- A value fills the bits of its field and no others, and is read back from a word in which the
field has those bits. -/
theorem exists_content (f : Field) (v : f.Value) :
    ∃ content < f.size, f.bits v = content * f.unit ∧
      ∀ word, word / f.unit % f.size = content → f.extract word = .ok v := by
  cases f with
  | rd | rn =>
    exact ⟨_, Nat.lt_of_lt_of_le v.index.isLt (by decide), rfl, fun _ => registerIn_eq_ok⟩
  | rm =>
    refine ⟨_, Nat.lt_of_lt_of_le v.index.isLt (by decide), (Nat.mul_one _).symm, ?_⟩
    intro word same
    rw [unit, Nat.div_one] at same
    exact registerIn_eq_ok same
  | imm16 | imm20 =>
    obtain ⟨lower, upper⟩ := v.property
    simp only [unit, size, bits, extract, Nat.mul_one, Nat.div_one]
    refine ⟨_, ?_, rfl, fun word same => boundedIn_eq_ok v ?_⟩
    · omega
    · rw [Int.bmod_def]
      split
      · omega
      · omega
  | shift | addr20 =>
    obtain ⟨lower, upper⟩ := v.property
    simp only [unit, size, bits, extract, Nat.mul_one, Nat.div_one]
    refine ⟨_, ?_, rfl, fun word same => boundedIn_eq_ok v ?_⟩
    · omega
    · omega

/-- The fields lie below a bound, each below the one before it. -/
def Descend : (bound : Nat) → List Field → Prop
  | _, [] => True
  | bound, f :: fields => f.unit * f.size ∣ bound ∧ Descend f.unit fields

instance Descend.decidable :
    (bound : Nat) → (fields : List Field) → Decidable (Descend bound fields)
  | _, [] => inferInstanceAs (Decidable True)
  | bound, f :: fields =>
    have := decidable f.unit fields
    inferInstanceAs (Decidable (f.unit * f.size ∣ bound ∧ Descend f.unit fields))

theorem unit_pos (f : Field) : 0 < f.unit := by
  cases f <;> decide

end Field

/-- In every form the fields stand below the opcode without overlapping. -/
theorem Opcode.fields_descend (op : Opcode) : Field.Descend 0x1000000 op.fields := by
  cases op <;> decide

namespace Operands

theorem bits_lt {bound : Nat} {fields : List Field} (positive : 0 < bound)
    (descend : Field.Descend bound fields) (vs : Operands fields) : bits fields vs < bound := by
  induction fields generalizing bound with
  | nil => exact positive
  | cons f fields ih =>
    obtain ⟨v, vs⟩ := vs
    obtain ⟨divides, below⟩ := descend
    obtain ⟨content, small, fills, -⟩ := f.exists_content v
    have rest : bits fields vs < f.unit := ih f.unit_pos below vs
    have within : f.unit * f.size ≤ bound := Nat.le_of_dvd positive divides
    have room : (content + 1) * f.unit ≤ f.size * f.unit := Nat.mul_le_mul_right _ small
    rw [bits, fills]
    rw [Nat.add_mul, Nat.one_mul, Nat.mul_comm f.size] at room
    omega

/-- A word with the bits of some values gives these values back. -/
theorem extract_of_bits {bound word : Nat} {fields : List Field} (positive : 0 < bound)
    (descend : Field.Descend bound fields) {vs : Operands fields}
    (same : word % bound = bits fields vs) : extract word fields = .ok vs := by
  induction fields generalizing bound with
  | nil => rfl
  | cons f fields ih =>
    obtain ⟨v, vs⟩ := vs
    obtain ⟨divides, below⟩ := descend
    obtain ⟨content, small, fills, reads⟩ := f.exists_content v
    have rest : bits fields vs < f.unit := bits_lt f.unit_pos below vs
    -- the word and the bits agree on what lies above the rest, and on the rest
    have high : word / f.unit % f.size = content := by
      have whole : word % (f.unit * f.size) = content * f.unit + bits fields vs := by
        rw [← Nat.mod_mod_of_dvd word divides, same, bits, fills]
        refine Nat.mod_eq_of_lt ?_
        have room : (content + 1) * f.unit ≤ f.size * f.unit := Nat.mul_le_mul_right _ small
        rw [Nat.add_mul, Nat.one_mul, Nat.mul_comm f.size] at room
        omega
      rw [← Nat.mod_mul_right_div_self, whole, Nat.mul_comm, Nat.mul_add_div f.unit_pos,
        Nat.div_eq_of_lt rest, Nat.add_zero]
    have low : word % f.unit = bits fields vs := by
      have unit_dvd : f.unit ∣ bound := Nat.dvd_trans (Nat.dvd_mul_right _ _) divides
      rw [← Nat.mod_mod_of_dvd word unit_dvd, same, bits, fills, Nat.mul_add_mod_self_right,
        Nat.mod_eq_of_lt rest]
    rw [extract, reads word high, Except.ok_bind, ih f.unit_pos below low]
    rfl

end Operands

theorem Instruction.decode_eq_ok {word : UInt32} {op : Opcode} {operands : Operands op.fields}
    (found : Opcode.ofCode? (UInt8.ofNat (word.toNat / 0x1000000)) = some op)
    (read : Operands.extract word.toNat op.fields = .ok operands)
    (same : encode ⟨op, operands⟩ = word) : decode word = .ok ⟨op, operands⟩ := by
  simp only [decode, found, read, if_pos same]

/-- The operands of an instruction leave the top byte to its opcode. -/
theorem Instruction.bits_lt (i : Instruction) : i.operands.bits < 0x1000000 :=
  Operands.bits_lt (by decide) i.opcode.fields_descend i.operands

theorem Instruction.toNat_encode (i : Instruction) :
    i.encode.toNat = i.opcode.code.toNat * 0x1000000 + i.operands.bits := by
  have small := i.bits_lt
  have code : i.opcode.code.toNat < 0x100 := i.opcode.code.toNat_lt
  rw [encode, UInt32.toNat_ofNat']
  omega

/-- The word of an instruction decodes to it. -/
theorem Instruction.decode_encode (i : Instruction) : decode i.encode = .ok i := by
  have small := i.bits_lt
  have number := i.toNat_encode
  have high : i.encode.toNat / 0x1000000 = i.opcode.code.toNat := by omega
  have low : i.encode.toNat % 0x1000000 = i.operands.bits := by omega
  refine decode_eq_ok ?_ ?_ rfl
  · rw [high, UInt8.ofNat_toNat, Opcode.ofCode?_code]
  · exact Operands.extract_of_bits (by decide) i.opcode.fields_descend low

/-! ## Operands -/

theorem Bounded.ofInt?_val {lo hi : Int} (v : Bounded lo hi) : ofInt? lo hi v.val = some v :=
  dif_pos v.property

theorem OperandValue.toBounded_val {lo hi : Int} (field : Field) (v : Bounded lo hi) :
    (OperandValue.integer v.val).toBounded lo hi field = .ok v := by
  simp only [toBounded, Bounded.ofInt?_val]

theorem Field.pack_unpack (f : Field) (v : f.Value) : f.pack (f.unpack v) = .ok v := by
  cases f with
  | rd | rn | rm => rfl
  | imm16 => exact OperandValue.toBounded_val .imm16 v
  | imm20 => exact OperandValue.toBounded_val .imm20 v
  | shift => exact OperandValue.toBounded_val .shift v
  | addr20 => exact OperandValue.toBounded_val .addr20 v

theorem Operands.pack_unpack (fields : List Field) (vs : Operands fields) :
    pack fields (unpack fields vs) = .ok vs := by
  induction fields with
  | nil => rfl
  | cons f fields ih =>
    obtain ⟨v, vs⟩ := vs
    rw [unpack, pack, Field.pack_unpack, Except.ok_bind, ih]
    rfl

theorem Instruction.ofOperands_operandValues (i : Instruction) :
    ofOperands i.opcode i.operandValues = .ok i := by
  rw [ofOperands, operandValues, Operands.pack_unpack]
  rfl

/-! ## Shapes and fields -/

/-- Operands that are written in the shapes give one value for each of the fields, in the same
order and of the field's kind. -/
inductive Serves : List OperandShape → List Field → Prop
  | nil : Serves [] []
  | register {f shapes fields} (kind : f ∈ [Field.rd, .rn, .rm]) (rest : Serves shapes fields) :
    Serves (.register :: shapes) (f :: fields)
  | immediate {f shapes fields} (kind : f ∈ [Field.imm16, .imm20, .shift])
    (rest : Serves shapes fields) : Serves (.immediate :: shapes) (f :: fields)
  | memoryOffset {shapes fields} (rest : Serves shapes fields) :
    Serves (.memoryOffset :: shapes) (.rn :: .imm16 :: fields)
  | memoryAbsolute {shapes fields} (rest : Serves shapes fields) :
    Serves (.memoryAbsolute :: shapes) (.addr20 :: fields)
  | target {shapes fields} (rest : Serves shapes fields) :
    Serves (.target :: shapes) (.addr20 :: fields)

theorem Opcode.serves (op : Opcode) : Serves op.shapes op.fields := by
  cases op
  all_goals
    repeat first
      | exact .nil
      | refine .register (by decide) ?_
      | refine .immediate (by decide) ?_
      | refine .memoryOffset ?_
      | refine .memoryAbsolute ?_
      | refine .target ?_

theorem Field.exists_register {f : Field} (kind : f ∈ [Field.rd, .rn, .rm]) (v : f.Value) :
    ∃ r, f.unpack v = .register r := by
  cases f with
  | rd | rn | rm => exact ⟨v, rfl⟩
  | imm16 | imm20 | shift | addr20 => exact absurd kind (by decide)

/-- An immediate takes at most 20 bits with its sign. -/
theorem Field.exists_immediate {f : Field} (kind : f ∈ [Field.imm16, .imm20, .shift])
    (v : f.Value) : ∃ n : Int, f.unpack v = .integer n ∧ n.natAbs ≤ 0x80000 := by
  cases f with
  | imm16 =>
    obtain ⟨n, range⟩ := v
    exact ⟨n, rfl, by omega⟩
  | imm20 =>
    obtain ⟨n, range⟩ := v
    exact ⟨n, rfl, by omega⟩
  | shift =>
    obtain ⟨n, range⟩ := v
    exact ⟨n, rfl, by omega⟩
  | rd | rn | rm | addr20 => exact absurd kind (by decide)

theorem Field.exists_address (v : Field.Value .addr20) :
    ∃ n : Nat, Field.unpack .addr20 v = .integer n ∧ n < 0x100000 := by
  obtain ⟨n, range⟩ := v
  refine ⟨n.toNat, ?_, by omega⟩
  rw [Int.toNat_of_nonneg range.1]
  rfl

end RobotMachine
