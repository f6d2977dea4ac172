import Mathlib.Algebra.Order.Ring.Nat
import RobotMachine.Proofs.Words

/-!
# Decoding by bits

What a word decodes to can be read off its bits. The top byte chooses the form, a register field
must not hold 15, a shift moves by at most 32, and every bit that belongs to no field of the form is
reserved. The decoder never looks at reserved bits: it reads the fields, encodes what it has read
and compares. That comes to the same, since the values that were read put the bits of the word back
into their fields and set no others.

* `Field.extract_reads`, `Operands.extract_reads`: which fields of a word can be read.
* `Operands.testBit_bits`: the bits of the values that stand in the fields of a word.
* `Instruction.encode_eq_iff`: what comparing the words finds out.
* `Instruction.decode_bitwise`: which words decode, and why the others do not.
-/

namespace RobotMachine

/-! ## Bits of a field -/

namespace Field

/-- The lowest bit of a field. -/
def low : Field → Nat
  | rd => 20
  | rn => 16
  | rm | imm16 | imm20 | shift | addr20 => 0

/-- The number of bits of a field. -/
def width : Field → Nat
  | rd | rn | rm => 4
  | imm16 | shift => 16
  | imm20 | addr20 => 20

/-- Bit `i` of a word belongs to the field. -/
def HasBit (f : Field) (i : Nat) : Prop :=
  f.low ≤ i ∧ i < f.low + f.width

instance decidableHasBit (f : Field) (i : Nat) : Decidable (f.HasBit i) :=
  inferInstanceAs (Decidable (_ ∧ _))

/-- The bits of a word that belong to the field. -/
def content (f : Field) (word : UInt32) : BitVec f.width :=
  word.toBitVec.extractLsb' f.low f.width

/-- Whether a field holds a register. -/
def isRegister : Field → Bool
  | rd | rn | rm => true
  | imm16 | imm20 | shift | addr20 => false

/-- The value that the field of a word stands for: the register with that number, or the number
itself, with its sign if it has one. -/
def StandsFor (word : UInt32) : (f : Field) → f.Value → Prop
  | rd, r => r.index.val = (rd.content word).toNat
  | rn, r => r.index.val = (rn.content word).toNat
  | rm, r => r.index.val = (rm.content word).toNat
  | imm16, v => v.val = (imm16.content word).toInt
  | imm20, v => v.val = (imm20.content word).toInt
  | shift, v => v.val = (shift.content word).toNat
  | addr20, v => v.val = (addr20.content word).toNat

/-- The field should hold a register, but no register has the number 15. -/
def LacksRegister (f : Field) (word : UInt32) : Prop :=
  f.isRegister = true ∧ (f.content word).toNat = 15

instance decidableLacksRegister (f : Field) (word : UInt32) : Decidable (f.LacksRegister word) :=
  inferInstanceAs (Decidable (_ ∧ _))

/-- The field holds the amount of a shift, and one that exceeds 32. -/
def ShiftsTooFar (f : Field) (word : UInt32) : Prop :=
  f = shift ∧ 32 < (f.content word).toNat

instance decidableShiftsTooFar (f : Field) (word : UInt32) : Decidable (f.ShiftsTooFar word) :=
  inferInstanceAs (Decidable (_ ∧ _))

theorem not_shiftsTooFar {f : Field} (other : f ≠ shift) (word : UInt32) :
    ¬f.ShiftsTooFar word :=
  fun far => other far.1

theorem unit_eq (f : Field) : f.unit = 2 ^ f.low := by
  cases f <;> rfl

theorem size_eq (f : Field) : f.size = 2 ^ f.width := by
  cases f <;> rfl

theorem toNat_content (f : Field) (word : UInt32) :
    (f.content word).toNat = word.toNat / f.unit % f.size := by
  rw [content, BitVec.extractLsb'_toNat, Nat.shiftRight_eq_div_pow, unit_eq, size_eq,
    UInt32.toNat_toBitVec]

theorem toInt_content (f : Field) (word : UInt32) :
    (f.content word).toInt = Int.bmod (word.toNat / f.unit : Nat) f.size := by
  rw [BitVec.toInt_eq_toNat_bmod, toNat_content, ← size_eq, Int.natCast_emod, Int.emod_bmod]

end Field

/-! ## Reading fields -/

/-- Four bits name a register unless they are all set. -/
theorem registerIn_cases {bits content : Nat} (same : content = bits % 16) :
    content = 15 ∧ registerIn bits = .error .invalidRegister ∨
      ∃ r, content ≠ 15 ∧ r.index.val = content ∧ registerIn bits = .ok r := by
  subst same
  by_cases none : bits % 16 = 15
  · refine .inl ⟨none, ?_⟩
    rw [registerIn, none]
    rfl
  · let r : Register := ⟨⟨bits % 16, by omega⟩⟩
    exact .inr ⟨r, none, rfl, Field.registerIn_eq_ok (r := r) rfl⟩

/-- A number in the range of a field is read as it stands. -/
theorem exists_boundedIn (lo hi : Int) {n content : Int} (same : n = content)
    (inside : lo ≤ content ∧ content < hi) :
    ∃ v : Bounded lo hi, v.val = content ∧ boundedIn lo hi n = .ok v :=
  ⟨⟨content, inside⟩, rfl, Field.boundedIn_eq_ok ⟨content, inside⟩ same⟩

theorem boundedIn_eq_error {lo hi n : Int} (outside : ¬(lo ≤ n ∧ n < hi)) :
    boundedIn lo hi n = .error .reservedBits := by
  rw [boundedIn, Bounded.ofInt?, dif_neg outside]

namespace Field

/-- What comes of reading a field of a word. -/
inductive Reads (word : UInt32) (f : Field) : Except WordFault f.Value → Prop
  | noRegister : f.LacksRegister word → Reads word f (.error .invalidRegister)
  | tooFar : f.ShiftsTooFar word → Reads word f (.error .reservedBits)
  | done {v : f.Value} :
    ¬f.LacksRegister word → ¬f.ShiftsTooFar word → f.StandsFor word v → Reads word f (.ok v)

variable {f : Field} (word : UInt32)

theorem extract_register (kind : f.isRegister = true) :
    (f.content word).toNat = 15 ∧ f.extract word.toNat = .error .invalidRegister ∨
      ∃ v, (f.content word).toNat ≠ 15 ∧ f.StandsFor word v ∧ f.extract word.toNat = .ok v := by
  cases f with
  | rd => exact registerIn_cases (toNat_content rd word)
  | rn => exact registerIn_cases (toNat_content rn word)
  | rm =>
    have content := toNat_content rm word
    rw [unit, Nat.div_one] at content
    exact registerIn_cases content
  | imm16 | imm20 | shift | addr20 => cases kind

/-- A number is read as it stands, unless it is the amount of a shift that is too far. -/
theorem extract_number (kind : f.isRegister = false) :
    f.ShiftsTooFar word ∧ f.extract word.toNat = .error .reservedBits ∨
      ∃ v, ¬f.ShiftsTooFar word ∧ f.StandsFor word v ∧ f.extract word.toNat = .ok v := by
  have unsigned := toNat_content f word
  have signed := toInt_content f word
  have bound := (f.content word).isLt
  have lower := BitVec.le_toInt (f.content word)
  have upper := BitVec.toInt_lt (x := f.content word)
  cases f with
  | rd | rn | rm => cases kind
  | imm16 | imm20 =>
    rw [unit, Nat.div_one] at signed
    obtain ⟨v, stands, read⟩ := exists_boundedIn _ _ signed.symm ⟨lower, upper⟩
    exact .inr ⟨v, not_shiftsTooFar (by decide) word, stands, read⟩
  | addr20 =>
    rw [unit, Nat.div_one] at unsigned
    obtain ⟨v, stands, read⟩ := exists_boundedIn _ _ (congrArg Nat.cast unsigned.symm)
      ⟨Int.natCast_nonneg _, Int.ofNat_lt.mpr bound⟩
    exact .inr ⟨v, not_shiftsTooFar (by decide) word, stands, read⟩
  | shift =>
    rw [unit, Nat.div_one] at unsigned
    by_cases far : 32 < (shift.content word).toNat
    · refine .inl ⟨⟨rfl, far⟩, boundedIn_eq_error fun inside => ?_⟩
      rw [unsigned] at far
      have near := inside.2
      simp only [size] at far
      omega
    · obtain ⟨v, stands, read⟩ := exists_boundedIn 0 33
        (congrArg Nat.cast unsigned.symm) ⟨Int.natCast_nonneg _, by omega⟩
      exact .inr ⟨v, fun exceeds => far exceeds.2, stands, read⟩

theorem extract_reads (f : Field) (word : UInt32) : Reads word f (f.extract word.toNat) := by
  cases kind : f.isRegister with
  | true =>
    have noShift : ¬f.ShiftsTooFar word := by
      apply not_shiftsTooFar
      rintro rfl
      cases kind
    rcases extract_register word kind with ⟨lacks, failed⟩ | ⟨v, named, stands, read⟩
    · rw [failed]
      exact .noRegister ⟨kind, lacks⟩
    · rw [read]
      exact .done (fun ⟨_, lacks⟩ => named lacks) noShift stands
  | false =>
    have noRegister : ¬f.LacksRegister word := by
      rintro ⟨isRegister, -⟩
      rw [kind] at isRegister
      cases isRegister
    rcases extract_number word kind with ⟨far, failed⟩ | ⟨v, near, stands, read⟩
    · rw [failed]
      exact .tooFar far
    · rw [read]
      exact .done noRegister near stands

end Field

/-- In every form the registers stand in front of the numbers. -/
theorem Opcode.registers_first (op : Opcode) :
    op.fields.Pairwise fun f g => g.isRegister = true → f.isRegister = true := by
  cases op <;> decide

namespace Operands

/-- Each value is the one that its field of the word stands for. -/
def StandFor (word : UInt32) : (fields : List Field) → Operands fields → Prop
  | [], () => True
  | f :: fields, (v, vs) => f.StandsFor word v ∧ StandFor word fields vs

/-- What comes of reading some fields of a word. -/
inductive Reads (word : UInt32) (fields : List Field) :
    Except WordFault (Operands fields) → Prop
  | noRegister :
    (∃ f ∈ fields, f.LacksRegister word) → Reads word fields (.error .invalidRegister)
  | tooFar :
    (∀ f ∈ fields, ¬f.LacksRegister word) → (∃ f ∈ fields, f.ShiftsTooFar word) →
      Reads word fields (.error .reservedBits)
  | done {vs : Operands fields} :
    (∀ f ∈ fields, ¬f.LacksRegister word) → (∀ f ∈ fields, ¬f.ShiftsTooFar word) →
      StandFor word fields vs → Reads word fields (.ok vs)

/-- A missing register is blamed before the amount of a shift, whichever fields there are, since it
is met first. -/
theorem extract_reads (word : UInt32) {fields : List Field}
    (ordered : fields.Pairwise fun f g => g.isRegister = true → f.isRegister = true) :
    Reads word fields (extract word.toNat fields) := by
  induction fields with
  | nil => exact .done nofun nofun trivial
  | cons f fields ih =>
    rw [List.pairwise_cons] at ordered
    obtain ⟨first, ordered⟩ := ordered
    have head := f.extract_reads word
    rw [extract]
    cases read : f.extract word.toNat with
    | error fault =>
      rw [read] at head
      cases head with
      | noRegister lacks => exact .noRegister ⟨f, List.mem_cons_self, lacks⟩
      | tooFar far =>
        -- a register behind the shift would make the shift a register
        have named : ∀ g ∈ f :: fields, ¬g.LacksRegister word := by
          intro g member lacks
          have isRegister : f.isRegister = true := by
            rcases List.mem_cons.mp member with rfl | behind
            · exact lacks.1
            · exact first g behind lacks.1
          rw [far.1] at isRegister
          cases isRegister
        exact .tooFar named ⟨f, List.mem_cons_self, far⟩
    | ok v =>
      rw [read] at head
      rw [Except.ok_bind]
      cases head with
      | done named near stands =>
        have tail := ih ordered
        cases rest : extract word.toNat fields with
        | error fault =>
          rw [rest] at tail
          cases tail with
          | noRegister lacks =>
            exact .noRegister (List.exists_mem_cons_of_exists lacks)
          | tooFar named' far =>
            exact .tooFar (List.forall_mem_cons.mpr ⟨named, named'⟩)
              (List.exists_mem_cons_of_exists far)
        | ok vs =>
          rw [rest] at tail
          cases tail with
          | done named' near' stands' =>
            exact .done (List.forall_mem_cons.mpr ⟨named, named'⟩)
              (List.forall_mem_cons.mpr ⟨near, near'⟩) ⟨stands, stands'⟩

end Operands

/-! ## Bits outside the fields -/

/-- A value that stands in a field of a word has the bits of that field. -/
theorem Field.StandsFor.bits_eq {f : Field} {word : UInt32} {v : f.Value}
    (stands : f.StandsFor word v) : f.bits v = (f.content word).toNat * f.unit := by
  have bound := (f.content word).isLt
  cases f with
  | rd | rn => exact congrArg (· * _) stands
  | rm => exact stands.trans (Nat.mul_one _).symm
  | imm16 | imm20 =>
    have same : v.val = _ := stands
    rw [bits, same, unit, Nat.mul_one]
    exact (BitVec.toNat_ofInt ..).symm.trans (congrArg BitVec.toNat BitVec.ofInt_toInt)
  | shift | addr20 =>
    have same : v.val = _ := stands
    rw [bits, same, unit, Nat.mul_one]
    exact Nat.mod_eq_of_lt bound

/-- Fields that lie below a bound have no bits from there on. -/
theorem Field.Descend.pow_lt {bound : Nat} {fields : List Field} (positive : 0 < bound)
    (descend : Field.Descend bound fields) {f : Field} (member : f ∈ fields) {i : Nat}
    (hasBit : f.HasBit i) : 2 ^ i < bound := by
  induction fields generalizing bound with
  | nil => cases member
  | cons g fields ih =>
    obtain ⟨divides, below⟩ := descend
    have within : g.unit * g.size ≤ bound := Nat.le_of_dvd positive divides
    rcases List.mem_cons.mp member with rfl | behind
    · rw [f.unit_eq, f.size_eq, ← Nat.pow_add] at within
      exact Nat.lt_of_lt_of_le (Nat.pow_lt_pow_right (by decide) hasBit.2) within
    · have inside := ih g.unit_pos below behind
      have small : g.unit ≤ g.unit * g.size := by
        rw [g.size_eq]
        exact Nat.le_mul_of_pos_right _ (Nat.two_pow_pos _)
      omega

namespace Operands

/-- The values that stand in some fields of a word have the bits of the word that belong to these
fields, and no others. -/
theorem testBit_bits {bound : Nat} {fields : List Field} {word : UInt32} {vs : Operands fields}
    (descend : Field.Descend bound fields) (stand : StandFor word fields vs) (i : Nat) :
    (bits fields vs).testBit i = true ↔
      word.toBitVec.getLsbD i = true ∧ ∃ f ∈ fields, f.HasBit i := by
  induction fields generalizing bound with
  | nil =>
    have none : bits [] vs = 0 := rfl
    simp [none]
  | cons f fields ih =>
    obtain ⟨v, vs⟩ := vs
    obtain ⟨-, below⟩ := descend
    obtain ⟨stands, stand⟩ := stand
    have small : bits fields vs < 2 ^ f.low := by
      rw [← f.unit_eq]
      exact bits_lt f.unit_pos below vs
    have split : bits (f :: fields) (v, vs) =
        2 ^ f.low * (f.content word).toNat + bits fields vs := by
      rw [bits, stands.bits_eq, f.unit_eq, Nat.mul_comm]
    rw [split, Nat.testBit_two_pow_mul_add _ small, List.exists_mem_cons_iff]
    split
    · next lower =>
      have outside : ¬f.HasBit i := fun hasBit => absurd hasBit.1 (Nat.not_le.mpr lower)
      rw [ih below stand]
      simp only [outside, false_or]
    · next upper =>
      rw [Nat.not_lt] at upper
      have outside : ¬∃ g ∈ fields, g.HasBit i := by
        rintro ⟨g, member, hasBit⟩
        have lower := below.pow_lt f.unit_pos member hasBit
        rw [f.unit_eq] at lower
        exact absurd upper (Nat.not_le.mpr ((Nat.pow_lt_pow_iff_right (by decide)).mp lower))
      have inside : i - f.low < f.width ↔ f.HasBit i := by
        rw [Field.HasBit]
        omega
      rw [BitVec.testBit_toNat, Field.content, BitVec.getLsbD_extractLsb',
        Nat.add_sub_cancel' upper, Bool.and_eq_true, decide_eq_true_eq, inside,
        or_iff_left outside, and_comm]

end Operands

/-- The top byte of a word. -/
def topByte (word : UInt32) : UInt8 :=
  ⟨word.toBitVec.extractLsb' 24 8⟩

/-- A bit below the top byte is set that belongs to no field of the form. -/
def Opcode.SetsReserved (op : Opcode) (word : UInt32) : Prop :=
  ∃ i < 24, word.toBitVec.getLsbD i = true ∧ ∀ f ∈ op.fields, ¬f.HasBit i

instance Opcode.decidableSetsReserved (op : Opcode) (word : UInt32) :
    Decidable (op.SetsReserved word) :=
  inferInstanceAs (Decidable (∃ i < 24, _ ∧ ∀ f ∈ op.fields, ¬f.HasBit i))

theorem toNat_topByte (word : UInt32) : (topByte word).toNat = word.toNat / 0x1000000 := by
  have small := word.toNat_lt
  rw [topByte, UInt8.toNat_ofBitVec, BitVec.extractLsb'_toNat, Nat.shiftRight_eq_div_pow,
    UInt32.toNat_toBitVec]
  omega

theorem topByte_eq (word : UInt32) : UInt8.ofNat (word.toNat / 0x1000000) = topByte word := by
  rw [← toNat_topByte, UInt8.ofNat_toNat]

theorem Opcode.code_inj {op op' : Opcode} (same : op.code = op'.code) : op = op' := by
  have found := op.ofCode?_code
  rw [same, op'.ofCode?_code] at found
  exact (Option.some.inj found).symm

namespace Instruction

variable {word : UInt32} {op : Opcode} {vs : Operands op.fields}

/-- Encoding what stands in the fields of a word gives the word back just if no reserved bit is
set in it. -/
theorem encode_eq_iff (code : op.code = topByte word)
    (stand : Operands.StandFor word op.fields vs) :
    encode ⟨op, vs⟩ = word ↔ ¬op.SetsReserved word := by
  have top : op.code.toNat = word.toNat / 0x1000000 := by rw [code, toNat_topByte]
  have small : Operands.bits op.fields vs < 2 ^ 24 :=
    Operands.bits_lt (by decide) op.fields_descend vs
  have same : encode ⟨op, vs⟩ = word ↔ Operands.bits op.fields vs = word.toNat % 2 ^ 24 := by
    rw [← UInt32.toNat_inj, toNat_encode, top]
    dsimp only
    omega
  have bit := fun i => Operands.testBit_bits op.fields_descend stand i
  have lowBit : ∀ i, (word.toNat % 2 ^ 24).testBit i = true ↔
      i < 24 ∧ word.toBitVec.getLsbD i = true := by
    intro i
    rw [Nat.testBit_mod_two_pow, Bool.and_eq_true, decide_eq_true_eq, ← UInt32.toNat_toBitVec,
      BitVec.testBit_toNat]
  rw [same]
  constructor
  · rintro equal ⟨i, below, isSet, reserved⟩
    have inBits := (lowBit i).mpr ⟨below, isSet⟩
    rw [← equal] at inBits
    obtain ⟨-, f, member, hasBit⟩ := (bit i).mp inBits
    exact reserved f member hasBit
  · intro clear
    apply Nat.eq_of_testBit_eq
    intro i
    rw [Bool.eq_iff_iff, bit, lowBit]
    constructor
    · rintro ⟨isSet, f, member, hasBit⟩
      have below := op.fields_descend.pow_lt (by decide) member hasBit
      exact ⟨(Nat.pow_lt_pow_iff_right (by decide)).mp below, isSet⟩
    · rintro ⟨below, isSet⟩
      refine ⟨isSet, ?_⟩
      by_contra none
      exact clear ⟨i, below, isSet, fun f member hasBit => none ⟨f, member, hasBit⟩⟩

/-- What a word decodes to. The reasons to refuse it are tried from the first to the last. -/
inductive Decodes (word : UInt32) : Except WordFault Instruction → Prop
  | unknown :
    (∀ op : Opcode, op.code ≠ topByte word) → Decodes word (.error (.unknownOpcode (topByte word)))
  | noRegister {op : Opcode} :
    op.code = topByte word → (∃ f ∈ op.fields, f.LacksRegister word) →
      Decodes word (.error .invalidRegister)
  | reserved {op : Opcode} :
    op.code = topByte word → (∀ f ∈ op.fields, ¬f.LacksRegister word) →
      (op.SetsReserved word ∨ ∃ f ∈ op.fields, f.ShiftsTooFar word) →
        Decodes word (.error .reservedBits)
  | done {op : Opcode} {vs : Operands op.fields} :
    op.code = topByte word → (∀ f ∈ op.fields, ¬f.LacksRegister word) →
      ¬op.SetsReserved word → (∀ f ∈ op.fields, ¬f.ShiftsTooFar word) →
        Operands.StandFor word op.fields vs → Decodes word (.ok ⟨op, vs⟩)

theorem decode_decodes (word : UInt32) : Decodes word (decode word) := by
  rw [decode]
  simp only [topByte_eq]
  cases found : Opcode.ofCode? (topByte word) with
  | none =>
    refine .unknown fun op code => ?_
    rw [← code, op.ofCode?_code] at found
    cases found
  | some op =>
    have code : op.code = topByte word := by
      have holds := List.find?_some found
      exact beq_iff_eq.mp holds
    have reads := Operands.extract_reads word op.registers_first
    cases read : Operands.extract word.toNat op.fields with
    | error fault =>
      rw [read] at reads
      simp only [read]
      cases reads with
      | noRegister lacks => exact .noRegister code lacks
      | tooFar named far => exact .reserved code named (.inr far)
    | ok vs =>
      rw [read] at reads
      simp only [read]
      cases reads with
      | done named near stand =>
        have same := encode_eq_iff code stand
        split
        · next equal => exact .done code named (same.mp equal) near stand
        · next differs => exact .reserved code named (.inl (not_not.mp (mt same.mpr differs)))

/-- A word that is refused for one reason is refused for this reason only. -/
theorem Decodes.eq_of_error {answer : Except WordFault Instruction} {fault : WordFault}
    (decodes : Decodes word answer) (refused : Decodes word (.error fault)) :
    answer = .error fault := by
  cases refused with
  | unknown none =>
    cases decodes with
    | unknown _ => rfl
    | noRegister code _ | reserved code _ _ | done code _ _ _ _ => exact absurd code (none _)
  | noRegister code lacks =>
    obtain ⟨f, member, lacks⟩ := lacks
    cases decodes with
    | unknown none => exact absurd code (none _)
    | noRegister _ _ => rfl
    | reserved code' named _ | done code' named _ _ _ =>
      cases Opcode.code_inj (code.trans code'.symm)
      exact absurd lacks (named f member)
  | reserved code named bad =>
    cases decodes with
    | unknown none => exact absurd code (none _)
    | noRegister code' lacks =>
      cases Opcode.code_inj (code.trans code'.symm)
      obtain ⟨f, member, lacks⟩ := lacks
      exact absurd lacks (named f member)
    | reserved _ _ _ => rfl
    | done code' _ clear near _ =>
      cases Opcode.code_inj (code.trans code'.symm)
      rcases bad with isSet | ⟨f, member, far⟩
      · exact absurd isSet clear
      · exact absurd far (near f member)

theorem decode_eq_unknownOpcode_iff {code : UInt8} :
    decode word = .error (.unknownOpcode code) ↔
      code = topByte word ∧ ∀ op : Opcode, op.code ≠ code := by
  constructor
  · intro failed
    have decodes := decode_decodes word
    rw [failed] at decodes
    cases decodes with
    | unknown none => exact ⟨rfl, none⟩
  · rintro ⟨rfl, none⟩
    exact (decode_decodes word).eq_of_error (.unknown none)

section

variable (code : op.code = topByte word)

include code

theorem decode_eq_invalidRegister_iff :
    decode word = .error .invalidRegister ↔ ∃ f ∈ op.fields, f.LacksRegister word := by
  constructor
  · intro failed
    have decodes := decode_decodes word
    rw [failed] at decodes
    cases decodes with
    | noRegister code' lacks =>
      cases Opcode.code_inj (code.trans code'.symm)
      exact lacks
  · intro lacks
    exact (decode_decodes word).eq_of_error (.noRegister code lacks)

variable (named : ∀ f ∈ op.fields, ¬f.LacksRegister word)

include named

theorem decode_eq_reservedBits_iff :
    decode word = .error .reservedBits ↔
      op.SetsReserved word ∨ ∃ f ∈ op.fields, f.ShiftsTooFar word := by
  constructor
  · intro failed
    have decodes := decode_decodes word
    rw [failed] at decodes
    cases decodes with
    | reserved code' _ bad =>
      cases Opcode.code_inj (code.trans code'.symm)
      exact bad
  · intro bad
    exact (decode_decodes word).eq_of_error (.reserved code named bad)

theorem exists_decode_of_clear
    (clear : ¬(op.SetsReserved word ∨ ∃ f ∈ op.fields, f.ShiftsTooFar word)) :
    ∃ vs : Operands op.fields,
      decode word = .ok ⟨op, vs⟩ ∧ Operands.StandFor word op.fields vs := by
  cases outcome : decode word with
  | error fault =>
    have decodes := decode_decodes word
    rw [outcome] at decodes
    cases decodes with
    | unknown none => exact absurd code (none op)
    | noRegister code' lacks =>
      cases Opcode.code_inj (code.trans code'.symm)
      obtain ⟨f, member, lacks⟩ := lacks
      exact absurd lacks (named f member)
    | reserved code' _ bad =>
      cases Opcode.code_inj (code.trans code'.symm)
      exact absurd bad clear
  | ok i =>
    have decodes := decode_decodes word
    rw [outcome] at decodes
    cases decodes with
    | done code' _ _ _ stand =>
      cases Opcode.code_inj (code.trans code'.symm)
      exact ⟨_, rfl, stand⟩

end

/-- **A word decodes by its bits, and the blame is right.** The opcode of a word is unknown just if
no form has its top byte. Otherwise the word names an invalid register just if some register field
of the form holds 15. Otherwise it has reserved bits just if a bit outside the fields of the form is
set or a shift moves by more than 32. Otherwise it decodes, to the opcode of the form with the
values that stand in its fields. -/
theorem decode_bitwise (word : UInt32) :
    (∀ code, decode word = .error (.unknownOpcode code) ↔
        code = topByte word ∧ ∀ op : Opcode, op.code ≠ code) ∧
      ∀ op : Opcode, op.code = topByte word →
        (decode word = .error .invalidRegister ↔ ∃ f ∈ op.fields, f.LacksRegister word) ∧
        ((∀ f ∈ op.fields, ¬f.LacksRegister word) →
          (decode word = .error .reservedBits ↔
            op.SetsReserved word ∨ ∃ f ∈ op.fields, f.ShiftsTooFar word) ∧
          (¬(op.SetsReserved word ∨ ∃ f ∈ op.fields, f.ShiftsTooFar word) →
            ∃ vs : Operands op.fields,
              decode word = .ok ⟨op, vs⟩ ∧ Operands.StandFor word op.fields vs)) :=
  ⟨fun _ => decode_eq_unknownOpcode_iff, fun _ code =>
    ⟨decode_eq_invalidRegister_iff code, fun named =>
      ⟨decode_eq_reservedBits_iff code named, exists_decode_of_clear code named⟩⟩⟩

/-- A word that no form has, three words with a mistake each, of which the first has another one
behind it, and a shift by the whole width. -/
theorem decode_bitwise_shifts :
    decode 0x13f0ffff = .error (.unknownOpcode 0x13) ∧
      decode 0x31f20021 = .error .invalidRegister ∧
      decode 0x31120021 = .error .reservedBits ∧
      decode 0x39f28000 = .error .reservedBits ∧
      ∃ vs : Operands Opcode.lslImm.fields,
        decode 0x31120020 = .ok ⟨.lslImm, vs⟩ ∧ Operands.StandFor 0x31120020 _ vs := by
  obtain ⟨unknown, -⟩ := decode_bitwise 0x13f0ffff
  obtain ⟨noRegister, -⟩ := (decode_bitwise 0x31f20021).2 .lslImm (by decide)
  obtain ⟨-, tooFar⟩ := (decode_bitwise 0x31120021).2 .lslImm (by decide)
  obtain ⟨-, reserved⟩ := (decode_bitwise 0x39f28000).2 .cmpImm (by decide)
  obtain ⟨-, clear⟩ := (decode_bitwise 0x31120020).2 .lslImm (by decide)
  refine ⟨(unknown 0x13).mpr ⟨by decide, fun op => ?_⟩, noRegister.mpr (by decide),
    (tooFar (by decide)).1.mpr (by decide), (reserved (by decide)).1.mpr (by decide),
    (clear (by decide)).2 (by decide)⟩
  cases op <;> decide

end Instruction

end RobotMachine
