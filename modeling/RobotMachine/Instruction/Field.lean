import RobotMachine.Machine.Register

/-!
# Fields of an instruction word

An instruction word has its opcode in the top byte and its operands in fixed fields below. A field
holds either a register or an integer of a limited range:

```
31      24 23  20 19  16 15                    0
| opcode  |  rd  |  rn  |  imm16 / shift / rm  |
| opcode  |  rd  |       imm20 / addr20        |
```

`Field.extract` reads a field out of a word, `Field.bits` gives the bits that it puts there, and
`Field.pack` takes an operand into a field if it has the field's kind and range.
-/

namespace RobotMachine

/-- An integer from `lo` on and below `hi`. -/
abbrev Bounded (lo hi : Int) := { v : Int // lo ≤ v ∧ v < hi }

/-- The field that an operand fills. -/
inductive Field
  | rd
  | rn
  | rm
  | imm16
  | imm20
  | shift
  | addr20
  deriving DecidableEq, Repr

/-- What a field holds. -/
def Field.Value : Field → Type
  | .rd | .rn | .rm => Register
  | .imm16 => Bounded (-0x8000) 0x8000
  | .imm20 => Bounded (-0x80000) 0x80000
  | .shift => Bounded 0 33
  | .addr20 => Bounded 0 0x100000

instance Field.decidableEqValue : (f : Field) → DecidableEq f.Value
  | .rd | .rn | .rm => inferInstanceAs (DecidableEq Register)
  | .imm16 => inferInstanceAs (DecidableEq (Bounded (-0x8000) 0x8000))
  | .imm20 => inferInstanceAs (DecidableEq (Bounded (-0x80000) 0x80000))
  | .shift => inferInstanceAs (DecidableEq (Bounded 0 33))
  | .addr20 => inferInstanceAs (DecidableEq (Bounded 0 0x100000))

/-- A field as messages name it. -/
def Field.description : Field → String
  | .rd | .rn | .rm => "register"
  | .imm16 => "signed 16-bit immediate"
  | .imm20 => "signed 20-bit immediate"
  | .shift => "shift amount (0..=32)"
  | .addr20 => "20-bit address"

/-- An operand with all its symbols resolved. -/
inductive OperandValue
  | register (r : Register)
  | integer (v : Int)
  deriving DecidableEq, Repr

/-- Why a list of operands does not make an instruction. -/
inductive OperandError
  | missing
  | extra
  | expectedRegister
  | expectedValue
  | outOfRange (value : Int) (field : Field)
  deriving DecidableEq, Repr

def OperandError.message : OperandError → String
  | .missing => "missing operand"
  | .extra => "too many operands"
  | .expectedRegister => "expected a register"
  | .expectedValue => "expected a value, found a register"
  | .outOfRange v field => "value " ++ toString v ++ " does not fit in a " ++ field.description

/-- Why a word is no instruction. -/
inductive WordFault
  | unknownOpcode (code : UInt8)
  | invalidRegister
  | reservedBits
  deriving DecidableEq, Repr

def WordFault.message : WordFault → String
  | .unknownOpcode code => "unknown opcode " ++ paddedHex 2 code.toNat
  | .invalidRegister => "register field names no register"
  | .reservedBits => "reserved bits are set"

/-- The register whose number is the low four bits. -/
def registerIn (bits : Nat) : Except WordFault Register :=
  match Register.ofNat? (bits % 16) with
  | some r => .ok r
  | none => .error .invalidRegister

/-- The integer itself, if it lies in the range. -/
def Bounded.ofInt? (lo hi v : Int) : Option (Bounded lo hi) :=
  if h : lo ≤ v ∧ v < hi then some ⟨v, h⟩ else none

/-- The integer in a field of a word, if it lies in the field's range. -/
def boundedIn (lo hi v : Int) : Except WordFault (Bounded lo hi) :=
  match Bounded.ofInt? lo hi v with
  | some b => .ok b
  | none => .error .reservedBits

/-- The register that an operand is. -/
def OperandValue.toRegister : OperandValue → Except OperandError Register
  | .register r => .ok r
  | .integer _ => .error .expectedRegister

/-- The integer that an operand is, if it fits the field. -/
def OperandValue.toBounded (lo hi : Int) (field : Field) :
    OperandValue → Except OperandError (Bounded lo hi)
  | .register _ => .error .expectedValue
  | .integer v =>
    match Bounded.ofInt? lo hi v with
    | some b => .ok b
    | none => .error (.outOfRange v field)

namespace Field

/-- The field's value in a word. Signed integers are in two's complement. -/
def extract (word : Nat) : (f : Field) → Except WordFault f.Value
  | rd => registerIn (word / 0x100000)
  | rn => registerIn (word / 0x10000)
  | rm => registerIn word
  | imm16 => boundedIn _ _ (Int.bmod word 0x10000)
  | imm20 => boundedIn _ _ (Int.bmod word 0x100000)
  | shift => boundedIn _ _ (word % 0x10000 : Nat)
  | addr20 => boundedIn _ _ (word % 0x100000 : Nat)

/-- The bits that a value puts into a word. -/
def bits : (f : Field) → f.Value → Nat
  | rd, r => r.index.val * 0x100000
  | rn, r => r.index.val * 0x10000
  | rm, r => r.index.val
  | imm16, v | shift, v => (v.val % 0x10000).toNat
  | imm20, v | addr20, v => (v.val % 0x100000).toNat

/-- The field's value from an operand. -/
def pack : (f : Field) → OperandValue → Except OperandError f.Value
  | rd, v | rn, v | rm, v => v.toRegister
  | imm16, v => v.toBounded _ _ .imm16
  | imm20, v => v.toBounded _ _ .imm20
  | shift, v => v.toBounded _ _ .shift
  | addr20, v => v.toBounded _ _ .addr20

/-- The operand that a field's value is. -/
def unpack : (f : Field) → f.Value → OperandValue
  | rd, r | rn, r | rm, r => .register r
  | imm16, v => .integer v.val
  | imm20, v => .integer v.val
  | shift, v => .integer v.val
  | addr20, v => .integer v.val

end Field

end RobotMachine
