import RobotMachine.Instruction.Opcode

/-!
# Instructions and their words

An `Instruction` is an opcode with one value for each of its fields, so every instruction has a
word. A word is an instruction only if it is the word of that instruction: bits outside the fields
of a form must be zero.

* `Instruction.encode`, `Instruction.decode`: between instructions and words.
* `Instruction.ofOperands`, `Instruction.operandValues`: between instructions and operand lists.
-/

namespace RobotMachine

/-- One value for each field of a list. -/
def Operands : List Field → Type
  | [] => Unit
  | f :: fs => f.Value × Operands fs

namespace Operands

instance decidableEq : (fs : List Field) → DecidableEq (Operands fs)
  | [] => inferInstanceAs (DecidableEq Unit)
  | f :: fs =>
    have := decidableEq fs
    inferInstanceAs (DecidableEq (f.Value × Operands fs))

/-- The bits that the values put into a word. -/
def bits : (fs : List Field) → Operands fs → Nat
  | [], () => 0
  | f :: fs, (v, vs) => f.bits v + bits fs vs

/-- The values in the fields of a word; the first field that cannot be read decides the fault. -/
def extract (word : Nat) : (fs : List Field) → Except WordFault (Operands fs)
  | [] => .ok ()
  | f :: fs => do
    let v ← f.extract word
    let vs ← extract word fs
    return (v, vs)

/-- The values that operands give the fields, taken in order; the first fault decides. -/
def pack : (fs : List Field) → List OperandValue → Except OperandError (Operands fs)
  | [], [] => .ok ()
  | [], _ :: _ => .error .extra
  | _ :: _, [] => .error .missing
  | f :: fs, a :: as => do
    let v ← f.pack a
    let vs ← pack fs as
    return (v, vs)

/-- The operands that the values are, in field order. -/
def unpack : (fs : List Field) → Operands fs → List OperandValue
  | [], () => []
  | f :: fs, (v, vs) => f.unpack v :: unpack fs vs

end Operands

/-- An opcode with a value for each of its fields. -/
structure Instruction where
  opcode : Opcode
  operands : Operands opcode.fields
  deriving DecidableEq

namespace Instruction

/-- The machine word of an instruction. -/
def encode (i : Instruction) : UInt32 :=
  UInt32.ofNat (i.opcode.code.toNat * 0x1000000 + i.operands.bits)

/-- The instruction of a machine word. A word with an unknown opcode, a register field that names
no register, or any bit set outside its fields is refused, in this order. -/
def decode (word : UInt32) : Except WordFault Instruction :=
  let code := UInt8.ofNat (word.toNat / 0x1000000)
  match Opcode.ofCode? code with
  | none => .error (.unknownOpcode code)
  | some opcode =>
    match Operands.extract word.toNat opcode.fields with
    | .error fault => .error fault
    | .ok operands =>
      let i : Instruction := ⟨opcode, operands⟩
      if i.encode = word then .ok i else .error .reservedBits

/-- The instruction with an opcode and operands in field order. -/
def ofOperands (opcode : Opcode) (operands : List OperandValue) :
    Except OperandError Instruction :=
  (Operands.pack opcode.fields operands).map (Instruction.mk opcode)

/-- The operands of an instruction in field order. -/
def operandValues (i : Instruction) : List OperandValue :=
  i.operands.unpack

end Instruction

end RobotMachine
