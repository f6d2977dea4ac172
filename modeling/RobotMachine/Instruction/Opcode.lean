import RobotMachine.Instruction.Field

/-!
# The instruction table

One row for each opcode: its code in the top byte of the word, the mnemonic, the shapes that its
operands are written in, and the fields that they fill, in the same order. A memory operand with an
offset fills two fields. Encoding, decoding, disassembly and the choice of a form for a written
instruction all read this table.

* `Opcode.ofCode?_code`: no two opcodes share a code.
-/

namespace RobotMachine

/-- The way an operand is written. -/
inductive OperandShape
  /-- `R0` to `R12`, `SP`, `LR` -/
  | register
  /-- `#expression` -/
  | immediate
  /-- `[Rn]` or `[Rn, #expression]` -/
  | memoryOffset
  /-- `[#expression]` or `[label]` -/
  | memoryAbsolute
  /-- A label or an absolute address. -/
  | target
  deriving DecidableEq, Repr

namespace OperandShape

def description : OperandShape → String
  | register => "register"
  | immediate => "#immediate"
  | memoryOffset => "[register, #offset]"
  | memoryAbsolute => "[address]"
  | target => "label"

end OperandShape

/-- The operations of the machine. The suffixes tell the forms of one mnemonic apart: registers
only, with an immediate, or with a memory operand. -/
inductive Opcode
  | halt | nop
  | movReg | movImm | mvnReg
  | addReg | addImm | subReg | subImm | mul
  | andReg | andImm | orrReg | orrImm | eorReg | eorImm
  | lslReg | lslImm | lsrReg | lsrImm | asrReg | asrImm
  | cmpReg | cmpImm
  | ldrOff | ldrAbs | strOff | strAbs | ldrbOff | ldrbAbs | strbOff | strbAbs
  | push | pop
  | b | beq | bne | blt | bge | bgt | ble | blo
  | bhs | bl | bx | ret
  | up | down | left | right
  deriving DecidableEq, Repr

/-- A row of the instruction table. -/
structure Form where
  code : UInt8
  mnemonic : String
  shapes : List OperandShape
  fields : List Field

namespace Opcode

/-- The instruction table. -/
def form : Opcode → Form
  | halt => ⟨0x00, "HALT", [], []⟩
  | nop => ⟨0x01, "NOP", [], []⟩
  | movReg => ⟨0x10, "MOV", [.register, .register], [.rd, .rm]⟩
  | movImm => ⟨0x11, "MOV", [.register, .immediate], [.rd, .imm20]⟩
  | mvnReg => ⟨0x12, "MVN", [.register, .register], [.rd, .rm]⟩
  | addReg => ⟨0x20, "ADD", [.register, .register, .register], [.rd, .rn, .rm]⟩
  | addImm => ⟨0x21, "ADD", [.register, .register, .immediate], [.rd, .rn, .imm16]⟩
  | subReg => ⟨0x22, "SUB", [.register, .register, .register], [.rd, .rn, .rm]⟩
  | subImm => ⟨0x23, "SUB", [.register, .register, .immediate], [.rd, .rn, .imm16]⟩
  | mul => ⟨0x24, "MUL", [.register, .register, .register], [.rd, .rn, .rm]⟩
  | andReg => ⟨0x28, "AND", [.register, .register, .register], [.rd, .rn, .rm]⟩
  | andImm => ⟨0x29, "AND", [.register, .register, .immediate], [.rd, .rn, .imm16]⟩
  | orrReg => ⟨0x2a, "ORR", [.register, .register, .register], [.rd, .rn, .rm]⟩
  | orrImm => ⟨0x2b, "ORR", [.register, .register, .immediate], [.rd, .rn, .imm16]⟩
  | eorReg => ⟨0x2c, "EOR", [.register, .register, .register], [.rd, .rn, .rm]⟩
  | eorImm => ⟨0x2d, "EOR", [.register, .register, .immediate], [.rd, .rn, .imm16]⟩
  | lslReg => ⟨0x30, "LSL", [.register, .register, .register], [.rd, .rn, .rm]⟩
  | lslImm => ⟨0x31, "LSL", [.register, .register, .immediate], [.rd, .rn, .shift]⟩
  | lsrReg => ⟨0x32, "LSR", [.register, .register, .register], [.rd, .rn, .rm]⟩
  | lsrImm => ⟨0x33, "LSR", [.register, .register, .immediate], [.rd, .rn, .shift]⟩
  | asrReg => ⟨0x34, "ASR", [.register, .register, .register], [.rd, .rn, .rm]⟩
  | asrImm => ⟨0x35, "ASR", [.register, .register, .immediate], [.rd, .rn, .shift]⟩
  | cmpReg => ⟨0x38, "CMP", [.register, .register], [.rn, .rm]⟩
  | cmpImm => ⟨0x39, "CMP", [.register, .immediate], [.rn, .imm16]⟩
  | ldrOff => ⟨0x40, "LDR", [.register, .memoryOffset], [.rd, .rn, .imm16]⟩
  | ldrAbs => ⟨0x41, "LDR", [.register, .memoryAbsolute], [.rd, .addr20]⟩
  | strOff => ⟨0x42, "STR", [.register, .memoryOffset], [.rd, .rn, .imm16]⟩
  | strAbs => ⟨0x43, "STR", [.register, .memoryAbsolute], [.rd, .addr20]⟩
  | ldrbOff => ⟨0x44, "LDRB", [.register, .memoryOffset], [.rd, .rn, .imm16]⟩
  | ldrbAbs => ⟨0x45, "LDRB", [.register, .memoryAbsolute], [.rd, .addr20]⟩
  | strbOff => ⟨0x46, "STRB", [.register, .memoryOffset], [.rd, .rn, .imm16]⟩
  | strbAbs => ⟨0x47, "STRB", [.register, .memoryAbsolute], [.rd, .addr20]⟩
  | push => ⟨0x48, "PUSH", [.register], [.rd]⟩
  | pop => ⟨0x49, "POP", [.register], [.rd]⟩
  | b => ⟨0x50, "B", [.target], [.addr20]⟩
  | beq => ⟨0x51, "BEQ", [.target], [.addr20]⟩
  | bne => ⟨0x52, "BNE", [.target], [.addr20]⟩
  | blt => ⟨0x53, "BLT", [.target], [.addr20]⟩
  | bge => ⟨0x54, "BGE", [.target], [.addr20]⟩
  | bgt => ⟨0x55, "BGT", [.target], [.addr20]⟩
  | ble => ⟨0x56, "BLE", [.target], [.addr20]⟩
  | blo => ⟨0x57, "BLO", [.target], [.addr20]⟩
  | bhs => ⟨0x58, "BHS", [.target], [.addr20]⟩
  | bl => ⟨0x59, "BL", [.target], [.addr20]⟩
  | bx => ⟨0x5a, "BX", [.register], [.rn]⟩
  | ret => ⟨0x5b, "RET", [], []⟩
  | up => ⟨0x60, "UP", [], []⟩
  | down => ⟨0x61, "DOWN", [], []⟩
  | left => ⟨0x62, "LEFT", [], []⟩
  | right => ⟨0x63, "RIGHT", [], []⟩

def code (op : Opcode) : UInt8 := op.form.code

def mnemonic (op : Opcode) : String := op.form.mnemonic

def shapes (op : Opcode) : List OperandShape := op.form.shapes

def fields (op : Opcode) : List Field := op.form.fields

/-- The opcodes in the order of their codes. -/
def all : List Opcode :=
  [halt, nop, movReg, movImm, mvnReg, addReg, addImm, subReg, subImm, mul, andReg, andImm,
    orrReg, orrImm, eorReg, eorImm, lslReg, lslImm, lsrReg, lsrImm, asrReg, asrImm, cmpReg,
    cmpImm, ldrOff, ldrAbs, strOff, strAbs, ldrbOff, ldrbAbs, strbOff, strbAbs, push, pop, b,
    beq, bne, blt, bge, bgt, ble, blo, bhs, bl, bx, ret, up, down, left, right]

/-- The opcode with a code. -/
def ofCode? (code : UInt8) : Option Opcode :=
  all.find? (·.code == code)

/-- The opcodes that a mnemonic names, in any mix of upper and lower case. -/
def withMnemonic (name : List Char) : List Opcode :=
  all.filter fun op => op.mnemonic.toList == name.map Char.toUpper

theorem mem_all (op : Opcode) : op ∈ all := by
  cases op <;> decide

theorem ofCode?_code (op : Opcode) : ofCode? op.code = some op := by
  cases op <;> rfl

end Opcode

end RobotMachine
