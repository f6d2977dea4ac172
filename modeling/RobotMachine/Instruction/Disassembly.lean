import RobotMachine.Instruction.Basic

/-!
# Disassembly

The text of an instruction, in the form in which the assembler reads it.
-/

namespace RobotMachine

/-- The texts of operands written in given shapes. A memory operand takes a register and an
offset, and an offset of zero is left out. -/
def operandTexts : List OperandShape → List OperandValue → List String
  | .register :: shapes, .register r :: values => r.name :: operandTexts shapes values
  | .immediate :: shapes, .integer v :: values =>
    ("#" ++ toString v) :: operandTexts shapes values
  | .memoryOffset :: shapes, .register base :: .integer offset :: values =>
    (if offset = 0 then "[" ++ base.name ++ "]"
      else "[" ++ base.name ++ ", #" ++ toString offset ++ "]") :: operandTexts shapes values
  | .memoryAbsolute :: shapes, .integer v :: values =>
    ("[#" ++ hex v.toNat ++ "]") :: operandTexts shapes values
  | .target :: shapes, .integer v :: values => hex v.toNat :: operandTexts shapes values
  | _, _ => []

/-- The text of an instruction. -/
def Instruction.text (i : Instruction) : String :=
  match operandTexts i.opcode.shapes i.operandValues with
  | [] => i.opcode.mnemonic
  | texts => i.opcode.mnemonic ++ " " ++ ", ".intercalate texts

end RobotMachine
