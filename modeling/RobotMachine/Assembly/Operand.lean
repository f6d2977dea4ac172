import RobotMachine.Assembly.Expression

/-!
# Operands of instructions

An operand is read by its first character, and what it turns out to be decides which forms of a
mnemonic it fits. The first form in the instruction table that fits all operands is chosen.
-/

namespace RobotMachine

/-- An operand whose symbols are not resolved yet. -/
inductive Operand
  | register (r : Register)
  | immediate (e : Expression)
  | memoryOffset (base : Register) (offset : Expression)
  | memoryAbsolute (address : Expression)
  /-- An expression without a sign in front of it, as branch targets are written. -/
  | bare (e : Expression)
  | string (bytes : List UInt8)
  deriving DecidableEq, Repr

/-! ## Reading -/

/-- The register that a fragment names, and none if it does not look like a register. -/
def Fragment.toRegister? (f : Fragment) : Except LineError (Option Register) :=
  match Register.ofName? f.text with
  | some r => .ok (some r)
  | none =>
    match f.text with
    | c :: digits =>
      if c.toUpper = 'R' ∧ digits ≠ [] ∧ digits.all Char.isDigit then
        .error ⟨f.column, .invalidRegister f.toString⟩
      else
        .ok none
    | [] => .ok none

/-- The operand between brackets, given the parts between its commas and the column of the opening
bracket. -/
def Operand.ofMemoryParts (opened : Nat) : List Fragment → Except LineError Operand
  | [] => .error ⟨opened, .emptyMemoryOperand⟩
  | [single] =>
    if single.text.head? = some '#' then (Expression.parse (single.drop 1)).map .memoryAbsolute
    else do
      match ← single.toRegister? with
      | some base => return .memoryOffset base (.zero single.column)
      | none => return .memoryAbsolute (← Expression.parse single)
  | [base, offset] => do
    match ← base.toRegister? with
    | none => .error ⟨base.column, .expectedBaseRegister⟩
    | some r =>
      if offset.text.head? = some '#' then
        return .memoryOffset r (← Expression.parse (offset.drop 1))
      else
        .error ⟨offset.column, .expectedOffset⟩
  | _ :: _ :: extra :: _ => .error ⟨extra.column, .tooManyParts⟩

/-- The operand that a fragment is. -/
def Operand.parse (f : Fragment) : Except LineError Operand :=
  match f.text with
  | '[' :: text =>
    if text.getLast? = some ']' then do
      Operand.ofMemoryParts f.column (← (f.drop 1).dropLast.splitOperands)
    else
      .error ⟨f.column, .unclosedMemoryOperand⟩
  | '#' :: _ => (Expression.parse (f.drop 1)).map .immediate
  | '"' :: _ => f.toStringBytes.map .string
  | _ => do
    match ← f.toRegister? with
    | some r => return .register r
    | none => return .bare (← Expression.parse f)

/-! ## Choosing a form -/

namespace Operand

/-- Whether an operand may stand where a form asks for a shape. A branch target may be written
with or without a number sign. -/
def fits : OperandShape → Operand → Bool
  | .register, register _ => true
  | .immediate, immediate _ => true
  | .memoryOffset, memoryOffset .. => true
  | .memoryAbsolute, memoryAbsolute _ => true
  | .target, bare _ | .target, immediate _ => true
  | _, _ => false

/-- The expression in an operand. -/
def expression? : Operand → Option Expression
  | immediate e | memoryOffset _ e | memoryAbsolute e | bare e => some e
  | register _ | string _ => none

/-- The operand values that an operand gives under a symbol table: a memory operand with an offset
gives two, and a string none. -/
def evaluate (table : SymbolTable) : Operand → Except LineError (List OperandValue)
  | register r => .ok [.register r]
  | memoryOffset base e => (e.evaluate table).map fun v => [.register base, .integer v]
  | immediate e | memoryAbsolute e | bare e => (e.evaluate table).map fun v => [.integer v]
  | string _ => .ok []

/-- Whether operands fit the shapes of a form one by one. -/
def allFit : List OperandShape → List Operand → Bool
  | [], [] => true
  | s :: shapes, o :: operands => o.fits s && allFit shapes operands
  | _, _ => false

end Operand

/-- The opcode that a mnemonic names with given operands. -/
def Opcode.select (head : Fragment) (operands : List Operand) : Except LineError Opcode :=
  let candidates := Opcode.withMnemonic head.text
  match candidates.find? fun op => Operand.allFit op.shapes operands with
  | some op => .ok op
  | none =>
    if candidates = [] then .error ⟨head.column, .unknownInstruction head.toString⟩
    else .error ⟨head.column, .invalidOperands head.toString candidates⟩

end RobotMachine
