import RobotMachine.Assembly.Layout
import RobotMachine.Instruction.Basic
import RobotMachine.Machine.Memory
import RobotMachine.Program.Basic

/-!
# Encoding a layout

Once all lines are laid out, every statement is evaluated under the final symbol table and encoded.
Before that it is checked, in this order, that every symbol in a statement is defined and that no
section has outgrown its region.

* `Statement.emit`: what one statement becomes.
* `Layout.emit`: the program of a layout.
-/

namespace RobotMachine

/-- What a statement becomes: a code word with its line, or bytes at an offset of the data. -/
inductive Emission
  | word (word : UInt32) (line : Nat)
  | data (offset : Nat) (bytes : List UInt8)
  deriving DecidableEq, Repr

/-! ## Statements -/

/-- The word of an instruction. A value that does not fit is blamed on the first operand that has a
value. -/
def emitInstruction (table : SymbolTable) (column : Nat) (opcode : Opcode)
    (operands : List (Operand × Nat)) : Except LineError UInt32 := do
  let values ← operands.mapM fun (o, _) => o.evaluate table
  let valueColumn := (operands.find? fun (o, _) => o.expression?.isSome).map (·.2)
  match Instruction.ofOperands opcode values.flatten with
  | .ok i => return i.encode
  | .error e => throw ⟨valueColumn.getD column, .operand e⟩

/-- The bytes of a listed word. -/
def emitWord (table : SymbolTable) (e : Expression) : Except LineError (List UInt8) := do
  let v ← e.evaluate table
  if Layout.fitsWord v then return wordBytes (UInt32.ofInt v) else throw ⟨e.column, .wordRange v⟩

/-- The byte that is listed, with or without a sign. -/
def emitByte (table : SymbolTable) (e : Expression) : Except LineError UInt8 := do
  let v ← e.evaluate table
  if -0x80 ≤ v ∧ v < 0x100 then return UInt8.ofInt v else throw ⟨e.column, .byteRange v⟩

/-- What a statement becomes under a symbol table. -/
def Statement.emit (table : SymbolTable) (s : Statement) : Except LineError Emission :=
  match s.body with
  | .instruction opcode operands =>
    (emitInstruction table s.column opcode operands).map fun w => .word w s.line
  | .words offset values =>
    (values.mapM (emitWord table)).map fun bytes => .data offset bytes.flatten
  | .bytes offset values => (values.mapM (emitByte table)).map (.data offset)
  | .string offset bytes => .ok (.data offset bytes)

namespace Emission

/-- The code word of an emission with its line. -/
def word? : Emission → Option (UInt32 × Nat)
  | word w line => some (w, line)
  | data .. => none

/-- An image of the data with the bytes of an emission in their place. -/
def putInto (image : List UInt8) : Emission → List UInt8
  | word .. => image
  | data offset bytes => image.take offset ++ bytes ++ image.drop (offset + bytes.length)

end Emission

/-! ## Layouts -/

namespace Layout

/-- The first symbol of a statement that is not defined. -/
def undefinedIn (table : SymbolTable) (s : Statement) : Option AssemblyError :=
  (s.expressions.flatMap Expression.symbols).findSome? fun (name, column) =>
    if (table.value? name).isSome then none else some ⟨s.line, column, .undefinedSymbol name⟩

/-- Why a layout cannot be encoded whatever its values are: an undefined symbol, or else an
outgrown section. -/
def defect? (l : Layout) : Option AssemblyError :=
  (l.statements.reverse.findSome? (undefinedIn l.symbols)).or l.overflow

/-- The data before anything is put into it: zeros up to the end of the last allocation, or nothing
at all if there is none behind the mailbox word. -/
def blankData (l : Layout) : List UInt8 :=
  if wordSize < l.dataLength then List.replicate l.dataLength 0 else []

/-- The symbols as a program lists them, in the order of their names. -/
def sortedSymbols (l : Layout) : List (String × UInt32) :=
  (l.symbols.map fun (name, v) => (name, UInt32.ofInt v)).mergeSort fun a b => a.1 ≤ b.1

/-- The program of a layout whose statements became the given emissions. -/
def program (l : Layout) (emissions : List Emission) : Program :=
  let words := emissions.filterMap Emission.word?
  { code := words.map (·.1)
    data := emissions.foldl Emission.putInto l.blankData
    lines := words.map fun (_, line) => UInt32.ofNat line
    symbols := l.sortedSymbols }

/-- Encodes a layout. -/
def emit (l : Layout) : Except AssemblyError Program :=
  match l.defect? with
  | some e => .error e
  | none => do
    let emissions ← l.statements.reverse.mapM fun s =>
      (s.emit l.symbols).mapError (·.onLine s.line)
    return l.program emissions

end Layout

end RobotMachine
