import RobotMachine.Assembly.Operand

/-!
# The layout of a source

The first look at a source goes through its lines in order. It defines the symbols, chooses the
opcode of each instruction, finds out how much room code and data take, and lists the statements
that are still to be encoded. A statement's own symbols need not be defined yet; the constants that
the layout itself depends on are evaluated on the spot.

* `Layout.addLine`: one line.
* `Layout.ofLines`: all lines of a source.
-/

namespace RobotMachine

/-- What a statement encodes to: an instruction word, or bytes at an offset of the data. -/
inductive StatementBody
  | instruction (opcode : Opcode) (operands : List (Operand × Nat))
  | words (offset : Nat) (values : List Expression)
  | bytes (offset : Nat) (values : List Expression)
  | string (offset : Nat) (bytes : List UInt8)
  deriving DecidableEq, Repr

/-- A statement to be encoded, with the line and the column of its head. -/
structure Statement where
  line : Nat
  column : Nat
  body : StatementBody
  deriving DecidableEq, Repr

/-- The expressions of a statement, from left to right. -/
def Statement.expressions (s : Statement) : List Expression :=
  match s.body with
  | .instruction _ operands => operands.filterMap fun (o, _) => o.expression?
  | .words _ values | .bytes _ values => values
  | .string .. => []

/-- The least multiple of `m` that is not below `n`. -/
def roundUp (n m : Nat) : Nat :=
  (n + (m - 1)) / m * m

/-- What is known of a source after some of its lines. The data starts behind the mailbox word. -/
structure Layout where
  active : Section := .text
  symbols : SymbolTable := []
  /-- The statements so far, newest first. -/
  statements : List Statement := []
  /-- The number of code words. -/
  codeLength : Nat := 0
  /-- The offset behind the last byte of data. -/
  dataLength : Nat := wordSize
  /-- The first statement that did not fit into its region. -/
  overflow : Option AssemblyError := none
  /-- Labels on lines of their own in the data section that wait for the next allocation. -/
  waiting : List String := []
  deriving DecidableEq, Repr

namespace Layout

/-- The address of the next statement in the active section. -/
def location (l : Layout) : Int :=
  match l.active with
  | .text => codeBase.toNat + l.codeLength * wordSize
  | .data => dataBase.toNat + l.dataLength

/-- Defines a symbol, whose name must be new and no register. -/
def define (l : Layout) (name : Fragment) (v : Int) : Except LineError Layout :=
  if (Register.ofName? name.text).isSome then .error ⟨name.column, .registerName name.toString⟩
  else if l.symbols.isTaken name.toString then
    .error ⟨name.column, .duplicateSymbol name.toString⟩
  else .ok { l with symbols := (name.toString, v) :: l.symbols }

/-- Notes that a section has outgrown its region, unless one had already. -/
def outgrown (l : Layout) (line column : Nat) (cause : Cause) : Layout :=
  { l with overflow := some (l.overflow.getD ⟨line, column, cause⟩) }

/-- Adds a statement and moves the end of the data. -/
def addStatement (l : Layout) (s : Statement) (dataLength : Nat) : Layout :=
  { l with statements := s :: l.statements, dataLength }

/-! ## Labels -/

/-- Defines the label of a line at the active location. In the data section a label without a
clause behind it waits. -/
def addLabel (l : Layout) (src : SourceLine) : Except LineError Layout :=
  match src.label with
  | none => .ok l
  | some label => do
    let defined ← l.define label l.location
    if l.active = .data ∧ src.clause.isNone then
      return { defined with waiting := label.toString :: defined.waiting }
    else
      return defined

/-- Lets the waiting labels stand where the next data goes, if a clause allocates data. Alignment
keeps them waiting, and any other clause lets them stand where they are. -/
def settleWaiting (l : Layout) (directive : Option Directive) : Layout :=
  if l.active = .data ∧ directive = some .align then l
  else if l.active = .data ∧ directive.any Directive.allocates then
    { l with symbols := l.symbols.move l.waiting l.location, waiting := [] }
  else
    { l with waiting := [] }

/-! ## Clauses -/

/-- Adds an instruction, which belongs into the text section. -/
def addInstruction (l : Layout) (line : Nat) (c : Clause) : Except LineError Layout := do
  if l.active ≠ .text then throw ⟨c.head.column, .outsideText c.head.toString⟩
  let operands ← c.operands.mapM fun f => (Operand.parse f).map fun o => (o, f.column)
  let opcode ← Opcode.select c.head (operands.map (·.1))
  let l := if l.codeLength < regionWords then l else l.outgrown line c.head.column .codeTooLarge
  let s : Statement := ⟨line, c.head.column, .instruction opcode operands⟩
  return { l.addStatement s l.dataLength with codeLength := l.codeLength + 1 }

/-- Checks that an operand is an identifier. -/
def expectSymbolName (f : Fragment) : Except LineError Unit :=
  if f.text.head?.any isIdentifierStart ∧ f.text.all isIdentifierChar then .ok ()
  else .error ⟨f.column, .expectedSymbolName f.toString⟩

/-- Whether a number fits in a word, with or without a sign. -/
def fitsWord (v : Int) : Bool :=
  -0x80000000 ≤ v && v < 0x100000000

/-- Defines a symbol by an expression whose own symbols are all defined before it. -/
def addConstant (l : Layout) (symbol value : Fragment) : Except LineError Layout := do
  expectSymbolName symbol
  let e ← Expression.parse value
  let v ← e.evaluate l.symbols
  if fitsWord v then l.define symbol v else throw ⟨value.column, .wordRange v⟩

/-- The bytes of an operand that must be a string, with a zero behind them if asked for. -/
def stringOperand (terminated : Bool) (f : Fragment) : Except LineError (List UInt8) :=
  if f.text.head? = some '"' then
    f.toStringBytes.map fun bytes => bytes ++ if terminated then [0] else []
  else
    .error ⟨f.column, .expectedString⟩

/-- Adds the listed values or strings at the end of the data. -/
def addData (l : Layout) (line : Nat) (d : Directive) (c : Clause) : Except LineError Layout :=
  let add (body : StatementBody) (size : Nat) :=
    l.addStatement ⟨line, c.head.column, body⟩ (l.dataLength + size)
  match d with
  | .word => do
    let values ← c.operands.mapM Expression.parse
    return add (.words l.dataLength values) (values.length * wordSize)
  | .byte => do
    let values ← c.operands.mapM Expression.parse
    return add (.bytes l.dataLength values) values.length
  | _ => do
    let strings ← c.operands.mapM (stringOperand (d ≠ .ascii))
    return add (.string l.dataLength strings.flatten) strings.flatten.length

/-- Leaves room for some bytes, or moves the end of the data up to a multiple of a power of two. -/
def addRoom (l : Layout) (d : Directive) (amount : Fragment) : Except LineError Layout := do
  let e ← Expression.parse amount
  let v ← e.evaluate l.symbols
  if d = .align then
    if 0 ≤ v ∧ v ≤ maxAlignPower then
      return { l with dataLength := roundUp l.dataLength (1 <<< v.toNat) }
    else
      throw ⟨amount.column, .alignmentRange v⟩
  else
    if 0 ≤ v ∧ v ≤ regionSize then return { l with dataLength := l.dataLength + v.toNat }
    else throw ⟨amount.column, .sizeRange v⟩

/-- Adds a directive that belongs into the data section. -/
def addDataDirective (l : Layout) (line : Nat) (d : Directive) (c : Clause) :
    Except LineError Layout := do
  if l.active ≠ .data then throw ⟨c.head.column, .onlyInData d⟩
  let grown ←
    match c.operands with
    | [] => throw ⟨c.head.column, .expectsOperands d⟩
    | first :: others =>
      if d = .space ∨ d = .skip ∨ d = .align then
        match others with
        | [] => l.addRoom d first
        | second :: _ => throw ⟨second.column, .expectsOneOperand d⟩
      else
        l.addData line d c
  return if grown.dataLength ≤ regionSize then grown
    else grown.outgrown line c.head.column .dataTooLarge

def addDirective (l : Layout) (line : Nat) (d : Directive) (c : Clause) :
    Except LineError Layout :=
  match d with
  | .text | .data =>
    match c.operands with
    | [] => .ok { l with active := if d = .text then .text else .data }
    | extra :: _ => .error ⟨extra.column, .takesNoOperands d⟩
  | .global | .globl =>
    if c.operands = [] then .error ⟨c.head.column, .expectsSymbol d⟩
    else (c.operands.forM expectSymbolName).map fun () => l
  | .equ | .set =>
    match c.operands with
    | [symbol, value] => l.addConstant symbol value
    | _ => .error ⟨c.head.column, .expectsNameAndValue d⟩
  | _ => l.addDataDirective line d c

/-! ## Lines -/

/-- Moves the end of the data to a multiple of the word size if a line lists words, so that a
label on the line names the first of them. -/
def alignForWords (l : Layout) (directive : Option Directive) : Layout :=
  if l.active = .data ∧ directive = some .word then
    { l with dataLength := roundUp l.dataLength wordSize }
  else
    l

/-- Adds one scanned line. -/
def addLine (l : Layout) (line : Nat) (src : SourceLine) : Except LineError Layout := do
  let directive := src.clause.bind fun c => Directive.ofName? c.head.text
  let l ← (l.alignForWords directive).addLabel src
  match src.clause with
  | none => return l
  | some c =>
    let l := l.settleWaiting directive
    match directive with
    | some d => l.addDirective line d c
    | none =>
      if c.head.text.head? = some '.' then
        throw ⟨c.head.column, .unknownDirective c.head.toString⟩
      else
        l.addInstruction line c

/-- Adds lines, the first of which has the given number. -/
def addLines (l : Layout) (line : Nat) : List (List Char) → Except AssemblyError Layout
  | [] => .ok l
  | text :: texts =>
    match SourceLine.scan text >>= l.addLine line with
    | .ok l => l.addLines (line + 1) texts
    | .error e => .error (e.onLine line)

/-- The layout of all lines of a source. -/
def ofLines (lines : List (List Char)) : Except AssemblyError Layout :=
  addLines {} 1 lines

end Layout

end RobotMachine
