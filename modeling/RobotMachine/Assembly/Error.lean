import RobotMachine.Assembly.Directive
import RobotMachine.Instruction.Opcode
import RobotMachine.Machine.Region

/-!
# Why a source does not assemble

Each cause has its own constructor. `Cause.message` gives its wording and `Cause.kind` sorts it:
a malformed statement, an undefined symbol, or something that does not fit its place.
-/

namespace RobotMachine

inductive ErrorKind
  | malformed
  | unresolved
  | unencodable
  deriving DecidableEq, Repr

def ErrorKind.name : ErrorKind → String
  | .malformed => "syntax error"
  | .unresolved => "unresolved symbol"
  | .unencodable => "encoding error"

/-- What is wrong with a piece of source text. -/
inductive Cause
  -- the shape of a line
  | unterminatedLiteral (quote : Char)
  | unexpected (c : Char)
  | emptyOperand
  -- definitions
  | registerName (name : String)
  | duplicateSymbol (name : String)
  | expectedSymbolName (text : String)
  -- instructions
  | outsideText (mnemonic : String)
  | unknownInstruction (mnemonic : String)
  | invalidOperands (mnemonic : String) (candidates : List Opcode)
  | unexpectedString
  | operand (error : OperandError)
  | codeTooLarge
  -- directives
  | unknownDirective (name : String)
  | takesNoOperands (d : Directive)
  | expectsSymbol (d : Directive)
  | expectsNameAndValue (d : Directive)
  | onlyInData (d : Directive)
  | expectsOperands (d : Directive)
  | expectsOneOperand (d : Directive)
  | expectedString
  | alignmentRange (v : Int)
  | sizeRange (v : Int)
  | wordRange (v : Int)
  | byteRange (v : Int)
  | dataTooLarge
  -- memory operands
  | unclosedMemoryOperand
  | emptyMemoryOperand
  | expectedBaseRegister
  | expectedOffset
  | tooManyParts
  -- values
  | invalidRegister (text : String)
  | unknownEscape
  | textAfterString
  | emptyCharacter
  | unclosedCharacter
  | invalidNumber (text : String)
  | numberTooLarge (text : String)
  | expectedValue
  | expressionOverflows
  | undefinedSymbol (name : String)
  deriving DecidableEq, Repr

/-- The largest power of two that `.align` takes: a whole region. -/
abbrev maxAlignPower : Nat := 12

/-- A form as messages show it: the mnemonic and the shapes of its operands. -/
def Opcode.description (op : Opcode) : String :=
  match op.shapes with
  | [] => "`" ++ op.mnemonic ++ "`"
  | shapes =>
    "`" ++ op.mnemonic ++ " " ++ ", ".intercalate (shapes.map OperandShape.description) ++ "`"

namespace Cause

def kind : Cause → ErrorKind
  | undefinedSymbol .. => .unresolved
  | operand .. | codeTooLarge | alignmentRange .. | sizeRange .. | wordRange .. | byteRange ..
  | dataTooLarge | invalidRegister .. | numberTooLarge .. | expressionOverflows => .unencodable
  | _ => .malformed

def message : Cause → String
  | unterminatedLiteral quote =>
    "unterminated " ++ (if quote = '"' then "string" else "character") ++ " literal"
  | unexpected c => "unexpected `" ++ c.toString ++ "`"
  | emptyOperand => "empty operand"
  | registerName name => "`" ++ name ++ "` is a register name"
  | duplicateSymbol name => "duplicate symbol `" ++ name ++ "`"
  | expectedSymbolName text => "expected a symbol name, found `" ++ text ++ "`"
  | outsideText mnemonic => "`" ++ mnemonic ++ "` must appear in the .text section"
  | unknownInstruction mnemonic => "unknown instruction `" ++ mnemonic ++ "`"
  | invalidOperands mnemonic candidates =>
    "invalid operands for `" ++ mnemonic.map Char.toUpper ++ "`; expected " ++
      " or ".intercalate (candidates.map Opcode.description)
  | unexpectedString => "unexpected string literal"
  | operand error => error.message
  | codeTooLarge => "code exceeds the " ++ toString regionWords ++ "-word code region"
  | unknownDirective name => "unknown directive `" ++ name ++ "`"
  | takesNoOperands d => "`" ++ d.name ++ "` takes no operands"
  | expectsSymbol d => "`" ++ d.name ++ "` expects a symbol"
  | expectsNameAndValue d => "`" ++ d.name ++ "` expects a name and a value"
  | onlyInData d => "`" ++ d.name ++ "` is only allowed in the .data section"
  | expectsOperands d => "`" ++ d.name ++ "` expects at least one operand"
  | expectsOneOperand d => "`" ++ d.name ++ "` expects one operand"
  | expectedString => "expected a string literal"
  | alignmentRange v =>
    "alignment power " ++ toString v ++ " is outside 0..=" ++ toString maxAlignPower
  | sizeRange v => "size " ++ toString v ++ " is outside 0..=" ++ toString regionSize
  | wordRange v => "value " ++ toString v ++ " does not fit in a word"
  | byteRange v => "value " ++ toString v ++ " does not fit in a byte"
  | dataTooLarge => "data exceeds the " ++ toString regionSize ++ "-byte data region"
  | unclosedMemoryOperand => "expected `]` to close the memory operand"
  | emptyMemoryOperand => "empty memory operand"
  | expectedBaseRegister => "expected a base register"
  | expectedOffset => "expected `#offset`"
  | tooManyParts => "too many parts in memory operand"
  | invalidRegister text => "invalid register `" ++ text ++ "`"
  | unknownEscape => "unknown escape sequence"
  | textAfterString => "unexpected text after string literal"
  | emptyCharacter => "empty character literal"
  | unclosedCharacter => "expected closing `'`"
  | invalidNumber text => "invalid number `" ++ text ++ "`"
  | numberTooLarge text => "number `" ++ text ++ "` is too large"
  | expectedValue => "expected a value"
  | expressionOverflows => "expression overflows"
  | undefinedSymbol name => "undefined symbol `" ++ name ++ "`"

end Cause

/-- A cause at a byte column of a line, counted from 1. -/
structure LineError where
  column : Nat
  cause : Cause
  deriving DecidableEq, Repr

/-- A cause at a line and a byte column, both counted from 1. -/
structure AssemblyError where
  line : Nat
  column : Nat
  cause : Cause
  deriving DecidableEq, Repr

def LineError.onLine (e : LineError) (line : Nat) : AssemblyError :=
  ⟨line, e.column, e.cause⟩

end RobotMachine
