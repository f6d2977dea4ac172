import RobotMachine.Assembly.Error
import RobotMachine.Assembly.Fragment

/-!
# Source lines

A line is cut into a label, a head (a mnemonic or a directive) and operands:

```
[label:] head operand, operand, ...   ; comment
```

A comment starts with `;` or `//`, operands are separated by commas, and neither has that meaning
inside a string or character literal. `Quoting` follows a line through its literals; `Fragment.code`
drops the comment, `Fragment.splitOperands` finds the operands, and `SourceLine.scan` joins them.
-/

namespace RobotMachine

/-! ## Literals -/

/-- Where a place in a line stands: outside every literal, inside one that a quote opened, or
inside one directly behind a backslash. -/
inductive Quoting
  | outside
  | inside (quote : Char)
  | escaped (quote : Char)
  deriving DecidableEq, Repr

/-- Where the place behind a character stands. -/
def Quoting.next : Quoting → Char → Quoting
  | outside, c => if c = '"' ∨ c = '\'' then inside c else outside
  | inside quote, c =>
    if c = '\\' then escaped quote else if c = quote then outside else inside quote
  | escaped quote, _ => inside quote

/-- The text in front of the comment. `opened` is the column of the quote that opened the literal
around the text, if there is one. -/
def codeText (quoting : Quoting) (opened column : Nat) : List Char → Except LineError (List Char)
  | [] =>
    match quoting with
    | .outside => .ok []
    | .inside quote | .escaped quote => .error ⟨opened, .unterminatedLiteral quote⟩
  | c :: text =>
    if quoting = .outside ∧ (c = ';' ∨ c = '/' ∧ text.head? = some '/') then .ok []
    else do
      let opened := if quoting = .outside then column else opened
      let rest ← codeText (quoting.next c) opened (column + c.utf8Size) text
      return c :: rest

/-- The line without its comment. A literal must end in its line. -/
def codeOfLine (line : List Char) : Except LineError Fragment :=
  (codeText .outside 1 1 line).map Fragment.ofLine

/-! ## Operands -/

/-- The depth of brackets behind a character. -/
def bracketDepth (depth : Nat) (c : Char) : Nat :=
  if c = '[' then depth + 1 else if c = ']' then depth - 1 else depth

/-- The pieces of a text between the commas outside literals and brackets: the first, which starts
at the given column, and the others. -/
def commaPieces (quoting : Quoting) (depth column : Nat) :
    List Char → Fragment × List Fragment
  | [] => (⟨column, []⟩, [])
  | c :: text =>
    if quoting = .outside ∧ depth = 0 ∧ c = ',' then
      let (first, others) := commaPieces .outside 0 (column + 1) text
      (⟨column, []⟩, first :: others)
    else
      let depth := if quoting = .outside then bracketDepth depth c else depth
      let (first, others) := commaPieces (quoting.next c) depth (column + c.utf8Size) text
      (⟨column, c :: first.text⟩, others)

/-- A piece without the blanks around it, which must not be all there is. -/
def Fragment.toOperand (f : Fragment) : Except LineError Fragment :=
  if f.trim.text = [] then .error ⟨f.trim.column, .emptyOperand⟩ else .ok f.trim

/-- The operands in a fragment: none if it is blank, else what stands between its commas. -/
def Fragment.splitOperands (f : Fragment) : Except LineError (List Fragment) :=
  if f.text.all isBlank then .ok []
  else
    let (first, others) := commaPieces .outside 0 f.column f.text
    (first :: others).mapM Fragment.toOperand

/-! ## Lines -/

def isIdentifierStart (c : Char) : Bool :=
  c.isAlpha || c == '_' || c == '.'

def isIdentifierChar (c : Char) : Bool :=
  c.isAlphanum || c == '_' || c == '.'

/-- A mnemonic or directive with its operands. -/
structure Clause where
  head : Fragment
  operands : List Fragment
  deriving DecidableEq, Repr

/-- What a line says, with nothing resolved yet. -/
structure SourceLine where
  label : Option Fragment := none
  clause : Option Clause := none
  deriving DecidableEq, Repr

/-- The identifier at the start of a fragment that is not empty, and what follows it. -/
def Fragment.splitIdentifier (f : Fragment) : Except LineError (Fragment × Fragment) :=
  match f.text with
  | [] => .ok (f, f)
  | c :: _ =>
    if isIdentifierStart c then .ok (f.takeWhile isIdentifierChar, f.dropWhile isIdentifierChar)
    else .error ⟨f.column, .unexpected c⟩

/-- The clause of a head and what follows it, which must start with a blank if it is not empty. -/
def Clause.ofHead (head rest : Fragment) : Except LineError Clause :=
  match rest.text with
  | [] => .ok ⟨head, []⟩
  | c :: _ =>
    if isAsciiBlank c then rest.splitOperands.map (Clause.mk head)
    else .error ⟨rest.column, .unexpected c⟩

/-- Cuts a line into its label, head and operands. -/
def SourceLine.scan (line : List Char) : Except LineError SourceLine := do
  let code ← codeOfLine line
  let start := code.skipBlanks
  if start.text = [] then return {}
  let (word, rest) ← start.splitIdentifier
  if rest.text.head? ≠ some ':' then
    let clause ← Clause.ofHead word rest
    return { clause }
  let start := (rest.drop 1).skipBlanks
  if start.text = [] then return { label := word }
  let (head, rest) ← start.splitIdentifier
  let clause ← Clause.ofHead head rest
  return { label := word, clause }

end RobotMachine
