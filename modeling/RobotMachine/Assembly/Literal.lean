import RobotMachine.Assembly.SourceLine
import RobotMachine.Text.Numeral

/-!
# Literals

Numbers in decimal, hexadecimal behind `0x` and binary behind `0b`, characters between apostrophes
and strings between double quotes. A backslash starts one of a few escapes.
-/

namespace RobotMachine

/-- Numbers are held in 64 bits with a sign. -/
abbrev numberLimit : Nat := 0x8000000000000000

/-- The radix of a numeral and its digits. -/
def numeralParts : List Char → Nat × List Char
  | '0' :: 'x' :: digits | '0' :: 'X' :: digits => (16, digits)
  | '0' :: 'b' :: digits | '0' :: 'B' :: digits => (2, digits)
  | digits => (10, digits)

/-- The number that a fragment denotes. -/
def Fragment.toNumber (f : Fragment) : Except LineError Nat :=
  let (radix, digits) := numeralParts f.text
  match readNumeral radix numberLimit digits with
  | .ok n => .ok n
  | .error .invalid => .error ⟨f.column, .invalidNumber f.toString⟩
  | .error .tooLarge => .error ⟨f.column, .numberTooLarge f.toString⟩

/-- The character that stands behind a backslash for another. -/
def escaped? : Char → Option Char
  | 'n' => some '\n'
  | 't' => some '\t'
  | 'r' => some '\r'
  | '0' => some '\x00'
  | '\\' => some '\\'
  | '\'' => some '\''
  | '"' => some '"'
  | _ => none

/-- The character literal at the start of a fragment, and the number of its characters. -/
def Fragment.characterLiteral (f : Fragment) : Except LineError (Char × Nat) :=
  match f.text.drop 1 with
  | [] | '\'' :: _ => .error ⟨f.column, .emptyCharacter⟩
  | '\\' :: text =>
    match text.head?.bind escaped? with
    | none => .error ⟨f.column, .unknownEscape⟩
    | some c =>
      if text[1]? = some '\'' then .ok (c, 4) else .error ⟨f.column, .unclosedCharacter⟩
  | c :: text =>
    if text.head? = some '\'' then .ok (c, 3) else .error ⟨f.column, .unclosedCharacter⟩

/-- The bytes of a string literal behind its opening quote. `opened` is the column of that quote,
and `column` that of the text. -/
def stringBytes (opened column : Nat) : List Char → Except LineError (List UInt8)
  | [] => .error ⟨opened, .unterminatedLiteral '"'⟩
  | '"' :: text => if text = [] then .ok [] else .error ⟨column + 1, .textAfterString⟩
  | ['\\'] => .error ⟨column, .unknownEscape⟩
  | '\\' :: c :: text =>
    match escaped? c with
    | none => .error ⟨column, .unknownEscape⟩
    | some c => (stringBytes opened (column + 2) text).map (String.utf8EncodeChar c ++ ·)
  | c :: text =>
    (stringBytes opened (column + c.utf8Size) text).map (String.utf8EncodeChar c ++ ·)

/-- The bytes of the string literal that a fragment is. -/
def Fragment.toStringBytes (f : Fragment) : Except LineError (List UInt8) :=
  stringBytes f.column (f.column + 1) (f.text.drop 1)

end RobotMachine
