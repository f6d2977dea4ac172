/-!
# Columns of text

Padding to a width, and numbers in the fixed forms that messages and listings use.
-/

namespace RobotMachine

/-- A text filled up with `fill` on its left to at least `width` characters. -/
def padLeft (width : Nat) (fill : Char) (text : String) : String :=
  String.ofList (List.replicate (width - text.length) fill) ++ text

/-- A text filled up with spaces on its right to at least `width` characters. -/
def padRight (width : Nat) (text : String) : String :=
  text ++ String.ofList (List.replicate (width - text.length) ' ')

/-- A number in lower-case hexadecimal. -/
def hexDigits (n : Nat) : String :=
  String.ofList (Nat.toDigits 16 n)

/-- A number in hexadecimal behind `0x`. -/
def hex (n : Nat) : String :=
  "0x" ++ hexDigits n

/-- A number behind `0x` with at least `digits` hexadecimal digits. -/
def paddedHex (digits n : Nat) : String :=
  "0x" ++ padLeft digits '0' (hexDigits n)

/-- A word as addresses and register contents are shown: `0x` and eight digits. -/
def wordHex (w : UInt32) : String :=
  paddedHex 8 w.toNat

end RobotMachine
