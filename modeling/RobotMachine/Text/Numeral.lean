/-!
# Reading numbers

Digits of a radix are read from the front, below a limit that the number must not reach. At each
digit it is checked first that it is one, and then that the number so far stays below the limit.
-/

namespace RobotMachine

inductive NumeralError
  | invalid
  | tooLarge
  deriving DecidableEq, Repr

/-- The value of a decimal digit or of a letter counted on from ten, if the radix has it. -/
def digitValue? (radix : Nat) (c : Char) : Option Nat :=
  let value :=
    if c.isDigit then c.toNat - '0'.toNat
    else if c.isLower then c.toNat - 'a'.toNat + 10
    else if c.isUpper then c.toNat - 'A'.toNat + 10
    else radix
  if value < radix then some value else none

/-- The number that digits continue after the digits of `n`. -/
def readDigits (radix limit : Nat) : (n : Nat) → List Char → Except NumeralError Nat
  | n, [] => .ok n
  | n, c :: digits =>
    match digitValue? radix c with
    | none => .error .invalid
    | some d =>
      if n * radix + d < limit then readDigits radix limit (n * radix + d) digits
      else .error .tooLarge

/-- The number that one or more digits denote. -/
def readNumeral (radix limit : Nat) (digits : List Char) : Except NumeralError Nat :=
  if digits = [] then .error .invalid else readDigits radix limit 0 digits

end RobotMachine
