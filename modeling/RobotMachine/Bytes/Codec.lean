import RobotMachine.Bytes.LittleEndian

/-!
# Binary codec

Values are written without separators, so that each can be read off the front of the bytes that
follow it:

- integers: little-endian, in as many bytes as their width
- sizes: as 64-bit integers
- truth values: one byte, 0 or 1
- lists and strings: a size and then the elements, or the bytes in UTF-8
- arrays and pairs: their parts in order

* `Shape.encode`, `Shape.decode`: a value to bytes, and a value off the front of bytes.
* `Shape.byteCount`: the number of bytes of a value.
-/

namespace RobotMachine

/-- The type of an encoded value. -/
inductive Shape
  | uint8 | uint16 | uint32 | uint64
  | int32 | int64
  | size
  | bool
  | string
  | array (length : Nat) (element : Shape)
  | list (element : Shape)
  | pair (first second : Shape)
  deriving DecidableEq, Repr

/-- Why bytes are not the encoding of a value. -/
inductive CodecError
  | unexpectedEnd
  | invalidValue
  | lengthTooLarge
  deriving DecidableEq, Repr

def CodecError.message : CodecError → String
  | .unexpectedEnd => "unexpected end of input"
  | .invalidValue => "invalid value"
  | .lengthTooLarge => "length prefix too large"

/-- The values of a shape. -/
def Shape.Value : Shape → Type
  | uint8 => UInt8
  | uint16 => UInt16
  | uint32 => UInt32
  | uint64 | size => UInt64
  | int32 => Int32
  | int64 => Int64
  | bool => Bool
  | string => String
  | array length element => { values : List element.Value // values.length = length }
  | list element => List element.Value
  | pair first second => first.Value × second.Value

/-- The largest number of elements of a list, and of bytes of a string, that is read. -/
def maxLength : Nat := 0x100000

/-! ## Writing -/

/-- The bytes of a length. -/
def lengthBytes (n : Nat) : List UInt8 :=
  LittleEndian.bytes 8 n

/-- The bytes of a value. -/
def Shape.encode : (s : Shape) → s.Value → List UInt8
  | uint8, v => LittleEndian.bytes 1 (UInt8.toNat v)
  | uint16, v => LittleEndian.bytes 2 (UInt16.toNat v)
  | uint32, v => LittleEndian.bytes 4 (UInt32.toNat v)
  | uint64, v | size, v => LittleEndian.bytes 8 (UInt64.toNat v)
  | int32, v => LittleEndian.bytes 4 (Int32.toUInt32 v).toNat
  | int64, v => LittleEndian.bytes 8 (Int64.toUInt64 v).toNat
  | bool, v => [Bool.toUInt8 v]
  | string, v =>
    let bytes := (String.toUTF8 v).data.toList
    lengthBytes bytes.length ++ bytes
  | array _ element, ⟨values, _⟩ => values.flatMap element.encode
  | list element, values => lengthBytes (List.length values) ++ List.flatMap element.encode values
  | pair first second, v => first.encode v.1 ++ second.encode v.2

/-- The number of bytes of a value. -/
def Shape.byteCount : (s : Shape) → s.Value → Nat
  | uint8, _ | bool, _ => 1
  | uint16, _ => 2
  | uint32, _ | int32, _ => 4
  | uint64, _ | size, _ | int64, _ => 8
  | string, v => 8 + String.utf8ByteSize v
  | array _ element, ⟨values, _⟩ => (values.map element.byteCount).sum
  | list element, values => 8 + (List.map element.byteCount values).sum
  | pair first second, v => first.byteCount v.1 + second.byteCount v.2

/-! ## Reading -/

/-- The first `count` bytes and the bytes behind them. -/
def readBytes (count : Nat) (input : List UInt8) : Except CodecError (List UInt8 × List UInt8) :=
  let bytes := input.take count
  if bytes.length = count then .ok (bytes, input.drop count) else .error .unexpectedEnd

/-- The number in the first `count` bytes and the bytes behind it. -/
def readNumber (count : Nat) (input : List UInt8) : Except CodecError (Nat × List UInt8) := do
  let (bytes, rest) ← readBytes count input
  return (LittleEndian.number bytes, rest)

/-- The length at the front, which must not be too large, and the bytes behind it. -/
def readLength (input : List UInt8) : Except CodecError (Nat × List UInt8) := do
  let (n, rest) ← readNumber 8 input
  if n ≤ maxLength then return (n, rest) else throw .lengthTooLarge

/-- Reads `count` values one after the other. -/
def readMany {α : Type} (read : List UInt8 → Except CodecError (α × List UInt8)) :
    (count : Nat) → List UInt8 →
      Except CodecError ({ values : List α // values.length = count } × List UInt8)
  | 0, input => .ok (⟨[], rfl⟩, input)
  | count + 1, input => do
    let (v, rest) ← read input
    let (⟨vs, h⟩, rest) ← readMany read count rest
    return (⟨v :: vs, by simp [h]⟩, rest)

/-- The value at the front of some bytes and the bytes behind it. -/
def Shape.decode : (s : Shape) → List UInt8 → Except CodecError (s.Value × List UInt8)
  | uint8, input => do
    let (n, rest) ← readNumber 1 input
    return (UInt8.ofNat n, rest)
  | uint16, input => do
    let (n, rest) ← readNumber 2 input
    return (UInt16.ofNat n, rest)
  | uint32, input => do
    let (n, rest) ← readNumber 4 input
    return (UInt32.ofNat n, rest)
  | uint64, input | size, input => do
    let (n, rest) ← readNumber 8 input
    return (UInt64.ofNat n, rest)
  | int32, input => do
    let (n, rest) ← readNumber 4 input
    return ((UInt32.ofNat n).toInt32, rest)
  | int64, input => do
    let (n, rest) ← readNumber 8 input
    return ((UInt64.ofNat n).toInt64, rest)
  | bool, input => do
    let (n, rest) ← readNumber 1 input
    if n = 0 then return (false, rest)
    else if n = 1 then return (true, rest)
    else throw .invalidValue
  | string, input => do
    let (n, rest) ← readLength input
    let (bytes, rest) ← readBytes n rest
    match String.fromUTF8? bytes.toByteArray with
    | some text => return (text, rest)
    | none => throw .invalidValue
  | array length element, input => readMany element.decode length input
  | list element, input => do
    let (n, rest) ← readLength input
    let (⟨values, _⟩, rest) ← readMany element.decode n rest
    return (values, rest)
  | pair first second, input => do
    let (a, rest) ← first.decode input
    let (b, rest) ← second.decode rest
    return ((a, b), rest)

/-- The value that all of some bytes encode. -/
def Shape.decodeAll (s : Shape) (input : List UInt8) : Except CodecError s.Value := do
  let (v, rest) ← s.decode input
  if rest = [] then return v else throw .invalidValue

end RobotMachine
