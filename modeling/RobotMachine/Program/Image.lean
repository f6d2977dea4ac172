import RobotMachine.Bytes.Codec
import RobotMachine.Program.Basic

/-!
# Program images

A program is saved behind a magic number and a format version. An image is read only if nothing
follows the program, the program fits its memory regions, and it has one line for each code word.

* `Program.toImage`, `Program.ofImage`: between programs and images.
-/

namespace RobotMachine

/-- The six bytes at the start of every image. -/
def imageMagic : List UInt8 := "ASMBOT".toUTF8.data.toList

/-- The format version: major, minor and patch number. -/
def imageVersion : List UInt8 := [0, 1, 0]

/-- How a program is encoded: its code, data, lines and symbols, each as a list. -/
abbrev programShape : Shape :=
  .pair (.list .uint32) (.pair (.list .uint8) (.pair (.list .uint32)
    (.list (.pair .string .uint32))))

/-- Why bytes are not the image of a program. -/
inductive ImageError
  | truncated
  | badMagic
  | unsupportedVersion
  | trailingBytes
  | exceedsRegion
  | lineMapMismatch
  | codec (error : CodecError)
  deriving DecidableEq, Repr

def ImageError.reason : ImageError → String
  | .truncated => "truncated"
  | .badMagic => "bad magic"
  | .unsupportedVersion => "unsupported version"
  | .trailingBytes => "trailing bytes"
  | .exceedsRegion => "program exceeds its memory region"
  | .lineMapMismatch => "line map does not match code length"
  | .codec error => error.message

def ImageError.message (e : ImageError) : String :=
  "invalid program image: " ++ e.reason

namespace Program

/-- The parts of a program in the order in which they are encoded. -/
def parts (p : Program) : programShape.Value :=
  (p.code, p.data, p.lines, p.symbols)

/-- The program with given parts. -/
def ofParts : programShape.Value → Program
  | (code, data, lines, symbols) => { code, data, lines, symbols }

/-- The image of a program. -/
def toImage (p : Program) : List UInt8 :=
  imageMagic ++ imageVersion ++ programShape.encode p.parts

/-- The program behind the magic number and the version of an image. -/
def ofBody (input : List UInt8) : Except ImageError Program := do
  let (parts, rest) ← (programShape.decode input).mapError .codec
  let p := ofParts parts
  if rest ≠ [] then throw .trailingBytes
  else if p.code.length > regionWords ∨ p.data.length > regionSize then throw .exceedsRegion
  else if p.lines.length ≠ p.code.length then throw .lineMapMismatch
  else return p

/-- The program of an image. -/
def ofImage (input : List UInt8) : Except ImageError Program := do
  if (input.take 6).length < 6 then throw .truncated
  let (magic, rest) ← (readBytes 6 input).mapError .codec
  if magic ≠ imageMagic then throw .badMagic
  let (version, rest) ← (readBytes 3 rest).mapError .codec
  if version ≠ imageVersion then throw .unsupportedVersion
  ofBody rest

end Program

end RobotMachine
