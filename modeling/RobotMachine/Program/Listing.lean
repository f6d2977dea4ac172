import RobotMachine.Instruction.Disassembly
import RobotMachine.Program.Basic
import RobotMachine.Text.Blank
import RobotMachine.Text.Lines

/-!
# Listings

A listing shows each code word with its address, its disassembly and its source line, and the
symbols below.
-/

namespace RobotMachine

/-- The text of a word: the instruction that it is, or the word itself. -/
def wordText (w : UInt32) : String :=
  match Instruction.decode w with
  | .ok i => i.text
  | .error _ => ".word " ++ wordHex w

namespace Program

/-- The value of a symbol; of several entries with one name the last counts. -/
def symbol? (p : Program) (name : String) : Option UInt32 :=
  p.symbols.reverse.lookup name

/-- The line that a code word has in the program; 0 if it has none. -/
def lineOf (p : Program) (index : Nat) : Nat :=
  (p.lines[index]?.map UInt32.toNat).getD 0

/-- One line of a listing: the code word with an index, beside its source line if there is one. -/
def listingLine (p : Program) (source : List (List Char)) (index : Nat) (w : UInt32) : String :=
  let line := p.lineOf index
  let text := if line = 0 then none else source[line - 1]?
  wordHex (codeBase + UInt32.ofNat (index * wordSize)) ++ "  " ++
    padLeft 8 '0' (hexDigits w.toNat) ++ "  " ++ padRight 24 (wordText w) ++ "; " ++
    padLeft 4 ' ' (toString line) ++
    (text.elim "" fun t => " | " ++ String.ofList (trimBlanks t)) ++ "\n"

/-- The symbols below a listing. -/
def symbolListing (p : Program) : String :=
  if p.symbols.isEmpty then ""
  else
    "\nsymbols:\n" ++ String.join (p.symbols.map fun (name, v) =>
      "  " ++ wordHex v ++ "  " ++ name ++ "\n")

/-- The listing of a program, with the source text beside it if it is given. -/
def listing (p : Program) (source : Option String) : String :=
  let lines := source.elim [] fun s => linesOf s.toList
  String.join (p.code.mapIdx (p.listingLine lines)) ++ p.symbolListing

end Program

end RobotMachine
