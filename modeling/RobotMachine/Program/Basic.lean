import RobotMachine.Machine.Region

/-!
# Programs

What the assembler produces and the emulator loads.
-/

namespace RobotMachine

/-- Code words, the initial contents of the data region, the source line of each code word, and
the symbols with their values in the order of their names. -/
structure Program where
  code : List UInt32 := []
  data : List UInt8 := []
  lines : List UInt32 := []
  symbols : List (String × UInt32) := []
  deriving DecidableEq, Repr

/-- The source line of the code word at an address, in a list with one line for each word. -/
def lineAt (lines : List UInt32) (address : UInt32) : Option Nat :=
  if address < codeBase then none
  else
    let offset := address.toNat - codeBase.toNat
    if offset % wordSize = 0 then (lines[offset / wordSize]?).map (·.toNat) else none

end RobotMachine
