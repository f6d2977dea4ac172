import RobotMachine.Text.Column

/-!
# Registers

Fifteen general registers, of which the last two are the stack pointer and the link register, a
program counter and four condition flags.

* `RegisterFile.get_set_self`, `RegisterFile.get_set_of_ne`: setting a register changes that one.
-/

namespace RobotMachine

/-- A general register, `R0` to `R14`. -/
structure Register where
  index : Fin 15
  deriving DecidableEq, Repr

namespace Register

/-- The stack pointer. -/
def sp : Register := ⟨13⟩

/-- The link register, which holds the return address of a call. -/
def lr : Register := ⟨14⟩

/-- The registers in the order of their indices. -/
def all : List Register := (List.finRange 15).map Register.mk

/-- The register with a given index, if there is one. -/
def ofNat? (n : Nat) : Option Register :=
  if h : n < 15 then some ⟨⟨n, h⟩⟩ else none

/-- `R` and the index. -/
def numberedName (r : Register) : String := "R" ++ toString r.index.val

/-- The name a register is shown with: `SP`, `LR`, or `R` and the index. -/
def name (r : Register) : String :=
  if r = sp then "SP" else if r = lr then "LR" else r.numberedName

/-- Whether a text names a register, in any mix of upper and lower case. The stack pointer and the
link register answer to their numbers too. -/
def isNamed (r : Register) (text : List Char) : Bool :=
  let upper := text.map Char.toUpper
  upper == r.name.toList || upper == r.numberedName.toList

/-- The register that a text names. -/
def ofName? (text : List Char) : Option Register :=
  all.find? (·.isNamed text)

theorem mem_all (r : Register) : r ∈ all :=
  List.mem_map.mpr ⟨r.index, List.mem_finRange _, rfl⟩

end Register

/-- The condition flags: negative, zero, carry and overflow. -/
structure Flags where
  n : Bool := false
  z : Bool := false
  c : Bool := false
  v : Bool := false
  deriving DecidableEq, Repr

namespace Flags

/-- A flag's letter when it is set, and a dash when it is clear. -/
def letter (isSet : Bool) (c : Char) : Char :=
  if isSet then c else '-'

/-- The flags with negative and zero taken from a result, and carry and overflow kept. -/
def withResult (flags : Flags) (result : UInt32) : Flags :=
  { flags with n := result.toBitVec.msb, z := result == 0 }

/-- The four letters `NZCV`, with a dash for each clear flag. -/
def text (flags : Flags) : String :=
  String.ofList [letter flags.n 'N', letter flags.z 'Z', letter flags.c 'C', letter flags.v 'V']

end Flags

/-- The contents of all registers. -/
structure RegisterFile where
  values : Vector UInt32 15 := Vector.replicate 15 0
  pc : UInt32 := 0
  flags : Flags := {}
  deriving DecidableEq, Repr

namespace RegisterFile

def get (file : RegisterFile) (r : Register) : UInt32 :=
  file.values[r.index]

def set (file : RegisterFile) (r : Register) (value : UInt32) : RegisterFile :=
  { file with values := file.values.set r.index value }

/-- One register as it is shown: its name in three columns and its value. -/
def entry (file : RegisterFile) (r : Register) : String :=
  padLeft 3 ' ' r.name ++ "=" ++ wordHex (file.get r)

/-- Four registers to a line, and the program counter and the flags on the last line. -/
def text (file : RegisterFile) : String :=
  let entries := Register.all.map fun r =>
    file.entry r ++ if r.index.val % 4 = 3 then "\n" else "  "
  String.join entries ++ " PC=" ++ wordHex file.pc ++ "  NZCV=" ++ file.flags.text

@[simp]
theorem get_set_self (file : RegisterFile) (r : Register) (value : UInt32) :
    (file.set r value).get r = value := by
  simp [get, set]

theorem get_set_of_ne (file : RegisterFile) {r s : Register} (h : s ≠ r) (value : UInt32) :
    (file.set r value).get s = file.get s := by
  have : r.index.val ≠ s.index.val := fun e => h (by cases r; cases s; simp_all [Fin.ext_iff])
  simp [get, set, Vector.getElem_set_ne, this]

@[simp]
theorem pc_set (file : RegisterFile) (r : Register) (value : UInt32) :
    (file.set r value).pc = file.pc := rfl

@[simp]
theorem flags_set (file : RegisterFile) (r : Register) (value : UInt32) :
    (file.set r value).flags = file.flags := rfl

end RegisterFile

end RobotMachine
