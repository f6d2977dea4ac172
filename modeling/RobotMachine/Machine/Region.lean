/-!
# The memory map

Three regions of the same size lie apart in the 32-bit address space: the code, the stack and the
data. The first word of the data region is the mailbox through which a program commands the robot.
-/

namespace RobotMachine

/-- Bytes in a machine word. -/
abbrev wordSize : Nat := 4

/-- Words in one region. -/
abbrev regionWords : Nat := 1024

/-- Bytes in one region. -/
abbrev regionSize : Nat := 4096

/-- One of the three parts of memory. -/
inductive Region
  | code
  | stack
  | data
  deriving DecidableEq, Repr

namespace Region

/-- The regions in the order of their addresses. -/
def all : List Region := [code, stack, data]

/-- The address of a region's first byte. -/
def base : Region → UInt32
  | code => 0x10000
  | stack => 0x20000
  | data => 0x30000

/-- Whether instructions may store into a region. -/
def writable : Region → Bool
  | code => false
  | stack | data => true

def name : Region → String
  | code => "code"
  | stack => "stack"
  | data => "data"

theorem mem_all (r : Region) : r ∈ all := by
  cases r <;> decide

end Region

/-- Where loaded code starts. -/
abbrev codeBase : UInt32 := Region.code.base

/-- Where the data image is loaded. -/
abbrev dataBase : UInt32 := Region.data.base

/-- The initial stack pointer: one past the end of the stack, which grows downwards. -/
abbrev stackTop : UInt32 := 0x21000

/-- The address of the mailbox word. -/
abbrev mailboxAddress : UInt32 := Region.data.base

end RobotMachine
