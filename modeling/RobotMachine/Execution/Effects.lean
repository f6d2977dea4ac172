import RobotMachine.Execution.Shift
import RobotMachine.Instruction.Basic
import RobotMachine.Machine.Basic
import RobotMachine.Machine.Mailbox

/-!
# What an instruction does

`Machine.execute` gives the effects of an instruction on a machine without changing it: the
registers it writes, the new flags, the next program counter and the bytes it stores.
`Machine.apply` carries them out. All arithmetic wraps at 32 bits.
-/

namespace RobotMachine

/-- The changes that one instruction makes. Of two writes to one register the later one counts. -/
structure Effects where
  registers : List (Register × UInt32) := []
  flags : Option Flags := none
  pc : UInt32
  stores : List Store := []
  halted : Bool := false
  deriving DecidableEq

/-- The word of an integer in two's complement. -/
def Bounded.toWord {lo hi : Int} (v : Bounded lo hi) : UInt32 :=
  UInt32.ofInt v.val

/-- The flags of an addition with a given result. -/
def additionFlags (a b result : UInt32) : Flags where
  n := result.toBitVec.msb
  z := result == 0
  c := result < a
  v := ((a ^^^ result) &&& (b ^^^ result)).toBitVec.msb

/-- The flags of a subtraction with a given result; carry means that nothing was borrowed. -/
def subtractionFlags (a b result : UInt32) : Flags where
  n := result.toBitVec.msb
  z := result == 0
  c := b ≤ a
  v := ((a ^^^ b) &&& (a ^^^ result)).toBitVec.msb

namespace Machine

def reg (m : Machine) (r : Register) : UInt32 := m.registers.get r

def pc (m : Machine) : UInt32 := m.registers.pc

def flags (m : Machine) : Flags := m.registers.flags

/-- The effects of doing nothing but going on to the next word. -/
def goOn (m : Machine) : Effects where
  pc := m.pc + 4

def assign (m : Machine) (rd : Register) (value : UInt32) : Effects :=
  { m.goOn with registers := [(rd, value)] }

def add (m : Machine) (rd : Register) (a b : UInt32) : Effects :=
  { m.assign rd (a + b) with flags := some (additionFlags a b (a + b)) }

def compare (m : Machine) (a b : UInt32) : Effects :=
  { m.goOn with flags := some (subtractionFlags a b (a - b)) }

def subtract (m : Machine) (rd : Register) (a b : UInt32) : Effects :=
  { m.compare a b with registers := [(rd, a - b)] }

/-- Assigns a result that sets the negative and the zero flag only. -/
def assignLogic (m : Machine) (rd : Register) (value : UInt32) : Effects :=
  { m.assign rd value with flags := some (m.flags.withResult value) }

def assignShift (m : Machine) (kind : Shift) (rd : Register) (value amount : UInt32) : Effects :=
  let (result, carry) := kind.apply value amount m.flags.c
  { m.assign rd result with flags := some { m.flags.withResult result with c := carry } }

def loadWord (m : Machine) (rd : Register) (address : UInt32) : Except MemoryFault Effects :=
  (m.memory.readWord address).map (m.assign rd)

def loadByte (m : Machine) (rd : Register) (address : UInt32) : Except MemoryFault Effects :=
  (m.memory.readByte address).map fun b => m.assign rd (UInt32.ofNat b.toNat)

def store (m : Machine) (address : UInt32) (bytes : List UInt8) : Except MemoryFault Effects :=
  (Memory.checkStore address bytes.length).map fun () =>
    { m.goOn with stores := [⟨address, bytes⟩] }

def storeWord (m : Machine) (address value : UInt32) : Except MemoryFault Effects :=
  m.store address (wordBytes value)

def storeByte (m : Machine) (address value : UInt32) : Except MemoryFault Effects :=
  m.store address [UInt8.ofNat value.toNat]

/-- Stores the register below the stack pointer and moves the stack pointer there. The stored
value is the one from before the move, also when the stack pointer itself is pushed. -/
def push (m : Machine) (rd : Register) : Except MemoryFault Effects :=
  let sp := m.reg .sp - 4
  (m.storeWord sp (m.reg rd)).map fun effects => { effects with registers := [(.sp, sp)] }

/-- Moves the stack pointer up and then assigns the word that it pointed to. -/
def pop (m : Machine) (rd : Register) : Except MemoryFault Effects :=
  let sp := m.reg .sp
  (m.memory.readWord sp).map fun value =>
    { m.goOn with registers := [(.sp, sp + 4), (rd, value)] }

def branchIf (m : Machine) (taken : Bool) (target : UInt32) : Effects :=
  if taken then { pc := target } else m.goOn

/-- The effects of an instruction. A load from outside the regions, or a store to outside them or
into the code, has none. -/
def execute (m : Machine) : Instruction → Except MemoryFault Effects
  | ⟨.halt, ()⟩ => .ok { pc := m.pc, halted := true }
  | ⟨.nop, ()⟩ => .ok m.goOn
  | ⟨.movReg, rd, rm, ()⟩ => .ok (m.assign rd (m.reg rm))
  | ⟨.movImm, rd, v, ()⟩ => .ok (m.assign rd (Bounded.toWord v))
  | ⟨.mvnReg, rd, rm, ()⟩ => .ok (m.assign rd (~~~ m.reg rm))
  | ⟨.addReg, rd, rn, rm, ()⟩ => .ok (m.add rd (m.reg rn) (m.reg rm))
  | ⟨.addImm, rd, rn, v, ()⟩ => .ok (m.add rd (m.reg rn) (Bounded.toWord v))
  | ⟨.subReg, rd, rn, rm, ()⟩ => .ok (m.subtract rd (m.reg rn) (m.reg rm))
  | ⟨.subImm, rd, rn, v, ()⟩ => .ok (m.subtract rd (m.reg rn) (Bounded.toWord v))
  | ⟨.mul, rd, rn, rm, ()⟩ => .ok (m.assignLogic rd (m.reg rn * m.reg rm))
  | ⟨.andReg, rd, rn, rm, ()⟩ => .ok (m.assignLogic rd (m.reg rn &&& m.reg rm))
  | ⟨.andImm, rd, rn, v, ()⟩ => .ok (m.assignLogic rd (m.reg rn &&& Bounded.toWord v))
  | ⟨.orrReg, rd, rn, rm, ()⟩ => .ok (m.assignLogic rd (m.reg rn ||| m.reg rm))
  | ⟨.orrImm, rd, rn, v, ()⟩ => .ok (m.assignLogic rd (m.reg rn ||| Bounded.toWord v))
  | ⟨.eorReg, rd, rn, rm, ()⟩ => .ok (m.assignLogic rd (m.reg rn ^^^ m.reg rm))
  | ⟨.eorImm, rd, rn, v, ()⟩ => .ok (m.assignLogic rd (m.reg rn ^^^ Bounded.toWord v))
  | ⟨.lslReg, rd, rn, rm, ()⟩ => .ok (m.assignShift .left rd (m.reg rn) (m.reg rm))
  | ⟨.lslImm, rd, rn, v, ()⟩ => .ok (m.assignShift .left rd (m.reg rn) (Bounded.toWord v))
  | ⟨.lsrReg, rd, rn, rm, ()⟩ => .ok (m.assignShift .right rd (m.reg rn) (m.reg rm))
  | ⟨.lsrImm, rd, rn, v, ()⟩ => .ok (m.assignShift .right rd (m.reg rn) (Bounded.toWord v))
  | ⟨.asrReg, rd, rn, rm, ()⟩ => .ok (m.assignShift .arithmeticRight rd (m.reg rn) (m.reg rm))
  | ⟨.asrImm, rd, rn, v, ()⟩ =>
    .ok (m.assignShift .arithmeticRight rd (m.reg rn) (Bounded.toWord v))
  | ⟨.cmpReg, rn, rm, ()⟩ => .ok (m.compare (m.reg rn) (m.reg rm))
  | ⟨.cmpImm, rn, v, ()⟩ => .ok (m.compare (m.reg rn) (Bounded.toWord v))
  | ⟨.ldrOff, rd, rn, v, ()⟩ => m.loadWord rd (m.reg rn + Bounded.toWord v)
  | ⟨.ldrAbs, rd, a, ()⟩ => m.loadWord rd (Bounded.toWord a)
  | ⟨.strOff, rd, rn, v, ()⟩ => m.storeWord (m.reg rn + Bounded.toWord v) (m.reg rd)
  | ⟨.strAbs, rd, a, ()⟩ => m.storeWord (Bounded.toWord a) (m.reg rd)
  | ⟨.ldrbOff, rd, rn, v, ()⟩ => m.loadByte rd (m.reg rn + Bounded.toWord v)
  | ⟨.ldrbAbs, rd, a, ()⟩ => m.loadByte rd (Bounded.toWord a)
  | ⟨.strbOff, rd, rn, v, ()⟩ => m.storeByte (m.reg rn + Bounded.toWord v) (m.reg rd)
  | ⟨.strbAbs, rd, a, ()⟩ => m.storeByte (Bounded.toWord a) (m.reg rd)
  | ⟨.push, rd, ()⟩ => m.push rd
  | ⟨.pop, rd, ()⟩ => m.pop rd
  | ⟨.b, a, ()⟩ => .ok (m.branchIf true (Bounded.toWord a))
  | ⟨.beq, a, ()⟩ => .ok (m.branchIf m.flags.z (Bounded.toWord a))
  | ⟨.bne, a, ()⟩ => .ok (m.branchIf (!m.flags.z) (Bounded.toWord a))
  | ⟨.blt, a, ()⟩ => .ok (m.branchIf (m.flags.n != m.flags.v) (Bounded.toWord a))
  | ⟨.bge, a, ()⟩ => .ok (m.branchIf (m.flags.n == m.flags.v) (Bounded.toWord a))
  | ⟨.bgt, a, ()⟩ =>
    .ok (m.branchIf (!m.flags.z && m.flags.n == m.flags.v) (Bounded.toWord a))
  | ⟨.ble, a, ()⟩ =>
    .ok (m.branchIf (m.flags.z || m.flags.n != m.flags.v) (Bounded.toWord a))
  | ⟨.blo, a, ()⟩ => .ok (m.branchIf (!m.flags.c) (Bounded.toWord a))
  | ⟨.bhs, a, ()⟩ => .ok (m.branchIf m.flags.c (Bounded.toWord a))
  | ⟨.bl, a, ()⟩ => .ok { pc := Bounded.toWord a, registers := [(.lr, m.pc + 4)] }
  | ⟨.bx, rn, ()⟩ => .ok (m.branchIf true (m.reg rn))
  | ⟨.ret, ()⟩ => .ok (m.branchIf true (m.reg .lr))
  | ⟨.up, ()⟩ => m.storeWord mailboxAddress Command.up.word
  | ⟨.down, ()⟩ => m.storeWord mailboxAddress Command.down.word
  | ⟨.left, ()⟩ => m.storeWord mailboxAddress Command.left.word
  | ⟨.right, ()⟩ => m.storeWord mailboxAddress Command.right.word

/-- The machine after effects: the stores in order, then the registers in order, then the flags
and the program counter. -/
def apply (m : Machine) (effects : Effects) : Machine :=
  let memory := effects.stores.foldl (fun memory s => memory.patch s.address s.bytes) m.memory
  let registers := effects.registers.foldl (fun file (r, value) => file.set r value) m.registers
  { memory, registers := { registers with
      flags := effects.flags.getD registers.flags, pc := effects.pc } }

end Machine

end RobotMachine
