import RobotMachine.Machine.Memory

/-!
# The mailbox

A program moves the robot by storing a word from 1 to 4 at the mailbox address. Memory treats that
store like any other; the commands are read off the stores a program made.
-/

namespace RobotMachine

/-- A movement of the robot. -/
inductive Command
  | up
  | down
  | left
  | right
  deriving DecidableEq, Repr

namespace Command

def all : List Command := [up, down, left, right]

/-- The word that stands for a command in the mailbox. -/
def word : Command → UInt32
  | up => 1
  | down => 2
  | left => 3
  | right => 4

/-- The command that a word stands for. -/
def ofWord? (w : UInt32) : Option Command :=
  all.find? (·.word == w)

def name : Command → String
  | up => "up"
  | down => "down"
  | left => "left"
  | right => "right"

theorem ofWord?_word (c : Command) : ofWord? c.word = some c := by
  cases c <;> rfl

end Command

/-- Bytes that an instruction wrote to memory. -/
structure Store where
  address : UInt32
  bytes : List UInt8
  deriving DecidableEq, Repr

namespace Store

/-- The command that a store gives: it must write a whole word at the mailbox address. -/
def command? (s : Store) : Option Command :=
  if s.address = mailboxAddress ∧ s.bytes.length = wordSize then
    Command.ofWord? (UInt32.ofNat (LittleEndian.number s.bytes))
  else
    none

end Store

/-- The commands that stores give, in the order of the stores. -/
def commandsOf (stores : List Store) : List Command :=
  stores.filterMap Store.command?

end RobotMachine
