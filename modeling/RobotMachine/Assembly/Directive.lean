/-!
# Directives

The words after a dot that steer the assembler: they choose a section, define symbols and allocate
data.
-/

namespace RobotMachine

/-- The two sections that a source fills. -/
inductive Section
  | text
  | data
  deriving DecidableEq, Repr

inductive Directive
  | text | data
  | global | globl
  | equ | set
  | word | byte | space | skip | ascii | asciz | string
  | align
  deriving DecidableEq, Repr

namespace Directive

def all : List Directive :=
  [text, data, global, globl, equ, set, word, byte, space, skip, ascii, asciz, string, align]

def name : Directive → String
  | text => ".text"
  | data => ".data"
  | global => ".global"
  | globl => ".globl"
  | equ => ".equ"
  | set => ".set"
  | word => ".word"
  | byte => ".byte"
  | space => ".space"
  | skip => ".skip"
  | ascii => ".ascii"
  | asciz => ".asciz"
  | string => ".string"
  | align => ".align"

/-- The directive that a text names, in any mix of upper and lower case. -/
def ofName? (text : List Char) : Option Directive :=
  all.find? fun d => d.name.toList == text.map Char.toLower

/-- Whether a directive takes up room in the data section, be it none. -/
def allocates : Directive → Bool
  | word | byte | space | skip | ascii | asciz | string => true
  | text | data | global | globl | equ | set | align => false

theorem mem_all (d : Directive) : d ∈ all := by
  cases d <;> decide

end Directive

end RobotMachine
