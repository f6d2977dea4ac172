/-!
# Log levels

A message is written when its level is at least the minimum level.
-/

namespace RobotMachine

inductive Level
  | debug
  | info
  | warn
  | error
  deriving DecidableEq, Repr

namespace Level

def all : List Level := [debug, info, warn, error]

/-- The place of a level in the order from the least to the most severe. -/
def severity : Level → Nat
  | debug => 0
  | info => 1
  | warn => 2
  | error => 3

def name : Level → String
  | debug => "DEBUG"
  | info => "INFO"
  | warn => "WARN"
  | error => "ERROR"

/-- Whether messages of a level are written under a minimum level. -/
def isEnabled (level minimum : Level) : Bool :=
  minimum.severity ≤ level.severity

/-- The level that a text names, in any mix of upper and lower case. `warning` is another name for
`warn`. -/
def ofName? (text : String) : Option Level :=
  let upper := text.map Char.toUpper
  if upper = "WARNING" then some warn else all.find? (·.name == upper)

/-- What is said about a text that names no level. -/
def unknownMessage (text : String) : String :=
  "unknown log level '" ++ text.map Char.toLower ++ "'"

end Level

end RobotMachine
