import RobotMachine.Assembly.Emission
import RobotMachine.Text.Lines

/-!
# The assembler

`assemble` lays a source out line by line and then encodes it. It reports the first error that it
finds, and no part of a program then.
-/

namespace RobotMachine

/-- The program that a source text describes. -/
def assemble (source : String) : Except AssemblyError Program := do
  let layout ← Layout.ofLines (linesOf source.toList)
  layout.emit

end RobotMachine
