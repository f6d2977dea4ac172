/-!
# Lines of a text

A line ends at a line feed. One carriage return directly before the line feed belongs to the line
end; any other carriage return is part of the line. A line feed at the very end of the text does
not open another line.
-/

namespace RobotMachine

/-- A line without the carriage return that belongs to its line end. -/
def dropCarriageReturn (line : List Char) : List Char :=
  if line.getLast? = some '\r' then line.dropLast else line

/-- The lines of a text, given the pieces between its line feeds: each piece but the last is a
whole line, and the last one is a line unless it is empty. -/
def linesOfPieces : List (List Char) → List (List Char)
  | [] => []
  | [last] => if last = [] then [] else [last]
  | piece :: pieces => dropCarriageReturn piece :: linesOfPieces pieces

/-- The lines of a text, without their line ends. -/
def linesOf (text : List Char) : List (List Char) :=
  linesOfPieces (text.splitOn '\n')

end RobotMachine
