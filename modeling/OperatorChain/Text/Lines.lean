/-!
# Lines

A line feed ends a line, with or without a carriage return before it.  What stands behind the last
line feed is a line, too, unless there is nothing.

* `lines` — the lines of a text, without their line ends.
-/

namespace OperatorChain

/-- A line without the carriage return that it ends with, if there is one. -/
def dropReturn (line : List Char) : List Char :=
  if line.getLast? = some '\r' then line.dropLast else line

/-- The lines of a text, without their line ends.  A carriage return at the very end of the text has
no line feed behind it and stays. -/
def lines (text : List Char) : List (List Char) :=
  let pieces := text.splitOn '\n'
  let finished := pieces.dropLast.map dropReturn
  let unfinished := pieces.getLastD []
  if unfinished.isEmpty then finished else finished ++ [unfinished]

end OperatorChain
