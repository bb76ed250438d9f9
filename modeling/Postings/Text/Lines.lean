/-
The lines of a text.

A line ends at a line feed, and a carriage return before that belongs to the
line's end.  Nothing after the last line feed is no line.

* `lines` — the lines, without their ends.
-/

namespace Postings.Text

/-- A line without a carriage return at its end. -/
def dropReturn (line : String) : String :=
  if line.endsWith "\r" then (line.dropEnd 1).toString else line

/-- The finished lines of a text, and the line under way, after one more character. -/
def addToLines (lines : Array String × String) (c : Char) : Array String × String :=
  if c = '\n' then (lines.1.push (dropReturn lines.2), "") else (lines.1, lines.2.push c)

/-- The lines of a text. -/
def lines (text : String) : List String :=
  let (done, last) := text.toList.foldl addToLines (#[], "")
  (if last.isEmpty then done else done.push last).toList

end Postings.Text
