/-!
Lines of a text. A line ends with a line feed, a carriage return, or both in this order; every
other separator is part of a line.
-/

namespace LineScope.Text

/-- The lines of a text; `line` holds the characters of the line under way, last first. A text has
at least one line, and one more than it has terminators. -/
def linesFrom (line : List Char) : List Char → List (List Char)
  | [] => [line.reverse]
  | '\r' :: '\n' :: rest => line.reverse :: linesFrom [] rest
  | '\r' :: rest => line.reverse :: linesFrom [] rest
  | '\n' :: rest => line.reverse :: linesFrom [] rest
  | c :: rest => linesFrom (c :: line) rest

def lines (text : List Char) : List (List Char) := linesFrom [] text

def unifyLineBreaks (text : List Char) : List Char := ['\n'].intercalate (lines text)

end LineScope.Text
