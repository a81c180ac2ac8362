/-
  Untangle.Text.Lines

  The lines of a text. A carriage return with the line feed after it is one break; a
  break at the end of the text opens no further line.
-/

namespace Untangle.Text

/-- Whether a character ends a line: the controls U+000A to U+000D and U+001C to
    U+001E, the next-line control, and the line and paragraph separators. -/
def isLineBreak (c : Char) : Bool :=
  let n := c.toNat
  (0xA ≤ n && n ≤ 0xD) || (0x1C ≤ n && n ≤ 0x1E) || n == 0x85 || n == 0x2028 || n == 0x2029

/-- The lines of a text, given the characters of the current line in reverse. -/
def linesFrom (current : List Char) : List Char → List (List Char)
  | [] => if current.isEmpty then [] else [current.reverse]
  | '\r' :: '\n' :: rest => current.reverse :: linesFrom [] rest
  | c :: rest =>
    if isLineBreak c then current.reverse :: linesFrom [] rest else linesFrom (c :: current) rest

/-- The lines of a text, without their breaks. -/
def lines (s : String) : List String :=
  (linesFrom [] s.toList).map String.ofList

end Untangle.Text
