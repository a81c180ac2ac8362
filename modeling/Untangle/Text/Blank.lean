/-
  Untangle.Text.Blank

  Blank characters, and the two cuts made at them: trimming a text at both ends and
  splitting it into words.
-/
import Untangle.Text.Charset

namespace Untangle.Text

/-- The blanks of Unicode 14 (property White_Space) and the four information
    separators U+001C to U+001F. -/
def blanks : Charset :=
  ⟨[(0x9, 0xD), (0x1C, 0x20), (0x85, 0x85), (0xA0, 0xA0), (0x1680, 0x1680), (0x2000, 0x200A),
    (0x2028, 0x2029), (0x202F, 0x202F), (0x205F, 0x205F), (0x3000, 0x3000)]⟩

/-- Whether a character is blank. -/
def isBlank (c : Char) : Bool :=
  blanks.contains c

/-- The characters without the blanks at their end. -/
def trimEndChars (cs : List Char) : List Char :=
  (cs.reverse.dropWhile isBlank).reverse

/-- The characters without the blanks at either end. -/
def trimChars (cs : List Char) : List Char :=
  trimEndChars (cs.dropWhile isBlank)

/-- The text without the blanks at either end. -/
def trim (s : String) : String :=
  String.ofList (trimChars s.toList)

/-- The maximal runs of characters that are no separators, in order, given the run at
    the front in reverse. -/
def piecesFrom (isSeparator : Char → Bool) (current : List Char) : List Char → List (List Char)
  | [] => if current.isEmpty then [] else [current.reverse]
  | c :: rest =>
    if !isSeparator c then piecesFrom isSeparator (c :: current) rest
    else if current.isEmpty then piecesFrom isSeparator [] rest
    else current.reverse :: piecesFrom isSeparator [] rest

/-- The maximal runs of characters that are no separators, in order. -/
def pieces (isSeparator : Char → Bool) (cs : List Char) : List (List Char) :=
  piecesFrom isSeparator [] cs

/-- The words of a text: its maximal runs of characters that are not blank. -/
def words (s : String) : List String :=
  (pieces isBlank s.toList).map String.ofList

end Untangle.Text
