/-
  Untangle.Listing.Line

  The lines of a listing. A line is a directive (`.method`, `.locals`, `.try`) or an
  instruction with labels in front of it. A comment starts at `//` outside quotation
  marks and runs to the end of the line.
-/
import Untangle.Text.Blank
import Untangle.Text.Word

namespace Untangle.Listing

open Untangle.Text

/-- What a line of a listing says. -/
inductive Line where
  | blank
  | method (name : String)
  | locals (names : List String)
  | guarded (fields : List String)
  /-- Labels and the instruction after them, which may be on a later line. -/
  | code (labels : List String) (instruction : String)

/-- The characters of a line before its comment. -/
def uncommented (inText : Bool) : List Char → List Char
  | [] => []
  | '"' :: rest => '"' :: uncommented (!inText) rest
  | '/' :: '/' :: rest => if inText then '/' :: '/' :: uncommented inText rest else []
  | c :: rest => c :: uncommented inText rest

/-- Whether a character can stand at the front of a label. -/
def startsLabel (c : Char) : Bool :=
  c.isAlpha || c == '_'

/-- Whether a character can stand inside a label. -/
def continuesLabel (c : Char) : Bool :=
  isWordChar c || c == '.' || c == '$'

/-- The label at the front, and what follows its colon. -/
def splitLabel? (cs : List Char) : Option (String × List Char) :=
  match cs, cs.dropWhile continuesLabel with
  | c :: _, ':' :: rest =>
    if startsLabel c then some (String.ofList (cs.takeWhile continuesLabel), trimChars rest)
    else none
  | _, _ => none

theorem length_dropWhile_le {α : Type} (p : α → Bool) (xs : List α) :
    (xs.dropWhile p).length ≤ xs.length :=
  (List.dropWhile_sublist p).length_le

theorem length_trimChars_le (cs : List Char) : (trimChars cs).length ≤ cs.length := by
  have h1 := length_dropWhile_le isBlank cs
  have h2 := length_dropWhile_le isBlank (cs.dropWhile isBlank).reverse
  simp only [trimChars, trimEndChars, List.length_reverse] at *
  omega

/-- Taking a label off makes a line shorter. -/
theorem length_of_splitLabel? {cs rest : List Char} {label : String}
    (h : splitLabel? cs = some (label, rest)) : rest.length < cs.length := by
  unfold splitLabel? at h
  split at h
  · rename_i c tail more heq
    split at h
    · simp only [Option.some.injEq, Prod.mk.injEq] at h
      have h1 := length_dropWhile_le continuesLabel (c :: tail)
      have h2 := length_trimChars_le more
      rw [heq] at h1
      rw [← h.2]
      simp only [List.length_cons] at *
      omega
    · simp at h
  · simp at h

/-- The labels at the front, and what follows them. -/
def splitLabels (cs : List Char) : List String × List Char :=
  match _h : splitLabel? cs with
  | some (label, rest) =>
    let (labels, last) := splitLabels rest
    (label :: labels, last)
  | none => ([], cs)
  termination_by cs.length
  decreasing_by exact length_of_splitLabel? (by assumption)

/-- What follows a word at the front of the characters. -/
def afterWord? (word : String) (cs : List Char) : Option (List Char) :=
  if word.toList.isPrefixOf cs then some (cs.drop word.length) else none

/-- Reads a line. -/
def Line.read (text : String) : Line :=
  let cs := trimChars (uncommented false text.toList)
  if cs.isEmpty then .blank
  else
    match afterWord? ".method" cs, afterWord? ".locals" cs, afterWord? ".try" cs with
    | some rest, _, _ => .method (String.ofList (trimChars rest))
    | none, some rest, _ => .locals (words (String.ofList rest))
    | none, none, some rest => .guarded (words (String.ofList rest))
    | none, none, none =>
      let (labels, rest) := splitLabels cs
      .code labels (String.ofList rest)

end Untangle.Listing
