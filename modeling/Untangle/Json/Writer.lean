/-
  Untangle.Json.Writer

  Writing a value as JSON in ASCII. Other characters are written as code units of
  UTF-16; doubles in their shortest text. A layout is compact, or has each item on a
  line of its own.
-/
import Untangle.Number.Shortest
import Untangle.Text.Quoted
import Untangle.Value.Basic

namespace Untangle.Json

/-- A code unit as an escape. -/
def unitEscape (n : Nat) : List Char :=
  '\\' :: 'u' :: Text.hexDigits 4 n

/-- A character inside a string. -/
def escapeChar (c : Char) : List Char :=
  let n := c.toNat
  if c == '"' || c == '\\' then ['\\', c]
  else if c == '\n' then ['\\', 'n']
  else if c == '\r' then ['\\', 'r']
  else if c == '\t' then ['\\', 't']
  else if n == 8 then ['\\', 'b']
  else if n == 12 then ['\\', 'f']
  else if 0x20 ≤ n && n ≤ 0x7E then [c]
  else if n < 0x10000 then unitEscape n
  else unitEscape (0xD800 + (n - 0x10000) / 1024) ++ unitEscape (0xDC00 + (n - 0x10000) % 1024)

/-- A string between quotation marks. -/
def stringText (s : String) : String :=
  String.ofList ('"' :: s.toList.flatMap escapeChar ++ ['"'])

/-- How items are set apart. -/
structure Spacing where
  /-- Blanks before an item per level of nesting; without it all is on one line. -/
  indent : Option Nat
  afterColon : String

/-- All on one line, without blanks. -/
def Spacing.compact : Spacing := ⟨none, ""⟩

/-- Each item on a line of its own, two blanks further in than what holds it. -/
def Spacing.indented : Spacing := ⟨some 2, " "⟩

/-- The break before an item (or a closing bracket) at a level of nesting. -/
def Spacing.newline (sp : Spacing) (level : Nat) : String :=
  match sp.indent with
  | some n => String.ofList ('\n' :: List.replicate (n * level) ' ')
  | none => ""

/-- Items between brackets. -/
def bracketed (sp : Spacing) (level : Nat) (opening closing : String) (texts : List String) :
    String :=
  if texts.isEmpty then opening ++ closing
  else
    opening ++ sp.newline (level + 1)
      ++ String.intercalate ("," ++ sp.newline (level + 1)) texts
      ++ sp.newline level ++ closing

mutual

/-- A value at a level of nesting. -/
def textAt (sp : Spacing) (level : Nat) : Value → String
  | .null => "null"
  | .bool b => if b then "true" else "false"
  | .int n => toString n
  | .float x => Number.Layout.document.text x
  | .notANumber _ => Number.Layout.document.notANumber
  | .str s => stringText s
  | .list items => bracketed sp level "[" "]" (itemTexts sp (level + 1) items)
  | .tuple items => bracketed sp level "[" "]" (itemTexts sp (level + 1) items)
  | .dict entries => bracketed sp level "\x7b" "\x7d" (entryTexts sp (level + 1) entries)

/-- The items of an array. -/
def itemTexts (sp : Spacing) (level : Nat) : List Value → List String
  | [] => []
  | v :: rest => textAt sp level v :: itemTexts sp level rest

/-- The entries of an object. -/
def entryTexts (sp : Spacing) (level : Nat) : List (String × Value) → List String
  | [] => []
  | (k, v) :: rest =>
    (stringText k ++ ":" ++ sp.afterColon ++ textAt sp level v) :: entryTexts sp level rest

end

/-- A value on one line. -/
def compact (v : Value) : String :=
  textAt .compact 0 v

/-- A value over as many lines as it has items. -/
def indented (v : Value) : String :=
  textAt .indented 0 v

end Untangle.Json
