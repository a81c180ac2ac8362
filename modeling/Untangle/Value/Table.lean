/-
  Untangle.Value.Table

  Tables whose keys are values. A dictionary gives one, and so does a list of pairs; an
  object has the names of the keys.
-/
import Untangle.Entries
import Untangle.Number.Shortest
import Untangle.Value.Order

namespace Untangle

/-- A table with values as keys, in the order in which they first came up. -/
abbrev Table := List (Value × Value)

namespace Table

/-- The table of a dictionary with text as keys. -/
def ofEntries (entries : List (String × Value)) : Table :=
  entries.map fun (key, v) => (.str key, v)

/-- The table with what a pair of a key and a value puts there. -/
def putPair (table : Table) (pair : Value) : Except Misuse Table := do
  match ← pair.items with
  | [key, v] => return Entries.put (← key.asKey) v table
  | _ => throw .wrongCount

/-- The table that a value makes: a dictionary, or a list of pairs. -/
def ofValue (v : Value) : Except Misuse Table :=
  match v with
  | .dict entries => .ok (ofEntries entries)
  | v => do (← v.items).foldlM putPair []

/-- The value under a name. -/
def get? (table : Table) (name : String) : Option Value :=
  table.lookup (.str name)

/-- The keys. -/
def keys (table : Table) : List Value :=
  table.map (·.1)

/-- The keys that are not among some names. -/
def keysBeyond (table : Table) (names : List String) : List Value :=
  table.keys.filter fun key => !names.any fun name => key == .str name

/-- The table with all entries of another put into it. -/
def updated (table other : Table) : Table :=
  other.foldl (fun table (key, v) => Entries.put key v table) table

/-- Whether every entry of a table is also in another one. -/
def within (table other : Table) : Bool :=
  table.all fun (key, v) => other.lookup key == some v

/-- Whether two tables have the same entries. -/
def same (a b : Table) : Bool :=
  a.length == b.length && a.within b

/-- The name of a key in an object. -/
def keyName : Value → String
  | .str s => s
  | .null => "null"
  | .bool b => if b then "true" else "false"
  | .float x => Number.Layout.document.text x
  | .notANumber _ => Number.Layout.document.notANumber
  | v => v.display

/-- The object of a table. -/
def toObject (table : Table) : Value :=
  .dict (table.map fun (key, v) => (keyName key, v))

end Table

end Untangle
