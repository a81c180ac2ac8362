/-
  Untangle.Path

  Paths of files: names with slashes between them. Repeated slashes and single points
  say nothing and are left out.
-/

namespace Untangle

/-- A path: what it starts from (nothing, `/`, or the separate root `//`) and the names
    on the way. -/
structure Path where
  root : String := ""
  names : List String := []
  deriving Repr, DecidableEq

namespace Path

/-- Reads a path. -/
def ofText (s : String) : Path :=
  let slashes := (s.toList.takeWhile (· == '/')).length
  let root := if slashes == 0 then "" else if slashes == 2 then "//" else "/"
  { root, names := (s.splitOn "/").filter fun name => name != "" && name != "." }

/-- The text of a path; a path that goes nowhere is a point. -/
def text (p : Path) : String :=
  let s := p.root ++ String.intercalate "/" p.names
  if s.isEmpty then "." else s

/-- The last name. -/
def name (p : Path) : String := p.names.getLast?.getD ""

/-- Where the ending of a name starts: at its last point, if something stands on both
    sides of it. -/
def pointPlace? (name : String) : Option Nat :=
  let back := name.toList.reverse
  let ending := (back.takeWhile (· != '.')).length
  if ending == back.length || ending == 0 || ending + 1 == back.length then none
  else some (back.length - ending - 1)

/-- The ending of the last name, with its point. -/
def suffix (p : Path) : String :=
  match pointPlace? p.name with
  | some n => String.ofList (p.name.toList.drop n)
  | none => ""

/-- The last name without its ending. -/
def stem (p : Path) : String :=
  match pointPlace? p.name with
  | some n => String.ofList (p.name.toList.take n)
  | none => p.name

/-- The path with another last name. -/
def withName (p : Path) (name : String) : Path :=
  { p with names := p.names.dropLast ++ [name] }

/-- The path that leads one name less far. -/
def parent (p : Path) : Path :=
  { p with names := p.names.dropLast }

/-- A path further on. A path with a root of its own starts anew. -/
def join (p q : Path) : Path :=
  if q.root.isEmpty then { p with names := p.names ++ q.names } else q

end Path

end Untangle
