/-
  Untangle.CommandLine.Store

  A store of files as a value, and the host that it makes together with what has been
  printed. The time stands still there.
-/
import Untangle.CommandLine.Host
import Untangle.Entries

namespace Untangle.CommandLine

/-- A place in a store: the names that lead there. -/
abbrev Place := List String

/-- Files by place, and directories that hold none. -/
structure Store where
  files : List (Place × String) := []
  directories : List Place := []

namespace Store

/-- Whether a place is a directory. Every place on the way to a file is one. -/
def isDirectory (s : Store) (p : Place) : Bool :=
  p.isEmpty || s.directories.any (fun d => p.isPrefixOf d)
    || s.files.any fun (f, _) => p.isPrefixOf f && p != f

/-- Whether a place is a file. -/
def isFile (s : Store) (p : Place) : Bool :=
  (s.files.lookup p).isSome

/-- Goes on from a place by names. All but the last must lead into directories. -/
def follow (s : Store) (from_ : Place) : List String → Except FileFault Place
  | [] => .ok from_
  | [name] => .ok (step from_ name)
  | name :: rest =>
    let next := step from_ name
    if s.isDirectory next then follow s next rest
    else if s.isFile next then .error .notDirectory
    else .error .missing
where
  /-- Two points lead one place back. -/
  step (p : Place) (name : String) : Place :=
    if name == ".." then p.dropLast else p ++ [name]

/-- The place that a path leads to. Paths with a root start outside the store. -/
def locate (s : Store) (path : Path) : Except FileFault Place :=
  if path.root.isEmpty then s.follow [] path.names else s.follow [] (path.root :: path.names)

/-- The text of a file. -/
def read (s : Store) (path : Path) : Except FileFault String := do
  let p ← s.locate path
  match s.files.lookup p with
  | some text => return text
  | none => throw (if s.isDirectory p then .isDirectory else .missing)

/-- The store with the text of a file replaced, or with a new file in a directory. -/
def write (s : Store) (path : Path) (text : String) : Except FileFault Store := do
  let p ← s.locate path
  if s.isDirectory p then throw .isDirectory
  return { s with files := Entries.put p text s.files }

/-- The store with a text added at the end of a file. -/
def append (s : Store) (path : Path) (text : String) : Except FileFault Store := do
  let p ← s.locate path
  if s.isDirectory p then throw .isDirectory
  return { s with files := Entries.update p (fun old => old.getD "" ++ text) s.files }

/-- The store with the directories on the way along names, given those already gone. -/
def makeAlong (s : Store) (gone : Place) : List String → Except FileFault Store
  | [] => .ok s
  | name :: rest =>
    let next := follow.step gone name
    if s.isFile next then .error (if rest.isEmpty then .occupied else .notDirectory)
    else
      let made := if s.isDirectory next then s else { s with directories := s.directories ++ [next] }
      makeAlong made next rest

/-- The store with a directory and those above it. -/
def makeDirectory (s : Store) (path : Path) : Except FileFault Store :=
  if path.root.isEmpty then s.makeAlong [] path.names
  else s.makeAlong [] (path.root :: path.names)

/-- The files that differ from those of an earlier store. -/
def changedSince (s old : Store) : List (Place × String) :=
  s.files.filter fun (p, text) => old.files.lookup p != some text

end Store

/-- A store with what has been printed. -/
structure Desktop where
  store : Store
  printed : List String := []
  complaints : List Complaint := []

namespace Desktop

/-- Uses the store that an operation leaves, if it succeeds. -/
def keep (r : Store → Except FileFault Store) : StateM Desktop (Except FileFault Unit) := do
  let d ← get
  match r d.store with
  | .ok store =>
    set { d with store }
    return .ok ()
  | .error f => return .error f

/-- The host on a store. -/
def host (home : Path) (timeOfDay : String) : Host (StateM Desktop) where
  read path := do return (← get).store.read path
  isFile path := do return ((← get).store.read path).isOk
  makeDirectory path := keep fun s => s.makeDirectory path
  write path text := keep fun s => s.write path text
  append path text := keep fun s => s.append path text
  print text := modify fun d => { d with printed := d.printed ++ [text] }
  complain c := modify fun d => { d with complaints := d.complaints ++ [c] }
  clock := pure 0
  timeOfDay := pure timeOfDay
  home := home

end Desktop

end Untangle.CommandLine
