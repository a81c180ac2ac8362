/-
  Untangle.Registry.Basic

  A registry of stages and analyses by name. What is registered forms families: a member
  that stands directly below the base is the head of a family, and keeps a table of the
  members below it by key. A member enters the tables of the heads that it reaches
  through members that are no heads themselves.
-/
import Untangle.Entries
import Untangle.Registry.Lineage
import Untangle.Text.Lower
import Untangle.Value.Basic

namespace Untangle

/-- A member of a registry. Members are known by their numbers, in the order in which
    they were defined. -/
structure Member where
  name : String
  parents : List Nat
  /-- The key that the member states for itself and for those below it. -/
  statedKey : Option Value := none
  /-- The member and its ancestors in the order in which they are asked. -/
  lineage : List Nat
  /-- The heads of the families that the member belongs to. -/
  families : List Nat := []
  /-- Its own methods, and whether each is only demanded. -/
  methods : List (String × Bool) := []
  /-- The methods that are demanded of it and not given. -/
  missing : List String := []
  deriving Inhabited

/-- The members by number, what their names mean now, and the tables of those that keep
    one. -/
structure Registry where
  members : List Member
  named : List (String × Nat)
  tables : List (Nat × List (String × Nat))

namespace Registry

/-- The number of the base. -/
def base : Nat := 0

/-- The name of the base. A member of this name keeps no table. -/
def baseName : String := "Registrant"

/-- The registry that holds nothing but the base. -/
def initial : Registry :=
  { members := [{ name := baseName, parents := [], lineage := [base] }]
    named := [(baseName, base)]
    tables := [(base, [])] }

/-- The registry that goes on from another one: names mean nothing any more besides that
    of the base, and of the tables only that of the base is left. -/
def renewed (r : Registry) : Registry :=
  { r with
    named := [(baseName, base)]
    tables := r.tables.filter fun (n, _) => n == base }

/-- The member that a name means: of those with the name, the one defined last. -/
def find? (r : Registry) (name : String) : Option Nat :=
  r.named.lookup name

/-- The name that means a member. There is none if another member has taken it over. -/
def calledName (r : Registry) (n : Nat) : Except Misuse String :=
  match r.named.find? fun (_, m) => m == n with
  | some (name, _) => .ok name
  | none => .error .notFound

/-- The name that a member was given. -/
def nameOf (r : Registry) (n : Nat) : String :=
  ((r.members[n]?).map (·.name)).getD ""

/-- The lineage of a member. -/
def lineage (r : Registry) (n : Nat) : List Nat :=
  ((r.members[n]?).map (·.lineage)).getD []

/-- What the first in a lineage that answers says. -/
def ask {α : Type} (r : Registry) (lineage : List Nat) (answer : Member → Option α) : Option α :=
  lineage.findSome? fun n => (r.members[n]?).bind answer

/-- Whether a member is the head of a family: it stands directly below the base. -/
def isHead (r : Registry) (n : Nat) : Bool :=
  (r.members[n]?).any fun m => m.parents.contains base

/-- The heads that are reached from parents through members that are no heads. -/
def familiesOf (r : Registry) (parents : List Nat) : List Nat :=
  parents.flatMap fun p =>
    if r.isHead p then [p] else ((r.members[p]?).map (·.families)).getD []

/-! ## Keys -/

/-- The key as tables hold it. Only a text can be one. -/
def normalizeKey (key : Value) : Except Misuse String :=
  match key with
  | .str s => .ok (Text.lower s)
  | _ => .error .noSuchPart

/-- The key of a member: the one stated by the first in its lineage that states one, or
    its own name. -/
def keyOf (r : Registry) (n : Nat) : Value :=
  (r.ask (r.lineage n) (·.statedKey)).getD (.str (r.nameOf n))

/-! ## Tables -/

/-- The member whose table a member uses: the first in its lineage that keeps one. -/
def tableOwner? (r : Registry) (n : Nat) : Option Nat :=
  (r.lineage n).find? fun a => (r.tables.lookup a).isSome

/-- The table that a member uses, if it stands below the base. -/
def table? (r : Registry) (n : Nat) : Option (List (String × Nat)) :=
  (r.tableOwner? n).bind fun owner => r.tables.lookup owner

/-- Enters a member into the table that another one uses. A member does not enter its
    own table. -/
def register (r : Registry) (n alt : Nat) : Except Misuse Registry :=
  match r.tableOwner? n with
  | none => .ok r
  | some owner =>
    if alt == n && owner == n then .ok r
    else do
      let key ← normalizeKey (r.keyOf alt)
      let enter (table : Option (List (String × Nat))) := Entries.put key alt (table.getD [])
      return { r with tables := Entries.update owner enter r.tables }

/-- The member under a key in the table that another one uses. -/
def get (r : Registry) (n : Nat) (key : Value) : Except Misuse Nat := do
  let key ← normalizeKey key
  match (r.table? n).bind fun table => table.lookup key with
  | some m => return m
  | none => throw .noSuchKey

/-- The members in a table that have all the methods demanded of them. -/
def complete (r : Registry) (table : List (String × Nat)) : List Nat :=
  (table.map (·.2)).filter fun n => (r.members[n]?).all fun m => m.missing.isEmpty

/-! ## Definitions -/

/-- The methods that are demanded of a member and not given. -/
def missingOf (r : Registry) (parents lineage : List Nat) (methods : List (String × Bool)) :
    List String :=
  let inherited := parents.flatMap fun p => ((r.members[p]?).map (·.missing)).getD []
  let demanded (name : String) : Bool :=
    ((methods.lookup name).or (r.ask lineage fun m => m.methods.lookup name)).getD false
  (methods.filterMap fun (name, only) => if only then some name else none)
    ++ inherited.filter demanded

/-- Defines a member below others and enters it into the tables of its families. There
    is none if its ancestors cannot be put in order, or if a family cannot take its
    key. -/
def define (r : Registry) (name : String) (parents : List Nat) (statedKey : Option Value)
    (methods : List (String × Bool)) : Except Misuse Registry := do
  let n := r.members.length
  match Lineage.merge? (parents.map r.lineage ++ [parents]) with
  | none => throw .notComparable
  | some above =>
    let families := r.familiesOf parents
    let missing := r.missingOf parents above methods
    let member : Member :=
      { name, parents, statedKey, lineage := n :: above, families, methods, missing }
    let known : Registry :=
      { r with members := r.members ++ [member], named := Entries.put name n r.named }
    let entered ← families.foldlM (fun r head => r.register head n) known
    if parents.contains base && name != baseName then
      return { entered with tables := entered.tables ++ [(n, [])] }
    else return entered

end Registry

end Untangle
