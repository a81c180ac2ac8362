/-
  Untangle.Arith.Op

  The arithmetic operations of the machine and their names.
-/

namespace Untangle

/-- An arithmetic operation. Those marked `un` read their operands as unsigned, those
    marked `ovf` refuse a result that does not fit. -/
inductive ArithOp where
  | add | sub | mul | div | divUn | rem | remUn
  | and | or | xor | shl | shr | shrUn | neg | not
  | addOvf | subOvf | mulOvf
  deriving Repr, DecidableEq

namespace ArithOp

/-- All operations. -/
def all : List ArithOp :=
  [.add, .sub, .mul, .div, .divUn, .rem, .remUn, .and, .or, .xor, .shl, .shr, .shrUn, .neg, .not,
   .addOvf, .subOvf, .mulOvf]

/-- The name in listings and documents. -/
def name : ArithOp → String
  | .add => "add"
  | .sub => "sub"
  | .mul => "mul"
  | .div => "div"
  | .divUn => "div.un"
  | .rem => "rem"
  | .remUn => "rem.un"
  | .and => "and"
  | .or => "or"
  | .xor => "xor"
  | .shl => "shl"
  | .shr => "shr"
  | .shrUn => "shr.un"
  | .neg => "neg"
  | .not => "not"
  | .addOvf => "add.ovf"
  | .subOvf => "sub.ovf"
  | .mulOvf => "mul.ovf"

/-- The operation of a name. -/
def ofName? (s : String) : Option ArithOp :=
  all.find? fun op => op.name == s

/-- How many operands the operation takes. -/
def arity : ArithOp → Nat
  | .neg | .not => 1
  | _ => 2

/-- Whether the operation refuses a result that does not fit. -/
def checked : ArithOp → Bool
  | .addOvf | .subOvf | .mulOvf => true
  | _ => false

end ArithOp

end Untangle
