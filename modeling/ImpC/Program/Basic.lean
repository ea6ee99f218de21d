import ImpC.Operation
import ImpC.Number

/-!
Resolved programs: every use of a name refers to an entry of the table of variables or to nothing,
every block has the number of its scope, and literals have values.

The types of expressions. Nothing is checked: an operation that has no evident type for its operands
has the type `unknown`, and so has every call.
-/

namespace ImpC

/-- An entry of the table of variables. -/
structure Variable where
  name : Text
  type : Ty
  scope : Nat
  order : Nat
  location : Location

/-- A use of a name, and the variable it refers to. -/
structure Reference where
  name : Text
  referent : Option Nat
  deriving DecidableEq

inductive Literal where
  | int (value : Int32)
  | float (value : Double)
  | bool (value : Bool)
  | str (value : Text)
  deriving DecidableEq

inductive Expr where
  | literal (location : Location) (value : Literal)
  | reference (location : Location) (target : Reference)
  | unary (location : Location) (op : UnaryOp) (operand : Expr)
  | binary (location : Location) (op : BinaryOp) (left right : Expr)
  | call (location : Location) (function : Text) (arguments : List Expr)

structure Assignment where
  target : Located Reference
  value : Expr

mutual

inductive Statement where
  | declaration (index : Nat) (initial : Option Assignment)
  | assignment (assignment : Assignment)
  | conditional (condition : Expr) (body : Block) (otherwise : Otherwise)
  | loop (condition : Expr) (body : Block)
  | call (location : Location) (function : Text) (arguments : List Expr)
  | block (body : Block)

inductive Otherwise where
  | nothing
  | block (body : Block)
  | conditional (condition : Expr) (body : Block) (otherwise : Otherwise)

inductive Block where
  | mk (scope : Nat) (statements : List Statement)

end

def Expr.location : Expr → Location
  | .literal l _ | .reference l _ | .unary l _ _ | .binary l _ _ _ | .call l _ _ => l

def Block.scope : Block → Nat
  | .mk scope _ => scope

def Block.statements : Block → List Statement
  | .mk _ statements => statements

def Literal.type : Literal → Ty
  | .int _ => .int
  | .float _ => .float
  | .bool _ => .bool
  | .str _ => .string

def BinaryOp.arithmeticType : BinaryOp → Ty → Ty → Ty
  | _, .int, .int => .int
  | .mod, _, _ => .unknown
  | _, .float, .int | _, .float, .float | _, .int, .float => .float
  | _, _, _ => .unknown

def Reference.type (table : List Variable) (r : Reference) : Ty :=
  match r.referent.bind (table[·]?) with
  | some v => v.type
  | none => .unknown

def Expr.type (table : List Variable) : Expr → Ty
  | .literal _ value => value.type
  | .reference _ target => target.type table
  | .unary _ .not _ => .bool
  | .unary _ .negate operand =>
    match operand.type table with
    | .int => .int
    | .float => .float
    | _ => .unknown
  | .binary _ op left right =>
    if op.isTruth then .bool
    else op.arithmeticType (left.type table) (right.type table)
  | .call _ _ _ => .unknown

end ImpC
