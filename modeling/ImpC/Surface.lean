import ImpC.Operation
import ImpC.Tree.Basic

/-!
Programs as they are written: names are not yet resolved and literals keep their spelling, but
layout, parentheses, the levels of the grammar and malformed statements are gone.

From trees to programs as written. Nodes with one child stand for that child, parentheses for what
is between them, and a sequence of operands for operations grouped to the left. A minus sign
directly before an integer belongs to the literal.
-/

namespace ImpC.Surface

/-- A literal by its spelling. An integer's spelling has the minus sign that belongs to it, and a
string's has its quotes. -/
inductive Literal where
  | int (spelling : Text)
  | float (spelling : Text)
  | bool (value : Bool)
  | str (spelling : Text)
  deriving DecidableEq

inductive Expr where
  | literal (location : Location) (value : Literal)
  | name (location : Location) (name : Text)
  | unary (location : Location) (op : UnaryOp) (operand : Expr)
  | binary (location : Location) (op : BinaryOp) (left right : Expr)
  | call (location : Location) (function : Text) (arguments : List Expr)

mutual

inductive Statement where
  | declaration (name : Located Text) (type : Option Ty) (initial : Option Expr)
  | assignment (target : Located Text) (value : Expr)
  | conditional (condition : Expr) (body : List Statement) (otherwise : Otherwise)
  | loop (condition : Expr) (body : List Statement)
  | call (location : Location) (function : Text) (arguments : List Expr)
  | block (body : List Statement)

/-- What follows the first block of a conditional. -/
inductive Otherwise where
  | nothing
  | block (body : List Statement)
  | conditional (condition : Expr) (body : List Statement) (otherwise : Otherwise)

end

def Expr.location : Expr → Location
  | .literal l _ | .name l _ | .unary l _ _ | .binary l _ _ _ | .call l _ _ => l

/-- The expression that one token is. -/
def Expr.ofToken? (t : Token) : Option Expr :=
  match t.kind with
  | .int => some (.literal t.location (.int t.text))
  | .float => some (.literal t.location (.float t.text))
  | .str => some (.literal t.location (.str t.text))
  | .keyword .true_ => some (.literal t.location (.bool true))
  | .keyword .false_ => some (.literal t.location (.bool false))
  | .ident => some (.name t.location t.text)
  | _ => none

/-- The integer token that a tree is, but for nodes with one child. -/
def intToken? : Tree → Option Token
  | .leaf t => if t.kind = .int then some t else none
  | .node _ only [] => intToken? only
  | _ => none

def unaryOf? (t : Token) : Option UnaryOp :=
  match t.kind with
  | .op o => UnaryOp.ofOperator? o
  | _ => none

def binaryOf? (t : Token) : Option BinaryOp :=
  match t.kind with
  | .op o => BinaryOp.ofOperator? o
  | _ => none

mutual

def Expr.ofTree? : Tree → Option Expr
  | .leaf t => Expr.ofToken? t
  | .node _ only [] => Expr.ofTree? only
  | .node .unary (.leaf sign) [operand] => do
    let op ← unaryOf? sign
    let location := sign.location.through operand.location
    match op, intToken? operand with
    | .negate, some t => return .literal location (.int ('-' :: t.text))
    | _, _ => return .unary location op (← Expr.ofTree? operand)
  | .node .primary (.leaf _) [inner, .leaf _] => Expr.ofTree? inner
  | .node .call (.leaf function) [.leaf _, .leaf closing] =>
    some (.call (function.location.through closing.location) function.text [])
  | .node .call (.leaf function) [.leaf _, .node .arguments first more, .leaf closing] => do
    let first ← Expr.ofTree? first
    let more ← Expr.arguments? more
    return .call (function.location.through closing.location) function.text (first :: more)
  | .node _ first rest => do
    let left ← Expr.ofTree? first
    Expr.chain? left rest

/-- The arguments after the first, each behind its comma. -/
def Expr.arguments? : List Tree → Option (List Expr)
  | [] => some []
  | .leaf _ :: argument :: more => do
    let argument ← Expr.ofTree? argument
    let more ← Expr.arguments? more
    return argument :: more
  | _ => none

/-- An operand followed by operators and operands, grouped to the left. -/
def Expr.chain? (left : Expr) : List Tree → Option Expr
  | [] => some left
  | .leaf sign :: operand :: more => do
    let op ← binaryOf? sign
    let right ← Expr.ofTree? operand
    Expr.chain? (.binary (left.location.through right.location) op left right) more
  | _ => none

end

/-- A declaration from what follows its keyword and name. -/
def Statement.declaration? (name : Token) : List Tree → Option Statement
  | [.leaf _] => some (.declaration ⟨name.location, name.text⟩ none none)
  | [.node .typeClause (.leaf _) [.leaf type], .leaf _] =>
    some (.declaration ⟨name.location, name.text⟩ (some (.ofToken type)) none)
  | [.leaf _, value, .leaf _] => do
    let value ← Expr.ofTree? value
    return .declaration ⟨name.location, name.text⟩ none (some value)
  | [.node .typeClause (.leaf _) [.leaf type], .leaf _, value, .leaf _] => do
    let value ← Expr.ofTree? value
    return .declaration ⟨name.location, name.text⟩ (some (.ofToken type)) (some value)
  | _ => none

mutual

def Statement.ofTree? : Tree → Option Statement
  | .node .statement inner [] => Statement.inner? inner
  | _ => none

def Statement.inner? : Tree → Option Statement
  | .node .declaration (.leaf _) (.leaf name :: rest) => Statement.declaration? name rest
  | .node .assignment (.leaf target) [.leaf _, value, .leaf _] => do
    let value ← Expr.ofTree? value
    return .assignment ⟨target.location, target.text⟩ value
  | .node .callStatement inner [.leaf _] =>
    match Expr.ofTree? inner with
    | some (.call location function arguments) => some (.call location function arguments)
    | _ => none
  | .node .block (.leaf _) rest => some (.block (Statement.body rest))
  | .node .loop (.leaf _) [.leaf _, condition, .leaf _, .node .block (.leaf _) rest] => do
    let condition ← Expr.ofTree? condition
    return .loop condition (Statement.body rest)
  | .node .conditional (.leaf _)
      (.leaf _ :: condition :: .leaf _ :: .node .block (.leaf _) rest :: more) => do
    let condition ← Expr.ofTree? condition
    let otherwise ← Statement.otherwise? more
    return .conditional condition (Statement.body rest) otherwise
  | _ => none

/-- What a conditional has after its first block. -/
def Statement.otherwise? : List Tree → Option Otherwise
  | [] => some .nothing
  | [.node .alternative (.leaf _) [.node .block (.leaf _) rest]] =>
    some (.block (Statement.body rest))
  | [.node .alternative (.leaf _) [.node .conditional (.leaf _)
      (.leaf _ :: condition :: .leaf _ :: .node .block (.leaf _) rest :: more)]] => do
    let condition ← Expr.ofTree? condition
    let otherwise ← Statement.otherwise? more
    return .conditional condition (Statement.body rest) otherwise
  | _ => none

/-- The statements among some trees. Malformed ones and single tokens are not among them. -/
def Statement.body : List Tree → List Statement
  | [] => []
  | t :: ts => (Statement.ofTree? t).toList ++ Statement.body ts

end

def ofTree (t : Tree) : List Statement := Statement.body t.children

end ImpC.Surface
