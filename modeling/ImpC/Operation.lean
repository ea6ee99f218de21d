import ImpC.Token.Basic

/-!
The types of variables and expressions. A declaration may name a type that the language does not
have, and the type of an expression may be unknown; neither is an error by itself.

The operations of expressions. They are written alike in the language and in C.
-/

namespace ImpC

inductive Ty where
  | int
  | float
  | bool
  | string
  | named (name : Text)
  | unknown
  deriving DecidableEq

namespace Ty

def render : Ty → Text
  | .int => "int".toList
  | .float => "float".toList
  | .bool => "bool".toList
  | .string => "string".toList
  | .named name => name
  | .unknown => "\x7bunknown\x7d".toList

def ofToken (t : Token) : Ty :=
  match t.kind with
  | .keyword .int => .int
  | .keyword .float => .float
  | .keyword .bool => .bool
  | .keyword .string => .string
  | _ => .named t.text

end Ty

inductive UnaryOp where
  | negate
  | not
  deriving DecidableEq, Repr

inductive BinaryOp where
  | add
  | sub
  | mul
  | div
  | mod
  | equal
  | notEqual
  | less
  | lessOrEqual
  | greater
  | greaterOrEqual
  | and
  | or
  deriving DecidableEq, Repr

def UnaryOp.operator : UnaryOp → Operator
  | .negate => .minus
  | .not => .not

def BinaryOp.operator : BinaryOp → Operator
  | .add => .plus
  | .sub => .minus
  | .mul => .times
  | .div => .divide
  | .mod => .modulo
  | .equal => .equal
  | .notEqual => .notEqual
  | .less => .less
  | .lessOrEqual => .lessOrEqual
  | .greater => .greater
  | .greaterOrEqual => .greaterOrEqual
  | .and => .and
  | .or => .or

def UnaryOp.symbol (op : UnaryOp) : Text := op.operator.symbol

def BinaryOp.symbol (op : BinaryOp) : Text := op.operator.symbol

def UnaryOp.ofOperator? : Operator → Option UnaryOp
  | .minus => some .negate
  | .not => some .not
  | _ => none

def BinaryOp.ofOperator? : Operator → Option BinaryOp
  | .plus => some .add
  | .minus => some .sub
  | .times => some .mul
  | .divide => some .div
  | .modulo => some .mod
  | .equal => some .equal
  | .notEqual => some .notEqual
  | .less => some .less
  | .lessOrEqual => some .lessOrEqual
  | .greater => some .greater
  | .greaterOrEqual => some .greaterOrEqual
  | .and => some .and
  | .or => some .or
  | .assign | .not => none

@[simp] theorem UnaryOp.ofOperator?_operator (op : UnaryOp) : ofOperator? op.operator = some op := by
  cases op <;> rfl

@[simp] theorem BinaryOp.ofOperator?_operator (op : BinaryOp) :
    ofOperator? op.operator = some op := by
  cases op <;> rfl

/-- Comparisons and the logical operations, whose result is a truth value. -/
def BinaryOp.isTruth : BinaryOp → Bool
  | .equal | .notEqual | .less | .lessOrEqual | .greater | .greaterOrEqual | .and | .or => true
  | _ => false

end ImpC
