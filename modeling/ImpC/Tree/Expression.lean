import ImpC.Tree.Basic

/-!
Reading a part of the grammar from the front of a token list. A reader gives the tree and what is
left, or says where it got stuck and what it was looking for there.

Expressions. Binary operators come in six levels, from the loosest to the tightest; each level is a
sequence of the next one, and below the last stand unary operators and primaries.

Readers of nested parts carry a number that no nesting and no sequence in the input can exceed: a
list of `n` tokens is read in full with any number above `n`.
-/

namespace ImpC

/-- What would have let reading go on. -/
inductive Expected where
  | token (kind : Kind)
  | identifier
  | statement
  | type
  | expression
  deriving DecidableEq

/-- Reading stopped before `rest`, where `expected` should have come. -/
structure Stuck where
  expected : Expected
  rest : List Token

abbrev Parser (α : Type) := List Token → Except Stuck (α × List Token)

def Expected.describe : Expected → Text
  | .token kind => kind.describe
  | .identifier => "identifier".toList
  | .statement => "any of `var`, `if`, `while`, `\x7b`, assignment or call".toList
  | .type => "any of `int`, `float`, `bool`, `string` or a type name".toList
  | .expression => "an expression".toList

namespace Parser

/-- The next token has the kind `kind`. -/
def startsWith (kind : Kind) : List Token → Bool
  | [] => false
  | t :: _ => t.kind = kind

/-- One token that satisfies `p`. -/
def token (expected : Expected) (p : Kind → Bool) : Parser Tree
  | [] => .error ⟨expected, []⟩
  | t :: ts => if p t.kind then .ok (.leaf t, ts) else .error ⟨expected, t :: ts⟩

def exactly (kind : Kind) : Parser Tree := token (.token kind) (· = kind)

def identifier : Parser Tree := token .identifier (· = .ident)

/-- The result of `p` as the only child of a node. -/
def wrap (rule : Rule) (p : Parser Tree) : Parser Tree := fun ts => do
  let (t, ts) ← p ts
  return (.node rule t [], ts)

/-- Any number of items, each after a separator. At most `bound` items are read. -/
def separated (isSeparator : Kind → Bool) (item : Parser Tree) : Nat → Parser (List Tree)
  | 0, ts => .ok ([], ts)
  | _ + 1, [] => .ok ([], [])
  | bound + 1, t :: ts =>
    if isSeparator t.kind then do
      let (next, ts) ← item ts
      let (more, ts) ← separated isSeparator item bound ts
      return (.leaf t :: next :: more, ts)
    else .ok ([], t :: ts)

/-- One or more items with separators between them, as the children of one node. -/
def sequence (rule : Rule) (isSeparator : Kind → Bool) (item : Parser Tree) (bound : Nat) :
    Parser Tree := fun ts => do
  let (first, ts) ← item ts
  let (more, ts) ← separated isSeparator item bound ts
  return (.node rule first more, ts)

end Parser

structure Level where
  rule : Rule
  operators : List Operator

namespace Parser

def levels : List Level :=
  [⟨.or, [.or]⟩, ⟨.and, [.and]⟩, ⟨.equality, [.equal, .notEqual]⟩,
    ⟨.comparison, [.less, .lessOrEqual, .greater, .greaterOrEqual]⟩,
    ⟨.additive, [.plus, .minus]⟩, ⟨.multiplicative, [.times, .divide, .modulo]⟩]

def isOneOf (operators : List Operator) : Kind → Bool
  | .op o => operators.contains o
  | _ => false

/-- The levels of a list one inside the other, around `operand`. -/
def tower (bound : Nat) (operand : Parser Tree) : List Level → Parser Tree
  | [] => operand
  | level :: tighter =>
    sequence level.rule (isOneOf level.operators) (tower bound operand tighter) bound

def expressionOver (bound : Nat) (operand : Parser Tree) : Parser Tree :=
  wrap .expression (tower bound operand levels)

/-- An expression between parentheses, as three trees. -/
def parenthesized (expression : Parser Tree) : Parser (Tree × Tree × Tree) := fun ts => do
  let (opening, ts) ← exactly .openParen ts
  let (inner, ts) ← expression ts
  let (closing, ts) ← exactly .closeParen ts
  return ((opening, inner, closing), ts)

/-- A name and its arguments between parentheses. -/
def call (bound : Nat) (expression : Parser Tree) : Parser Tree := fun ts => do
  let (function, ts) ← identifier ts
  let (opening, ts) ← exactly .openParen ts
  if startsWith .closeParen ts then
    let (closing, ts) ← exactly .closeParen ts
    return (.node .call function [opening, closing], ts)
  else
    let (arguments, ts) ← sequence .arguments (· = .comma) expression bound ts
    let (closing, ts) ← exactly .closeParen ts
    return (.node .call function [opening, arguments, closing], ts)

def isLiteral : Kind → Bool
  | .int | .float | .str | .keyword .true_ | .keyword .false_ => true
  | _ => false

def isSign (kind : Kind) : Bool := kind = .op .minus || kind = .op .not

/-- A literal, a name, a call or an expression between parentheses. -/
def primary (bound : Nat) (expression : Parser Tree) : Parser Tree
  | [] => .error ⟨.expression, []⟩
  | t :: ts =>
    if isLiteral t.kind then .ok (.node .primary (.leaf t) [], ts)
    else if t.kind = .ident then
      if startsWith .openParen ts then wrap .primary (call bound expression) (t :: ts)
      else .ok (.node .primary (.leaf t) [], ts)
    else if t.kind = .openParen then do
      let ((opening, inner, closing), ts) ← parenthesized expression (t :: ts)
      return (.node .primary opening [inner, closing], ts)
    else .error ⟨.expression, t :: ts⟩

/-- An operand of the tightest binary operators, with the signs before it. -/
def unary : Nat → Parser Tree
  | 0, ts => .error ⟨.expression, ts⟩
  | _ + 1, [] => .error ⟨.expression, []⟩
  | bound + 1, t :: ts =>
    if isSign t.kind then do
      let (operand, ts) ← unary bound ts
      return (.node .unary (.leaf t) [operand], ts)
    else wrap .unary (primary bound (expressionOver bound (unary bound))) (t :: ts)

def expression (bound : Nat) : Parser Tree := expressionOver bound (unary bound)

end Parser

end ImpC
