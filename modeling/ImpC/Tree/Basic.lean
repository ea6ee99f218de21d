import ImpC.Token.Basic

/-!
Concrete syntax trees: the rules of the grammar, with tokens at the leaves. A node has at least one
child. Nothing about places is stored in a node, since its location runs from its first to its last
token.
-/

namespace ImpC

inductive Rule where
  | program
  | statement
  | declaration
  | typeClause
  | assignment
  | conditional
  | alternative
  | loop
  | callStatement
  | block
  | expression
  | or
  | and
  | equality
  | comparison
  | additive
  | multiplicative
  | unary
  | primary
  | call
  | arguments
  /-- Tokens stepped over where no statement could be read. -/
  | error
  deriving DecidableEq, Repr

inductive Tree where
  | leaf (token : Token)
  | node (rule : Rule) (first : Tree) (rest : List Tree)

def Rule.name : Rule → Text
  | .program => "PROGRAM".toList
  | .statement => "STATEMENT".toList
  | .declaration => "DECLARATION".toList
  | .typeClause => "TYPE".toList
  | .assignment => "ASSIGNMENT".toList
  | .conditional => "CONDITIONAL".toList
  | .alternative => "ELSE".toList
  | .loop => "LOOP".toList
  | .callStatement => "CALL_STATEMENT".toList
  | .block => "BLOCK".toList
  | .expression => "EXPRESSION".toList
  | .or => "OR".toList
  | .and => "AND".toList
  | .equality => "EQUALITY".toList
  | .comparison => "COMPARISON".toList
  | .additive => "ADDITIVE".toList
  | .multiplicative => "MULTIPLICATIVE".toList
  | .unary => "UNARY".toList
  | .primary => "PRIMARY".toList
  | .call => "CALL".toList
  | .arguments => "ARGUMENTS".toList
  | .error => "ERROR".toList

namespace Tree

def children : Tree → List Tree
  | .leaf _ => []
  | .node _ first rest => first :: rest

mutual

/-- The tokens of a tree from left to right. -/
def leaves : Tree → List Token
  | .leaf t => [t]
  | .node _ first rest => leaves first ++ leavesAll rest

def leavesAll : List Tree → List Token
  | [] => []
  | t :: ts => leaves t ++ leavesAll ts

end

@[simp] theorem leavesAll_append (s t : List Tree) :
    leavesAll (s ++ t) = leavesAll s ++ leavesAll t := by
  induction s with
  | nil => rfl
  | cons a s ih => simp [leavesAll, ih]

@[simp] theorem leavesAll_map_leaf (ts : List Token) : leavesAll (ts.map .leaf) = ts := by
  induction ts with
  | nil => rfl
  | cons t ts ih => simp [leavesAll, leaves, ih]

def firstToken : Tree → Token
  | .leaf t => t
  | .node _ first _ => first.firstToken

mutual

def lastToken : Tree → Token
  | .leaf t => t
  | .node _ first rest =>
    match lastTokenAmong? rest with
    | some t => t
    | none => lastToken first

def lastTokenAmong? : List Tree → Option Token
  | [] => none
  | t :: ts =>
    match lastTokenAmong? ts with
    | some u => some u
    | none => some (lastToken t)

end

/-- From the start of the first token to the end of the last one. -/
def location (t : Tree) : Location := t.firstToken.location.through t.lastToken.location

/-- The name under which dumps show what a tree is. -/
def kindName : Tree → Text
  | .leaf t => t.kind.name
  | .node rule _ _ => rule.name

mutual

/-- The subtrees from the root down, each before its children, with their depths. -/
def preorder (depth : Nat) : Tree → List (Nat × Tree)
  | .leaf t => [(depth, .leaf t)]
  | .node rule first rest =>
    (depth, .node rule first rest) ::
      (preorder (depth + 1) first ++ preorderAll (depth + 1) rest)

def preorderAll (depth : Nat) : List Tree → List (Nat × Tree)
  | [] => []
  | t :: ts => preorder depth t ++ preorderAll depth ts

end

end Tree

end ImpC
