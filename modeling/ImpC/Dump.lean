import ImpC.Tree.Basic
import ImpC.Program.Basic

/-!
Dumps show a stage of the compilation one entry a line. They are written to an output while the
stage is walked through, an entry at a time and each entry piece by piece. The entries of a tree are
written from the root down, each with a mark for every level. In the dump of a program literals are
shown as they are written in the source.
-/

namespace ImpC

inductive NodeKind where
  | program
  | block
  | declaration
  | assignment
  | conditional
  | alternative
  | loop
  | call
  | literal
  | reference
  | unary
  | binary
  deriving DecidableEq

def NodeKind.name : NodeKind → Text
  | .program => "PROGRAM".toList
  | .block => "BLOCK".toList
  | .declaration => "DECLARATION".toList
  | .assignment => "ASSIGNMENT".toList
  | .conditional => "CONDITIONAL".toList
  | .alternative => "ELSE".toList
  | .loop => "LOOP".toList
  | .call => "CALL".toList
  | .literal => "LITERAL".toList
  | .reference => "REFERENCE".toList
  | .unary => "UNARY".toList
  | .binary => "BINARY".toList

def Expr.kind : Expr → NodeKind
  | .literal _ _ => .literal
  | .reference _ _ => .reference
  | .unary _ _ _ => .unary
  | .binary _ _ _ _ => .binary
  | .call _ _ _ => .call

namespace Dump

variable {σ : Type} [Output σ]

def tokenPieces (t : Token) : List Text :=
  ["Token: ".toList, t.text, " | ".toList, t.kind.name, ['\n']]

/-- Writes the lines of the significant tokens, without the end of the text. -/
def writeTokens : List Token → σ → Except σ σ
  | [], s => .ok s
  | t :: ts, s =>
    if t.kind = .eof then writeTokens ts s
    else do
      let s ← Output.writeAll s (tokenPieces t)
      writeTokens ts s

/-- A line with a mark for each level, a label and the name of a kind. -/
structure Entry where
  depth : Nat
  label : Text
  kind : Text
  deriving DecidableEq

def Entry.pieces (e : Entry) : List Text :=
  [List.replicate e.depth '>', [' '], e.label, " | ".toList, e.kind, ['\n']]

def Entry.write (e : Entry) (s : σ) : Except σ σ := Output.writeAll s e.pieces

/-- A node is shown by the name of its rule, a leaf by its text. -/
def entry (depth : Nat) : Tree → Entry
  | .leaf t => ⟨depth, t.text, t.kind.name⟩
  | .node rule _ _ => ⟨depth, rule.name, rule.name⟩

mutual

def writeTree (depth : Nat) : Tree → σ → Except σ σ
  | .leaf t, s => (entry depth (.leaf t)).write s
  | .node rule first rest, s => do
    let s ← (entry depth (.node rule first rest)).write s
    let s ← writeTree (depth + 1) first s
    writeTrees (depth + 1) rest s

def writeTrees (depth : Nat) : List Tree → σ → Except σ σ
  | [], s => .ok s
  | t :: ts, s => do
    let s ← writeTree depth t s
    writeTrees depth ts s

end

def node (depth : Nat) (label : Text) (kind : NodeKind) : Entry := ⟨depth, label, kind.name⟩

mutual

def writeExpression (depth : Nat) : Expr → σ → Except σ σ
  | .literal location _, s => (node depth (location.text?.getD []) .literal).write s
  | .reference _ target, s => (node depth target.name .reference).write s
  | .unary _ op operand, s => do
    let s ← (node depth op.symbol .unary).write s
    writeExpression (depth + 1) operand s
  | .binary _ op left right, s => do
    let s ← (node depth op.symbol .binary).write s
    let s ← writeExpression (depth + 1) left s
    writeExpression (depth + 1) right s
  | .call _ function arguments, s => do
    let s ← (node depth function .call).write s
    writeExpressions (depth + 1) arguments s

def writeExpressions (depth : Nat) : List Expr → σ → Except σ σ
  | [], s => .ok s
  | e :: es, s => do
    let s ← writeExpression depth e s
    writeExpressions depth es s

end

def writeAssignment (depth : Nat) (a : Assignment) (s : σ) : Except σ σ := do
  let s ← (node depth ['='] .assignment).write s
  let s ← (node (depth + 1) a.target.value.name .reference).write s
  writeExpression (depth + 1) a.value s

def declared (table : List Variable) (i : Nat) : Text :=
  match table[i]? with
  | some v => v.name
  | none => ['?']

mutual

def writeStatement (table : List Variable) (depth : Nat) : Statement → σ → Except σ σ
  | .declaration i none, s => (node depth (declared table i) .declaration).write s
  | .declaration i (some a), s => do
    let s ← (node depth (declared table i) .declaration).write s
    writeAssignment (depth + 1) a s
  | .assignment a, s => writeAssignment depth a s
  | .conditional condition body rest, s => do
    let s ← (node depth "if".toList .conditional).write s
    let s ← writeExpression (depth + 1) condition s
    let s ← writeBlock table (depth + 1) body s
    writeOtherwise table (depth + 1) rest s
  | .loop condition body, s => do
    let s ← (node depth "while".toList .loop).write s
    let s ← writeExpression (depth + 1) condition s
    writeBlock table (depth + 1) body s
  | .call _ function arguments, s => do
    let s ← (node depth function .call).write s
    writeExpressions (depth + 1) arguments s
  | .block body, s => writeBlock table depth body s

def writeOtherwise (table : List Variable) (depth : Nat) : Otherwise → σ → Except σ σ
  | .nothing, s => .ok s
  | .block body, s => do
    let s ← (node depth "else".toList .alternative).write s
    writeBlock table (depth + 1) body s
  | .conditional condition body rest, s => do
    let s ← (node depth "else".toList .alternative).write s
    let s ← (node (depth + 1) "if".toList .conditional).write s
    let s ← writeExpression (depth + 2) condition s
    let s ← writeBlock table (depth + 2) body s
    writeOtherwise table (depth + 2) rest s

def writeBlock (table : List Variable) (depth : Nat) : Block → σ → Except σ σ
  | .mk _ ss, s => do
    let s ← (node depth "BLOCK".toList .block).write s
    writeStatements table (depth + 1) ss s

def writeStatements (table : List Variable) (depth : Nat) : List Statement → σ → Except σ σ
  | [], s => .ok s
  | statement :: more, s => do
    let s ← writeStatement table depth statement s
    writeStatements table depth more s

end

def writeProgram (body : Block) (table : List Variable) (s : σ) : Except σ σ := do
  let s ← (node 1 "PROGRAM".toList .program).write s
  writeStatements table 2 body.statements s

/-- The pieces of a dump that is written to a draft. -/
def pieces (write : Draft → Except Draft Draft) : List Text :=
  match write .empty with
  | .ok d | .error d => d.pieces

def tokens (ts : List Token) : List Text := pieces (writeTokens ts)

def tree (t : Tree) : List Text := pieces (writeTree 1 t)

def program (body : Block) (table : List Variable) : List Text := pieces (writeProgram body table)

end Dump

end ImpC
