import ImpC.Target.Lower

/-!
Emission. C is written to an output while the program is lowered: a line goes out as soon as it is
known, piece by piece, and nothing of the text is held. The first piece that cannot be written ends
the emission.

A scope's variables are declared at the head of the first block that has its number, so that a
declaration with a value becomes an assignment in its place. Every line is indented by four blanks
for each block around it.
-/

namespace ImpC.Target

variable {σ : Type}

/-- Where C is written, the scopes whose variables are declared already, and the errors so far. -/
structure Emitter (σ : Type) where
  output : σ
  opened : List Nat
  errors : Errors

namespace Emitter

/-- Writes a line inside `depth` blocks. -/
def line [Output σ] (depth : Nat) (parts : List Text) (m : Emitter σ) : Except σ (Emitter σ) := do
  let output ← Output.writeAll m.output (Text.blanks (4 * depth) :: parts ++ [['\n']])
  return { m with output }

def report (errors : Errors) (m : Emitter σ) : Emitter σ := { m with errors := m.errors ++ errors }

end Emitter

variable [Output σ]

/-- Declares each of some variables, or reports it. -/
def emitDeclarators (depth : Nat) : List (Variable × Text) → Emitter σ → Except σ (Emitter σ)
  | [], m => .ok m
  | (v, name) :: more, m =>
    match declarator v name with
    | (some d, _) => do
      let m ← m.line depth [d.render, [';']]
      emitDeclarators depth more m
    | (none, errors) => emitDeclarators depth more (m.report errors)

/-- Declares the variables of a scope, unless an earlier block has done so. -/
def emitScope (k : Context) (depth scope : Nat) (m : Emitter σ) : Except σ (Emitter σ) :=
  if scope ∈ m.opened then .ok m
  else
    let own := (k.table.zip k.names).filter (·.1.scope = scope)
    emitDeclarators depth own { m with opened := scope :: m.opened }

def emitAssignment (k : Context) (depth : Nat) (a : Assignment) (m : Emitter σ) :
    Except σ (Emitter σ) :=
  let (value, errors) := lower k a.value
  (m.report errors).line depth [k.nameOf a.target.value, " = ".toList, value.render, [';']]

/-- The line that opens a block under a condition. -/
def emitGuard (k : Context) (depth : Nat) (opening : Text) (condition : ImpC.Expr)
    (m : Emitter σ) : Except σ (Emitter σ) :=
  let (condition, errors) := lower k condition
  (m.report errors).line depth [opening, condition.render, ") \x7b".toList]

mutual

def emitStatement (k : Context) (depth : Nat) : Statement → Emitter σ → Except σ (Emitter σ)
  | .declaration _ none, m => .ok m
  | .declaration _ (some a), m => emitAssignment k depth a m
  | .assignment a, m => emitAssignment k depth a m
  | .conditional condition body rest, m => do
    let m ← emitGuard k depth "if (".toList condition m
    let m ← emitBlock k (depth + 1) body m
    emitOtherwise k depth rest m
  | .loop condition body, m => do
    let m ← emitGuard k depth "while (".toList condition m
    let m ← emitBlock k (depth + 1) body m
    m.line depth [['\x7d']]
  | .call location function arguments, m =>
    let (value, errors) := lower k (.call location function arguments)
    (m.report errors).line depth [value.render, [';']]
  | .block body, m => do
    let m ← m.line depth [['\x7b']]
    let m ← emitBlock k (depth + 1) body m
    m.line depth [['\x7d']]

/-- Closes the block before, with what hangs on it. -/
def emitOtherwise (k : Context) (depth : Nat) : Otherwise → Emitter σ → Except σ (Emitter σ)
  | .nothing, m => m.line depth [['\x7d']]
  | .block body, m => do
    let m ← m.line depth ["\x7d else \x7b".toList]
    let m ← emitBlock k (depth + 1) body m
    m.line depth [['\x7d']]
  | .conditional condition body rest, m => do
    let m ← emitGuard k depth "\x7d else if (".toList condition m
    let m ← emitBlock k (depth + 1) body m
    emitOtherwise k depth rest m

/-- What stands between the braces of a block. -/
def emitBlock (k : Context) (depth : Nat) : Block → Emitter σ → Except σ (Emitter σ)
  | .mk scope statements, m => do
    let m ← emitScope k depth scope m
    emitStatements k depth statements m

def emitStatements (k : Context) (depth : Nat) :
    List Statement → Emitter σ → Except σ (Emitter σ)
  | [], m => .ok m
  | s :: ss, m => do
    let m ← emitStatement k depth s m
    emitStatements k depth ss m

end

def emitProgram (k : Context) (program : Block) (m : Emitter σ) : Except σ (Emitter σ) := do
  let m ← m.line 0 ["#include <stdbool.h>".toList]
  let m ← m.line 0 ["#include <stdio.h>".toList]
  let m ← m.line 0 []
  let m ← m.line 0 ["int main(void) \x7b".toList]
  let m ← emitBlock k 1 program m
  let m ← m.line 1 ["return 0;".toList]
  m.line 0 [['\x7d']]

/-- Emits C to any output. A failure gives the output as it is left. -/
def emitTo (program : Block) (table : List Variable) (s : σ) : Except σ (σ × Errors) :=
  let k : Context := ⟨table, assignNames (table.map (·.name))⟩
  (emitProgram k program ⟨s, [], []⟩).map fun m => (m.output, m.errors)

def emit (program : Block) (table : List Variable) (s : Sink) : Except Sink (Sink × Errors) :=
  emitTo program table s

/-- The emitted C and what could not be emitted. -/
structure Generated where
  text : Text
  errors : Errors

/-- Emits C as a text. A draft takes every piece, so that emission does not fail. -/
def generate (program : Block) (table : List Variable) : Generated :=
  match emitTo program table Draft.empty with
  | .ok (d, errors) => ⟨d.pieces.flatten, errors⟩
  | .error d => ⟨d.pieces.flatten, []⟩

end ImpC.Target
