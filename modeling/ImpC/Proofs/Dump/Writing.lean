import ImpC.Proofs.Target.Emission
import ImpC.Compilation

/-!
# Dumps as listings

Whatever a dump is written to, the writers write the entries of a listing one after the other: a line
for each token, for each node of a tree, and for each node of a program. This is the one thing that is
proved by induction on the writers. It says what a dump is, and what any output of a compilation leaves
in a sink that fails: the first bytes of what it would leave in one that does not.
-/
namespace ImpC

namespace Dump

section Nodes

/-- A node of the dump of a program, above those that are shown behind it. -/
inductive Node where
  | mk (label : Text) (kind : NodeKind) (below : List Node)

mutual

/-- From the root down, a level deeper for the nodes below. -/
def Node.entries (depth : Nat) : Node → List Entry
  | .mk label kind below => ⟨depth, label, kind.name⟩ :: Node.entriesAll (depth + 1) below

def Node.entriesAll (depth : Nat) : List Node → List Entry
  | [] => []
  | n :: ns => n.entries depth ++ Node.entriesAll depth ns

end

mutual

def Node.ofExpr : Expr → Node
  | .literal place _ => .mk (place.text?.getD []) .literal []
  | .reference _ target => .mk target.name .reference []
  | .unary _ op operand => .mk op.symbol .unary [.ofExpr operand]
  | .binary _ op left right => .mk op.symbol .binary [.ofExpr left, .ofExpr right]
  | .call _ function arguments => .mk function .call (Node.ofExprs arguments)

def Node.ofExprs : List Expr → List Node
  | [] => []
  | e :: es => .ofExpr e :: Node.ofExprs es

end

def Node.ofAssignment (a : Assignment) : Node :=
  .mk ['='] .assignment [.mk a.target.value.name .reference [], .ofExpr a.value]

mutual

def Node.ofStatement (table : List Variable) : Statement → Node
  | .declaration i none => .mk (declared table i) .declaration []
  | .declaration i (some a) => .mk (declared table i) .declaration [.ofAssignment a]
  | .assignment a => .ofAssignment a
  | .conditional condition body rest =>
    .mk "if".toList .conditional
      (.ofExpr condition :: .ofBlock table body :: Node.ofOtherwise table rest)
  | .loop condition body => .mk "while".toList .loop [.ofExpr condition, .ofBlock table body]
  | .call _ function arguments => .mk function .call (Node.ofExprs arguments)
  | .block body => .ofBlock table body

/-- What stands behind `else` is below it. -/
def Node.ofOtherwise (table : List Variable) : Otherwise → List Node
  | .nothing => []
  | .block body => [.mk "else".toList .alternative [.ofBlock table body]]
  | .conditional condition body rest =>
    [.mk "else".toList .alternative [.mk "if".toList .conditional
      (.ofExpr condition :: .ofBlock table body :: Node.ofOtherwise table rest)]]

def Node.ofBlock (table : List Variable) : Block → Node
  | .mk _ statements => .mk "BLOCK".toList .block (Node.ofStatements table statements)

def Node.ofStatements (table : List Variable) : List Statement → List Node
  | [] => []
  | s :: ss => .ofStatement table s :: Node.ofStatements table ss

end

def Node.ofProgram (body : Block) (table : List Variable) : Node :=
  .mk "PROGRAM".toList .program (Node.ofStatements table body.statements)

end Nodes

section Writers

variable {σ : Type} [Output σ]

/-- What `f` writes are the pieces `ts`. -/
def Writes (f : σ → Except σ σ) (ts : List Text) : Prop := ∀ s, f s = Output.writeAll s ts

/-- What is written in turn comes one behind the other, and a failure ends both. -/
theorem Writes.bind {f g : σ → Except σ σ} {ts us : List Text} (hf : Writes f ts)
    (hg : Writes g us) : Writes (fun s => f s >>= g) (ts ++ us) := by
  intro s
  rw [Output.writeAll_append, ← hf s]
  exact bind_congr hg

/-- The dump of the tokens has the pieces of their lines. -/
theorem writeTokens_writes (ts : List Token) :
    Writes (writeTokens (σ := σ) ts) ((ts.filter (·.kind ≠ .eof)).flatMap tokenPieces) := by
  induction ts with
  | nil => exact fun _ => rfl
  | cons t ts ih =>
    intro s
    rw [writeTokens]
    by_cases h : t.kind = .eof
    · rw [if_pos h, List.filter_cons_of_neg (by simpa using h)]
      exact ih s
    · rw [if_neg h, List.filter_cons_of_pos (by simpa using h), List.flatMap_cons]
      exact Writes.bind (fun _ => rfl) ih s

/-- What `f` writes are the entries `es`. -/
def Lists (f : σ → Except σ σ) (es : List Entry) : Prop := Writes f (es.flatMap Entry.pieces)

namespace Lists

variable {f g : σ → Except σ σ} {es more : List Entry}

theorem nil : Lists (σ := σ) .ok [] := fun _ => rfl

theorem bind (hf : Lists f es) (hg : Lists g more) : Lists (fun s => f s >>= g) (es ++ more) := by
  rw [Lists, List.flatMap_append]
  exact Writes.bind hf hg

/-- An entry and those behind it. -/
theorem entry {e : Entry} (hg : Lists g more) : Lists (fun s => e.write s >>= g) (e :: more) :=
  Writes.bind (fun _ => rfl) hg

theorem single (e : Entry) : Lists (σ := σ) e.write [e] := by
  intro s
  rw [List.flatMap_singleton]
  rfl

end Lists

mutual

/-- A tree is written from the root down. -/
theorem writeTree_lists (depth : Nat) : ∀ t : Tree,
    Lists (writeTree (σ := σ) depth t) ((t.preorder depth).map fun (depth, t) => entry depth t)
  | .leaf _ => .single _
  | .node rule first rest => by
    rw [Tree.preorder, List.map_cons, List.map_append]
    exact .entry ((writeTree_lists (depth + 1) first).bind (writeTrees_lists (depth + 1) rest))

theorem writeTrees_lists (depth : Nat) : ∀ ts : List Tree,
    Lists (writeTrees (σ := σ) depth ts)
      ((Tree.preorderAll depth ts).map fun (depth, t) => entry depth t)
  | [] => .nil
  | t :: ts => by
    rw [Tree.preorderAll, List.map_append]
    exact (writeTree_lists depth t).bind (writeTrees_lists depth ts)

end

/-- A node that is the only one below another. -/
theorem Lists.only {f : σ → Except σ σ} {depth : Nat} {n : Node} (h : Lists f (n.entries depth)) :
    Lists f (Node.entriesAll depth [n]) := by
  rwa [Node.entriesAll, Node.entriesAll, List.append_nil]

mutual

theorem writeExpression_lists (depth : Nat) : ∀ e : Expr,
    Lists (writeExpression (σ := σ) depth e) ((Node.ofExpr e).entries depth)
  | .literal _ _ | .reference _ _ => .single _
  | .unary _ _ operand => .entry (writeExpression_lists (depth + 1) operand).only
  | .binary _ _ left right =>
    .entry ((writeExpression_lists (depth + 1) left).bind
      (writeExpression_lists (depth + 1) right).only)
  | .call _ _ arguments => .entry (writeExpressions_lists (depth + 1) arguments)

theorem writeExpressions_lists (depth : Nat) : ∀ es : List Expr,
    Lists (writeExpressions (σ := σ) depth es) (Node.entriesAll depth (Node.ofExprs es))
  | [] => .nil
  | e :: es => (writeExpression_lists depth e).bind (writeExpressions_lists depth es)

end

theorem writeAssignment_lists (depth : Nat) (a : Assignment) :
    Lists (writeAssignment (σ := σ) depth a) ((Node.ofAssignment a).entries depth) :=
  .entry (.entry (writeExpression_lists (depth + 1) a.value).only)

variable (table : List Variable)

mutual

/-- A statement is written as its node, the parts in the order of the source. -/
theorem writeStatement_lists (depth : Nat) : ∀ s : Statement,
    Lists (writeStatement (σ := σ) table depth s) ((Node.ofStatement table s).entries depth)
  | .declaration _ none => .single _
  | .declaration _ (some a) => .entry (writeAssignment_lists (depth + 1) a).only
  | .assignment a => writeAssignment_lists depth a
  | .conditional condition body rest =>
    .entry ((writeExpression_lists (depth + 1) condition).bind
      ((writeBlock_lists (depth + 1) body).bind (writeOtherwise_lists (depth + 1) rest)))
  | .loop condition body =>
    .entry ((writeExpression_lists (depth + 1) condition).bind
      (writeBlock_lists (depth + 1) body).only)
  | .call _ _ arguments => .entry (writeExpressions_lists (depth + 1) arguments)
  | .block body => writeBlock_lists depth body

theorem writeOtherwise_lists (depth : Nat) : ∀ o : Otherwise,
    Lists (writeOtherwise (σ := σ) table depth o)
      (Node.entriesAll depth (Node.ofOtherwise table o))
  | .nothing => .nil
  | .block body => Lists.only (.entry (writeBlock_lists (depth + 1) body).only)
  | .conditional condition body rest =>
    Lists.only (.entry (Lists.only (.entry ((writeExpression_lists (depth + 2) condition).bind
      ((writeBlock_lists (depth + 2) body).bind (writeOtherwise_lists (depth + 2) rest))))))

theorem writeBlock_lists (depth : Nat) : ∀ b : Block,
    Lists (writeBlock (σ := σ) table depth b) ((Node.ofBlock table b).entries depth)
  | .mk _ ss => .entry (writeStatements_lists (depth + 1) ss)

theorem writeStatements_lists (depth : Nat) : ∀ ss : List Statement,
    Lists (writeStatements (σ := σ) table depth ss)
      (Node.entriesAll depth (Node.ofStatements table ss))
  | [] => .nil
  | s :: ss => (writeStatement_lists depth s).bind (writeStatements_lists depth ss)

end

theorem writeProgram_lists (body : Block) :
    Lists (writeProgram (σ := σ) body table) ((Node.ofProgram body table).entries 1) :=
  .entry (writeStatements_lists table 2 body.statements)

end Writers

/-- A dump is what the writer writes. -/
theorem pieces_eq {f : Draft → Except Draft Draft} {ts : List Text} (h : Writes f ts) :
    pieces f = ts := by
  rw [pieces, h, Draft.writeAll_empty]
  exact List.reverse_reverse ts

def Entry.shown (e : Entry) : Text :=
  List.replicate e.depth '>' ++ ' ' :: e.label ++ " | ".toList ++ e.kind

def listing (es : List Entry) : Text := es.flatMap fun e => e.shown ++ ['\n']

theorem flatten_entries (es : List Entry) : (es.flatMap Entry.pieces).flatten = listing es :=
  flatten_pieces (fun e => by simp [Entry.pieces, Entry.shown]) es

/-- The dump of a tree is a line for each of its nodes. -/
theorem tree_eq_listing (t : Tree) :
    (tree t).flatten = listing ((t.preorder 1).map fun (depth, t) => entry depth t) := by
  rw [tree, pieces_eq (writeTree_lists 1 t), flatten_entries]

theorem program_eq_listing (body : Block) (table : List Variable) :
    (program body table).flatten = listing ((Node.ofProgram body table).entries 1) := by
  rw [program, pieces_eq (writeProgram_lists table body), flatten_entries]

/-- Writing to a sink and to a draft, the same pieces are cut short or not. -/
theorem truncated_pieces {f : Sink → Except Sink Sink} {g : Draft → Except Draft Draft}
    {ts : List Text} (hf : Writes f ts) (hg : Writes g ts) (limit : Nat) :
    Truncated limit (pieces g).flatten (f (.empty limit)) := by
  rw [pieces_eq hg, hf, Sink.writeAll_eq_write]
  exact truncated_write limit ts.flatten

end Dump

/-- What the outputs of a compilation leave in a sink with room for `limit` bytes: the first bytes of
the whole output, and a failure if and only if it is longer. Emission that does not fail reports the
errors that generating reports. -/
theorem outputs_truncated (limit : Nat) :
    (∀ (program : Block) (table : List Variable),
      Truncated limit (Target.generate program table).text
        ((Target.emit program table (.empty limit)).map Prod.fst) ∧
      ∀ s errors, Target.emit program table (.empty limit) = .ok (s, errors) →
        errors = (Target.generate program table).errors) ∧
    (∀ ts, Truncated limit (Dump.tokens ts).flatten (Dump.writeTokens ts (.empty limit))) ∧
    (∀ t, Truncated limit (Dump.tree t).flatten (Dump.writeTree 1 t (.empty limit))) ∧
    (∀ program table, Truncated limit (Dump.program program table).flatten
      (Dump.writeProgram program table (.empty limit))) := by
  refine ⟨fun program table => ?_,
    fun ts => Dump.truncated_pieces (Dump.writeTokens_writes ts) (Dump.writeTokens_writes ts) limit,
    fun t => Dump.truncated_pieces (Dump.writeTree_lists 1 t) (Dump.writeTree_lists 1 t) limit,
    fun program table => Dump.truncated_pieces (Dump.writeProgram_lists table program)
      (Dump.writeProgram_lists table program) limit⟩
  have htruncated := truncated_write limit (Target.generate program table).text
  rw [Target.emit_eq_write]
  cases hwrite : (Sink.empty limit).write (Target.generate program table).text.utf8 with
  | error s =>
    rw [hwrite] at htruncated
    refine ⟨htruncated, ?_⟩
    rintro _ _ ⟨⟩
  | ok s =>
    rw [hwrite] at htruncated
    refine ⟨htruncated, ?_⟩
    rintro _ _ ⟨⟩
    rfl

end ImpC
