import ImpC.Proofs.Surface.Places
import ImpC.Proofs.Program.Correspondence
import ImpC.Proofs.Target.Declaring
import ImpC.Proofs.Target.Expression

/-!
# Places in a resolved program

Resolving adds no places. The expressions of a program are those of the text with their names resolved,
and every variable and every error is at a name or at an expression.
-/
namespace ImpC

theorem Expr.mem_parts (e : Expr) : e ∈ e.parts := by
  cases e <;> simp [Expr.parts]

mutual

/-- An argument to print is a part of the expression that prints it. -/
theorem Expr.printed_subset : ∀ e : Expr, ∀ a ∈ e.printed, a ∈ e.parts
  | .literal _ _, _, ha | .reference _ _, _, ha => by cases ha
  | .unary _ _ operand, a, ha => List.mem_cons_of_mem _ (operand.printed_subset a ha)
  | .binary _ _ left right, a, ha => by
    rcases List.mem_append.mp ha with ha | ha
    · exact List.mem_cons_of_mem _ (List.mem_append_left _ (left.printed_subset a ha))
    · exact List.mem_cons_of_mem _ (List.mem_append_right _ (right.printed_subset a ha))
  | .call _ function arguments, a, ha => by
    rw [Expr.printed] at ha
    split at ha
    · exact List.mem_cons_of_mem _ (Expr.printedArguments_subset arguments a ha)
    · exact List.mem_cons_of_mem _ (Expr.printedAll_subset arguments a ha)

theorem Expr.printedAll_subset : ∀ es : List Expr, ∀ a ∈ Expr.printedAll es, a ∈ Expr.partsAll es
  | [], _, ha => by cases ha
  | e :: es, a, ha => by
    rcases List.mem_append.mp ha with ha | ha
    · exact List.mem_append_left _ (e.printed_subset a ha)
    · exact List.mem_append_right _ (Expr.printedAll_subset es a ha)

theorem Expr.printedArguments_subset : ∀ es : List Expr,
    ∀ a ∈ Expr.printedArguments es, a ∈ Expr.partsAll es
  | [], _, ha => by cases ha
  | e :: es, a, ha => by
    rcases List.mem_append.mp ha with ha | ha
    · exact List.mem_append_left _ (e.printed_subset a ha)
    · rcases List.mem_cons.mp ha with rfl | ha
      · exact List.mem_append_left _ a.mem_parts
      · exact List.mem_append_right _ (Expr.printedArguments_subset es a ha)

end

/-- The sites of an expression are arguments that it has in it. -/
theorem Expr.mem_sites {e a : Expr} (h : .argument a ∈ e.sites) : a ∈ e.parts := by
  obtain ⟨b, hb, heq⟩ := List.mem_map.mp h
  cases heq
  exact e.printed_subset a hb

/-- What a call prints is one of the expressions of the program. -/
theorem Block.mem_sites {program : Block} {a : Expr} (h : .argument a ∈ program.sites) :
    a ∈ program.expressions := by
  obtain ⟨s, hs, hsite⟩ := List.mem_flatMap.mp h
  rcases List.mem_append.mp hsite with hvalue | hblock
  · obtain ⟨e, he, ha⟩ := List.mem_flatMap.mp hvalue
    have hvalues : e ∈ program.values := List.mem_filterMap.mpr ⟨s, hs, Option.mem_toList.mp he⟩
    exact List.mem_flatMap.mpr ⟨e, hvalues, Expr.mem_sites ha⟩
  · obtain ⟨_, -, heq⟩ := List.mem_map.mp hblock
    cases heq

namespace Resolver

section Expressions

variable (scopes : List Scope)

mutual

/-- The parts of a resolved expression are its parts resolved. -/
theorem parts_expression : ∀ x : Surface.Expr,
    (expression scopes x).1.parts = x.parts.map fun y => (expression scopes y).1
  | .literal _ _ | .name _ _ => rfl
  | .unary _ _ operand => by
    rw [Surface.Expr.parts, List.map_cons, ← parts_expression operand]
    rfl
  | .binary _ _ left right => by
    rw [Surface.Expr.parts, List.map_cons, List.map_append, ← parts_expression left,
      ← parts_expression right]
    rfl
  | .call _ _ arguments => by
    rw [Surface.Expr.parts, List.map_cons, ← partsAll_expressions arguments]
    rfl

theorem partsAll_expressions : ∀ xs : List Surface.Expr,
    Expr.partsAll (expressions scopes xs).1 =
      (Surface.Expr.partsAll xs).map fun y => (expression scopes y).1
  | [] => rfl
  | x :: xs => by
    rw [Surface.Expr.partsAll, List.map_append, ← parts_expression x, ← partsAll_expressions xs]
    rfl

end

mutual

/-- An error in an expression is at one of its parts. -/
theorem errors_expression : ∀ x : Surface.Expr, ∀ e ∈ (expression scopes x).2,
    ∃ y ∈ x.parts, e.location = y.location
  | .literal place value, e, he => by
    refine ⟨_, List.mem_singleton.mpr rfl, ?_⟩
    have hliteral : e ∈ (literal place value).2 := he
    unfold literal at hliteral
    split at hliteral
    · split at hliteral
      · cases hliteral
      · rw [List.mem_singleton.mp hliteral]
        rfl
    all_goals cases hliteral
  | .name place word, e, he => by
    refine ⟨_, List.mem_singleton.mpr rfl, ?_⟩
    have hreference : e ∈ (reference scopes place word).2 := he
    unfold reference at hreference
    split at hreference
    · cases hreference
    · rw [List.mem_singleton.mp hreference]
      rfl
  | .unary _ _ operand, e, he => by
    obtain ⟨y, hy, heq⟩ := errors_expression operand e he
    exact ⟨y, List.mem_cons_of_mem _ hy, heq⟩
  | .binary _ _ left right, e, he => by
    rcases List.mem_append.mp he with he | he
    · obtain ⟨y, hy, heq⟩ := errors_expression left e he
      exact ⟨y, List.mem_cons_of_mem _ (List.mem_append_left _ hy), heq⟩
    · obtain ⟨y, hy, heq⟩ := errors_expression right e he
      exact ⟨y, List.mem_cons_of_mem _ (List.mem_append_right _ hy), heq⟩
  | .call _ _ arguments, e, he => by
    obtain ⟨y, hy, heq⟩ := errors_expressions arguments e he
    exact ⟨y, List.mem_cons_of_mem _ hy, heq⟩

theorem errors_expressions : ∀ xs : List Surface.Expr, ∀ e ∈ (expressions scopes xs).2,
    ∃ y ∈ Surface.Expr.partsAll xs, e.location = y.location
  | [], _, he => by cases he
  | x :: xs, e, he => by
    rcases List.mem_append.mp he with he | he
    · obtain ⟨y, hy, heq⟩ := errors_expression x e he
      exact ⟨y, List.mem_append_left _ hy, heq⟩
    · obtain ⟨y, hy, heq⟩ := errors_expressions xs e he
      exact ⟨y, List.mem_append_right _ hy, heq⟩

end

end Expressions

/-- The expression is a part of one of these with its names resolved. -/
def ResolvedFrom (V : Surface.Expr → Prop) (e : Expr) : Prop :=
  ∃ x y scopes, V x ∧ y ∈ x.parts ∧ e = (expression scopes y).1

/-- The parts of a resolved expression are the resolved parts. -/
theorem resolvedFrom_parts {V : Surface.Expr → Prop} {x : Surface.Expr} (hx : V x)
    (scopes : List Scope) : ∀ e ∈ (expression scopes x).1.parts, ResolvedFrom V e := by
  intro e he
  rw [parts_expression] at he
  obtain ⟨y, hy, rfl⟩ := List.mem_map.mp he
  exact ⟨x, y, scopes, hx, hy, rfl⟩

end Resolver

/-- The expressions of a resolved program are those of the text with their names resolved, and its
variables and errors are at names and expressions. -/
theorem resolve_keeps {P : Location → Prop} {V : Surface.Expr → Prop}
    (hV : ∀ x, V x → ∀ y ∈ x.parts, P y.location) {body : List Surface.Statement}
    (h : Surface.Statement.AllOf (P ·.location) V body) :
    (∀ e ∈ (resolve body).program.expressions, Resolver.ResolvedFrom V e) ∧
      (∀ v ∈ (resolve body).table, P v.location) ∧ ∀ e ∈ (resolve body).errors, P e.location := by
  obtain ⟨hsteps, htable, herrors⟩ := resolve_run body
  have hall := Surface.all_steps h
  refine ⟨fun e he => ?_, fun v hv => ?_, fun e he => ?_⟩
  · obtain ⟨value, hvalue, he⟩ := List.mem_flatMap.mp he
    rw [Block.values, ← hsteps] at hvalue
    obtain ⟨s, hs, x, hx, scopes, rfl⟩ := Resolver.run_values hvalue
    exact Resolver.resolvedFrom_parts ((hall s hs).value x hx) scopes e he
  · rcases Resolver.mem_run_table (htable ▸ hv) with hv | ⟨s, hs, n, hn, -, heq⟩
    · cases hv
    · rw [heq]
      exact (hall s hs).name n hn
  · rcases Resolver.run_errors (herrors ▸ he) with he | ⟨s, hs, ⟨n, hn, hof⟩ | ⟨x, hx, scopes, he⟩⟩
    · cases he
    · have heq : e.location = n.location := by rcases hof with rfl | rfl <;> rfl
      rw [heq]
      exact (hall s hs).name n hn
    · obtain ⟨y, hy, heq⟩ := Resolver.errors_expression scopes x e he
      rw [heq]
      exact hV x ((hall s hs).value x hx) y hy

end ImpC
