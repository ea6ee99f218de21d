import Mathlib.Data.List.Basic
import ImpC.Proofs.Program.Steps

/-!
# What is met when a program is emitted

The sites of a program are its blocks, by their scopes, and the arguments of the calls that print,
in the order of the emission. In a resolved program the blocks have the scopes 0, 1, 2 and so on in
this order, and every variable belongs to one of them.
-/
namespace ImpC

inductive Site where
  | block (scope : Nat)
  | argument (value : Expr)

def Site.scope? : Site → Option Nat
  | .block scope => some scope
  | .argument _ => none

def Site.argument? : Site → Option Expr
  | .block _ => none
  | .argument value => some value

mutual

/-- The arguments to print in an expression. Those inside an argument come before it. -/
def Expr.printed : Expr → List Expr
  | .literal _ _ | .reference _ _ => []
  | .unary _ _ operand => operand.printed
  | .binary _ _ left right => left.printed ++ right.printed
  | .call _ function arguments =>
    if function = "print".toList then Expr.printedArguments arguments
    else Expr.printedAll arguments

def Expr.printedAll : List Expr → List Expr
  | [] => []
  | e :: es => e.printed ++ Expr.printedAll es

def Expr.printedArguments : List Expr → List Expr
  | [] => []
  | e :: es => e.printed ++ e :: Expr.printedArguments es

end

def Expr.sites (e : Expr) : List Site := e.printed.map .argument

/-- The arguments in the condition of a block come before the block. -/
def Step.sites (s : Step) : List Site :=
  s.value?.toList.flatMap Expr.sites ++ s.scope?.toList.map .block

def Block.sites (program : Block) : List Site := (program.steps .main).flatMap Step.sites

def Block.printed (program : Block) : List Expr := program.sites.filterMap Site.argument?

namespace Resolver

/-- All scopes that are open or have variables have been numbered. -/
structure Numbered (r : Resolver) : Prop where
  opened : ∀ s ∈ r.scopes, s.number < r.nextScope
  table : ∀ v ∈ r.table, v.scope < r.nextScope

theorem Numbered.declare {r : Resolver} (h : r.Numbered) (name : Located Text) (type : Ty) :
    (declare name type r).2.Numbered := by
  unfold Resolver.declare
  split
  · exact h
  · rename_i scope outer hscopes
    have hopened := h.opened
    rw [hscopes, List.forall_mem_cons] at hopened
    split
    · exact ⟨h.opened, h.table⟩
    · refine ⟨?_, ?_⟩
      · exact List.forall_mem_cons.mpr hopened
      · exact List.forall_mem_append.mpr ⟨h.table, List.forall_mem_singleton.mpr hopened.1⟩

/-- A scope that is entered gets the next number. -/
theorem Numbered.enter {r : Resolver} (h : r.Numbered) : r.enter.Numbered := by
  refine ⟨List.forall_mem_cons.mpr ⟨Nat.lt_succ_self _, fun s hs => ?_⟩, fun v hv => ?_⟩
  · exact Nat.lt_succ_of_lt (h.opened s hs)
  · exact Nat.lt_succ_of_lt (h.table v hv)

theorem numbered_kept : Kept Numbered where
  report h _ := ⟨h.opened, h.table⟩
  declare h name type := h.declare name type
  enter h := h.enter
  leave h := ⟨fun s hs => h.opened s (List.mem_of_mem_tail hs), h.table⟩

/-- The number of the scope that a step enters is the next one. -/
theorem step_numbers (s : Surface.Step) (r : Resolver) :
    ∃ n, (step s r).2.nextScope = r.nextScope + n ∧
      (step s r).1.scope?.toList = List.range' r.nextScope n := by
  cases s with
  | enter opening =>
    refine ⟨1, ?_, ?_⟩
    · simp [step, enter]
    · simp [step, Step.scope?]
  | declaration name type initial =>
    cases initial with
    | none => exact ⟨0, declare_nextScope name _ r, rfl⟩
    | some x => exact ⟨0, declare_nextScope name _ (r.report _), rfl⟩
  | assignment | call | leave => exact ⟨0, rfl, rfl⟩

theorem run_numbers (steps : List Surface.Step) (r : Resolver) :
    ∃ n, (run steps r).2.nextScope = r.nextScope + n ∧
      (run steps r).1.filterMap Step.scope? = List.range' r.nextScope n := by
  induction steps generalizing r with
  | nil => exact ⟨0, rfl, rfl⟩
  | cons s steps ih =>
    obtain ⟨m, hfirst, hscope⟩ := step_numbers s r
    obtain ⟨n, hmore, hscopes⟩ := ih (step s r).2
    refine ⟨m + n, ?_, ?_⟩
    · rw [run, hmore, hfirst, Nat.add_assoc]
    · rw [List.filterMap_eq_flatMap_toList] at hscopes ⊢
      rw [run, List.flatMap_cons, hscope, hscopes, hfirst, List.range'_append_1]

end Resolver

/-- The blocks of a resolved program are numbered in order, and its variables belong to them. -/
theorem resolve_scopes (body : List Surface.Statement) :
    ∃ n, (resolve body).program.scopes = List.range n ∧
      ∀ v ∈ (resolve body).table, v.scope < n := by
  obtain ⟨hsteps, htable, -⟩ := resolve_run body
  have hend := Resolver.numbered_kept.run (r := .start) ⟨nofun, nofun⟩ (Surface.steps body)
  obtain ⟨n, hnext, hscopes⟩ := Resolver.run_numbers (Surface.steps body) .start
  refine ⟨n, ?_, fun v hv => ?_⟩
  · rw [Block.scopes, ← hsteps, hscopes, List.range_eq_range']
    rfl
  · have hlt := hend.table v (htable ▸ hv)
    rw [hnext] at hlt
    exact Nat.zero_add n ▸ hlt

end ImpC
