import ImpC.Proofs.Program.Scoping
import ImpC.Proofs.Program.Lexical
import ImpC.Proofs.Program.Sites

/-!
# The table of variables

The entries of the table are numbered by their places, and no scope has two variables of one name:
whatever resolving does to its state keeps the open scopes and the table in step. Since the table only
grows, the type of an expression does not depend on what is declared after it.
-/
namespace ImpC

namespace Resolver

/-- The variables of the open scopes are in the table, and those of the table in the open scopes
that they belong to; scopes have numbers of their own, and variables have names of their own in a
scope. -/
structure Orderly (r : Resolver) : Prop where
  recorded : Recorded r.table r.scopes
  covered : ∀ s ∈ r.scopes, ∀ v ∈ r.table, v.scope = s.number →
    (s.names.lookup v.name).isSome = true
  numbers : (path r.scopes).Nodup
  numbered : r.Numbered
  keys : (r.table.map fun v => (v.name, v.scope)).Nodup
  orders : r.table.map (·.order) = List.range r.table.length

theorem Orderly.report {r : Resolver} (h : r.Orderly) (errors : Errors) :
    (r.report errors).Orderly :=
  ⟨h.recorded, h.covered, h.numbers, ⟨h.numbered.opened, h.numbered.table⟩, h.keys, h.orders⟩

theorem Orderly.enter {r : Resolver} (h : r.Orderly) : r.enter.Orderly := by
  refine ⟨List.forall_mem_cons.mpr ⟨nofun, h.recorded⟩, ?_, ?_, ⟨?_, ?_⟩, h.keys, h.orders⟩
  · refine List.forall_mem_cons.mpr ⟨fun v hv heq => ?_, h.covered⟩
    have hlt := h.numbered.table v hv
    rw [heq] at hlt
    exact absurd hlt (Nat.lt_irrefl _)
  · refine List.nodup_cons.mpr ⟨fun hmem => ?_, h.numbers⟩
    obtain ⟨s, hs, heq⟩ := List.mem_map.mp hmem
    have hlt := h.numbered.opened s hs
    rw [heq] at hlt
    exact absurd hlt (Nat.lt_irrefl _)
  · refine List.forall_mem_cons.mpr ⟨Nat.lt_succ_self _, fun s hs => ?_⟩
    exact Nat.lt_succ_of_lt (h.numbered.opened s hs)
  · exact fun v hv => Nat.lt_succ_of_lt (h.numbered.table v hv)

theorem Orderly.leave {r : Resolver} (h : r.Orderly) : r.leave.Orderly := by
  refine ⟨fun s hs => h.recorded s (List.mem_of_mem_tail hs),
    fun s hs => h.covered s (List.mem_of_mem_tail hs), ?_,
    ⟨fun s hs => h.numbered.opened s (List.mem_of_mem_tail hs), h.numbered.table⟩, h.keys, h.orders⟩
  rw [Resolver.leave, path, List.map_tail]
  exact h.numbers.tail

/-- No variable of the innermost scope has a name that the scope does not have. -/
theorem Orderly.key_fresh {r : Resolver} (h : r.Orderly) {scope : Scope} {outer : List Scope}
    (hr : r.scopes = scope :: outer) {name : Text} (hname : scope.names.lookup name = none) :
    (name, scope.number) ∉ r.table.map fun v => (v.name, v.scope) := by
  intro hkey
  obtain ⟨v, hv, heq⟩ := List.mem_map.mp hkey
  obtain ⟨rfl, hscope⟩ := Prod.mk.inj heq
  have hsome := h.covered scope (by simp [hr]) v hv hscope
  rw [hname] at hsome
  cases hsome

/-- A new variable belongs to the innermost scope, which has no variable of its name. -/
theorem Orderly.declare_new {r : Resolver} (h : r.Orderly) {scope : Scope} {outer : List Scope}
    (hr : r.scopes = scope :: outer) {name : Located Text}
    (hname : scope.names.lookup name.value = none) (type : Ty) :
    (declare name type r).2.Orderly := by
  have hnumbered := h.numbered.declare name type
  have hkey := h.key_fresh hr hname
  rw [Resolver.declare_new hr hname] at hnumbered ⊢
  have hgrow : r.table <+: r.table ++
      [⟨name.value, type, scope.number, r.table.length, name.location⟩] := List.prefix_append _ _
  have hrecorded := h.recorded.grow hgrow
  have hcovered := h.covered
  have hnumbers := h.numbers
  rw [hr] at hrecorded hcovered hnumbers
  rw [Recorded, List.forall_mem_cons] at hrecorded
  rw [List.forall_mem_cons] at hcovered
  obtain ⟨hfresh, -⟩ := List.nodup_cons.mp hnumbers
  -- the name is new in the innermost scope only, and so is its variable
  refine ⟨?_, ?_, hnumbers, hnumbered, ?_, ?_⟩
  · refine List.forall_mem_cons.mpr ⟨fun other i hi => ?_, hrecorded.2⟩
    rw [List.lookup_cons] at hi
    split at hi
    · rw [← Option.some.inj hi]
      exact ⟨_, List.getElem?_concat_length, rfl⟩
    · exact hrecorded.1 other i hi
  · refine List.forall_mem_cons.mpr ⟨?_, fun s hs => ?_⟩
    · refine List.forall_mem_append.mpr
        ⟨fun v hv heq => ?_, List.forall_mem_singleton.mpr fun _ => ?_⟩
      · rw [List.lookup_cons]
        split
        · rfl
        · exact hcovered.1 v hv heq
      · rw [List.lookup_cons_self]
        rfl
    · refine List.forall_mem_append.mpr ⟨hcovered.2 s hs, List.forall_mem_singleton.mpr ?_⟩
      intro (heq : scope.number = s.number)
      exact absurd (List.mem_map.mpr ⟨s, hs, heq.symm⟩) hfresh
  · rw [List.map_append, List.map_singleton, List.nodup_append]
    refine ⟨h.keys, by simp, ?_⟩
    rintro key hold _ hnew rfl
    rw [List.mem_singleton.mp hnew] at hold
    exact hkey hold
  · rw [List.map_append, h.orders, List.length_append, List.length_singleton, List.range_succ]
    rfl

/-- A new variable comes behind all others, in the innermost scope. -/
theorem Orderly.declare {r : Resolver} (h : r.Orderly) (name : Located Text) (type : Ty) :
    (declare name type r).2.Orderly := by
  cases hr : r.scopes with
  | nil =>
    have hnone : Resolver.declare name type r = (0, r) := by rw [Resolver.declare, hr]
    rw [hnone]
    exact h
  | cons scope outer =>
    cases hname : scope.names.lookup name.value with
    | some i =>
      rw [declare_again hr hname]
      exact h.report _
    | none => exact h.declare_new hr hname type

/-- All operations of the resolver keep the table in order. -/
theorem orderly_kept : Kept Orderly where
  report h errors := h.report errors
  declare h name type := h.declare name type
  enter h := h.enter
  leave h := h.leave

theorem statement_orderly (s : Surface.Statement) {r : Resolver} (h : r.Orderly) :
    (statement s r).2.Orderly := by
  have hrun := orderly_kept.run h s.steps
  rw [statement_run] at hrun
  exact hrun

end Resolver

section Types

/-- The type of an expression depends only on the variables it refers to. -/
theorem Expr.type_of_prefix {table table' : List Variable} (h : table <+: table') :
    ∀ e : Expr, (∀ u ∈ e.uses, ∀ i, u.value.referent = some i → i < table.length) →
      e.type table' = e.type table
  | .literal _ _, _ => rfl
  | .reference place ⟨name, none⟩, _ => rfl
  | .reference place ⟨name, some i⟩, hbound => by
    have hlt := hbound ⟨place, ⟨name, some i⟩⟩ (by simp [Expr.uses]) i rfl
    have hget : table'[i]? = table[i]? := by
      obtain ⟨more, rfl⟩ := h
      exact List.getElem?_append_left hlt
    simp only [Expr.type, Reference.type, Option.bind_some, hget]
  | .unary _ .not _, _ => rfl
  | .unary _ .negate operand, hbound => by
    rw [Expr.type, Expr.type, Expr.type_of_prefix h operand hbound]
  | .binary _ op left right, hbound => by
    have hleft := Expr.type_of_prefix h left fun u hu => hbound u (by simp [Expr.uses, hu])
    have hright := Expr.type_of_prefix h right fun u hu => hbound u (by simp [Expr.uses, hu])
    rw [Expr.type, Expr.type, hleft, hright]
  | .call _ _ _, _ => rfl

end Types

end ImpC
