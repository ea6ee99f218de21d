import ImpC.Proofs.Program.RoundTrip
import ImpC.Proofs.Program.Steps
import ImpC.Proofs.Surface.Unplaced

/-!
# Resolving apart from places

A program that is resolved with its places and the same program without them go through the same
scopes, and give the same block, the same variables and the same errors but for the places.
-/
namespace ImpC

/-- In states that `S` relates, `m` and `m'` give results that `R` relates and end in such states. -/
def Related {σ α β : Type} (S : σ → σ → Prop) (R : α → β → Prop) (m : StateM σ α)
    (m' : StateM σ β) : Prop :=
  ∀ s s', S s s' → R (m s).1 (m' s').1 ∧ S (m s).2 (m' s').2

namespace Related

variable {σ α β γ δ : Type} {S : σ → σ → Prop} {R : α → β → Prop} {Q : γ → δ → Prop}
  {m : StateM σ α} {m' : StateM σ β}

theorem pure {a : α} {b : β} (h : R a b) : Related S R (Pure.pure a) (Pure.pure b) :=
  fun _ _ hs => ⟨h, hs⟩

/-- Related parts may be put together. -/
theorem bind {f : α → StateM σ γ} {f' : β → StateM σ δ} (h : Related S R m m')
    (h' : ∀ a b, R a b → Related S Q (f a) (f' b)) : Related S Q (m >>= f) (m' >>= f') := by
  intro s s' hs
  obtain ⟨hR, hs⟩ := h s s' hs
  exact h' _ _ hR _ _ hs

theorem map {f : α → γ} {f' : β → δ} (h : Related S R m m') (h' : ∀ a b, R a b → Q (f a) (f' b)) :
    Related S Q (f <$> m) (f' <$> m') :=
  fun s s' hs => ⟨h' _ _ (h s s' hs).1, (h s s' hs).2⟩

theorem get : Related S S MonadState.get MonadState.get := fun _ _ hs => ⟨hs, hs⟩

end Related

def Variable.unplaced (v : Variable) : Variable := { v with location := nowhere }

def Assignment.unplaced (a : Assignment) : Assignment :=
  ⟨⟨nowhere, a.target.value⟩, a.value.unplaced⟩

mutual

def Statement.unplaced : Statement → Statement
  | .declaration index initial => .declaration index (initial.map Assignment.unplaced)
  | .assignment assignment => .assignment assignment.unplaced
  | .conditional condition body otherwise =>
    .conditional condition.unplaced body.unplaced otherwise.unplaced
  | .loop condition body => .loop condition.unplaced body.unplaced
  | .call _ function arguments => .call nowhere function (Expr.unplacedAll arguments)
  | .block body => .block body.unplaced

def Otherwise.unplaced : Otherwise → Otherwise
  | .nothing => .nothing
  | .block body => .block body.unplaced
  | .conditional condition body otherwise =>
    .conditional condition.unplaced body.unplaced otherwise.unplaced

def Block.unplaced : Block → Block
  | .mk scope statements => .mk scope (Statement.unplacedAll statements)

def Statement.unplacedAll : List Statement → List Statement
  | [] => []
  | s :: ss => s.unplaced :: Statement.unplacedAll ss

end

def Step.unplaced : Step → Step
  | .enter opening scope => .enter (opening.map Expr.unplaced) scope
  | .declaration index initial => .declaration index (initial.map Assignment.unplaced)
  | .assignment a => .assignment a.unplaced
  | .call _ function arguments => .call nowhere function (Expr.unplacedAll arguments)
  | .leave => .leave

mutual

/-- Steps are taken the same way with and without places. -/
theorem Statement.steps_unplaced : ∀ s : Statement, s.unplaced.steps = s.steps.map Step.unplaced
  | .declaration _ _ | .assignment _ | .call _ _ _ => rfl
  | .conditional condition body rest => by
    rw [Statement.unplaced, Statement.steps, Statement.steps, List.map_append, rest.steps_unplaced,
      body.steps_unplaced (.conditional condition)]
    rfl
  | .loop condition body => by
    rw [Statement.unplaced, Statement.steps, Statement.steps, List.map_append,
      body.steps_unplaced (.loop condition)]
    rfl
  | .block body => by
    rw [Statement.unplaced, Statement.steps, Statement.steps, List.map_append,
      body.steps_unplaced .plain]
    rfl

theorem Otherwise.steps_unplaced : ∀ o : Otherwise, o.unplaced.steps = o.steps.map Step.unplaced
  | .nothing => rfl
  | .block body => by
    rw [Otherwise.unplaced, Otherwise.steps, Otherwise.steps, List.map_append,
      body.steps_unplaced .otherwise]
    rfl
  | .conditional condition body rest => by
    rw [Otherwise.unplaced, Otherwise.steps, Otherwise.steps, List.map_append, rest.steps_unplaced,
      body.steps_unplaced (.alternative condition)]
    rfl

theorem Block.steps_unplaced : ∀ (b : Block) (opening : Opening Expr),
    (b.steps opening).map Step.unplaced = b.unplaced.steps (opening.map Expr.unplaced)
  | .mk scope statements, opening => by
    rw [Block.unplaced, Block.steps, Block.steps, List.map_cons, Statement.stepsAll_unplaced]
    rfl

theorem Statement.stepsAll_unplaced : ∀ ss : List Statement,
    Statement.stepsAll (Statement.unplacedAll ss) = (Statement.stepsAll ss).map Step.unplaced
  | [] => rfl
  | s :: ss => by
    rw [Statement.unplacedAll, Statement.stepsAll, Statement.stepsAll, List.map_append,
      s.steps_unplaced, Statement.stepsAll_unplaced ss]

end

theorem Reference.type_unplaced (table : List Variable) (r : Reference) :
    r.type (table.map Variable.unplaced) = r.type table := by
  obtain ⟨name, referent⟩ := r
  cases referent with
  | none => rfl
  | some i =>
    simp only [Reference.type, Option.bind_some, List.getElem?_map]
    cases table[i]? <;> rfl

/-- No type depends on a place. -/
theorem Expr.type_unplaced (table : List Variable) (e : Expr) :
    e.unplaced.type (table.map Variable.unplaced) = e.type table := by
  match e with
  | .literal _ _ | .call _ _ _ | .unary _ .not _ => rfl
  | .reference _ target => exact target.type_unplaced table
  | .unary _ .negate operand => rw [unplaced, type, type, type_unplaced table operand]
  | .binary _ op left right =>
    rw [unplaced, type, type, type_unplaced table left, type_unplaced table right]

namespace Resolver

/-- `r'` is `r` apart from places. -/
structure Mirrored (r r' : Resolver) : Prop where
  scopes : r'.scopes = r.scopes
  nextScope : r'.nextScope = r.nextScope
  table : r'.table = r.table.map Variable.unplaced
  errors : r'.errors.map (·.value) = r.errors.map (·.value)

/-- `m'` does what `m` does apart from places, and `f` takes them out of what `m` gives. -/
abbrev Mirrors {α : Type} (f : α → α) : StateM Resolver α → StateM Resolver α → Prop :=
  Related Mirrored fun a b => b = f a

/-- What only reads the scopes is mirrored if its result and its errors are. -/
theorem reading_mirrors {α : Type} {f : α → α} {part part' : List Scope → α × Errors}
    (h : ∀ scopes, f (part scopes).1 = (part' scopes).1 ∧
      (part scopes).2.map (·.value) = (part' scopes).2.map (·.value)) :
    Mirrors f (reading part) (reading part') := by
  intro r r' hr
  obtain ⟨hvalue, herrors⟩ := h r.scopes
  simp only [reading, hr.scopes]
  refine ⟨hvalue.symm, rfl, hr.nextScope, hr.table, ?_⟩
  rw [List.map_append, List.map_append, hr.errors, herrors]

/-- Whether a name is taken depends on its text. -/
theorem declare_mirrors (name : Located Text) (type : Ty) :
    Mirrors id (declare name type) (declare ⟨nowhere, name.value⟩ type) := by
  intro r r' hr
  cases hscopes : r.scopes with
  | nil =>
    simp only [declare, hr.scopes, hscopes]
    exact ⟨rfl, hr⟩
  | cons scope outer =>
    have hscopes' : r'.scopes = scope :: outer := hr.scopes.trans hscopes
    let bare : Located Text := ⟨nowhere, name.value⟩
    cases hname : scope.names.lookup name.value with
    | some i =>
      have hbare : scope.names.lookup bare.value = some i := hname
      rw [declare_again hscopes hname, declare_again hscopes' hbare]
      refine ⟨rfl, hr.scopes, hr.nextScope, hr.table, ?_⟩
      rw [List.map_append, List.map_append, hr.errors]
      rfl
    | none =>
      have hlength : r'.table.length = r.table.length := by rw [hr.table, List.length_map]
      have hbare : scope.names.lookup bare.value = none := hname
      rw [declare_new hscopes hname, declare_new hscopes' hbare, hlength]
      refine ⟨rfl, rfl, hr.nextScope, ?_, hr.errors⟩
      rw [List.map_append, hr.table]
      rfl

theorem declaredType_unplaced (table : List Variable) (type : Option Ty) (initial : Option Expr) :
    declaredType (table.map Variable.unplaced) type (initial.map Expr.unplaced) =
      declaredType table type initial := by
  cases type with
  | some type => rfl
  | none =>
    cases initial with
    | none => rfl
    | some value => exact value.type_unplaced table

theorem declaration_mirrors (name : Located Text) (type : Option Ty)
    (initial : Option Surface.Expr) :
    Mirrors Statement.unplaced (declaration name type initial)
      (declaration ⟨nowhere, name.value⟩ type (initial.map Surface.Expr.unplaced)) := by
  -- after the initial value, whatever it is, the two go on in the same way
  have hrest : ∀ o o' : Option Expr, o' = o.map Expr.unplaced → Mirrors Statement.unplaced
      (do
        let i ← declare name (declaredType (← get).table type o)
        return .declaration i (o.map fun value => ⟨⟨name.location, ⟨name.value, some i⟩⟩, value⟩))
      (do
        let i ← declare ⟨nowhere, name.value⟩ (declaredType (← get).table type o')
        return .declaration i (o'.map fun value => ⟨⟨nowhere, ⟨name.value, some i⟩⟩, value⟩)) := by
    rintro o o' rfl
    refine Related.get.bind fun r r' hr => ?_
    rw [hr.table, declaredType_unplaced]
    refine (declare_mirrors name _).bind fun i i' hi => Related.pure ?_
    subst hi
    cases o <;> rfl
  cases initial with
  | none => exact hrest none none rfl
  | some value =>
    have hvalue : Mirrors (Option.map Expr.unplaced) (some <$> reading (expression · value))
        (some <$> reading (expression · value.unplaced)) :=
      (reading_mirrors (expression_unplaced · value)).map fun _ _ h => congrArg some h
    exact hvalue.bind hrest

theorem inScope_mirrors {body body' : StateM Resolver (List Statement)}
    (h : Mirrors Statement.unplacedAll body body') :
    Mirrors Block.unplaced (inScope body) (inScope body') := by
  intro r r' hr
  let inner (r : Resolver) : Resolver :=
    ⟨⟨r.nextScope, []⟩ :: r.scopes, r.nextScope + 1, r.table, r.errors⟩
  have hinner : Mirrored (inner r) (inner r') :=
    ⟨by simp only [inner, hr.scopes, hr.nextScope], congrArg (· + 1) hr.nextScope, hr.table,
      hr.errors⟩
  obtain ⟨hbody, hend⟩ := h _ _ hinner
  have hblock : Block.mk r'.nextScope (body' (inner r')).1 =
      (Block.mk r.nextScope (body (inner r)).1).unplaced := by
    rw [Block.unplaced, hbody, hr.nextScope]
  exact ⟨hblock, congrArg List.tail hend.scopes, hend.nextScope, hend.table, hend.errors⟩

mutual

/-- Without places, statements are resolved to the same ones and report the same errors. -/
theorem statement_mirrors : ∀ s : Surface.Statement,
    Mirrors Statement.unplaced (statement s) (statement s.unplaced)
  | .declaration name type initial => declaration_mirrors name type initial
  | .assignment target value =>
    (reading_mirrors (f := id)
      (reference_unplaced · target.location target.value)).bind fun _ _ htarget =>
    (reading_mirrors (expression_unplaced · value)).bind fun _ _ hvalue => .pure (by
      rw [htarget, hvalue]
      rfl)
  | .conditional condition body rest =>
    (reading_mirrors (expression_unplaced · condition)).bind fun _ _ hcondition =>
    (inScope_mirrors (statements_mirrors body)).bind fun _ _ hbody =>
    (otherwise_mirrors rest).bind fun _ _ hrest => .pure (by
      rw [hcondition, hbody, hrest, Statement.unplaced])
  | .loop condition body =>
    (reading_mirrors (expression_unplaced · condition)).bind fun _ _ hcondition =>
    (inScope_mirrors (statements_mirrors body)).bind fun _ _ hbody => .pure (by
      rw [hcondition, hbody, Statement.unplaced])
  | .call _ function arguments =>
    (reading_mirrors (expressions_unplaced · arguments)).bind fun _ _ harguments => .pure (by
      rw [harguments, Statement.unplaced])
  | .block body =>
    (inScope_mirrors (statements_mirrors body)).bind fun _ _ hbody => .pure (by
      rw [hbody, Statement.unplaced])

theorem otherwise_mirrors : ∀ o : Surface.Otherwise,
    Mirrors Otherwise.unplaced (otherwise o) (otherwise o.unplaced)
  | .nothing => .pure rfl
  | .block body =>
    (inScope_mirrors (statements_mirrors body)).bind fun _ _ hbody => .pure (by
      rw [hbody, Otherwise.unplaced])
  | .conditional condition body rest =>
    (reading_mirrors (expression_unplaced · condition)).bind fun _ _ hcondition =>
    (inScope_mirrors (statements_mirrors body)).bind fun _ _ hbody =>
    (otherwise_mirrors rest).bind fun _ _ hrest => .pure (by
      rw [hcondition, hbody, hrest, Otherwise.unplaced])

theorem statements_mirrors : ∀ ss : List Surface.Statement,
    Mirrors Statement.unplacedAll (statements ss) (statements (Surface.Statement.unplacedAll ss))
  | [] => .pure rfl
  | s :: ss =>
    (statement_mirrors s).bind fun _ _ hs =>
    (statements_mirrors ss).bind fun _ _ hss => .pure (by
      rw [hs, hss, Statement.unplacedAll])

end

end Resolver

/-- Resolving without places gives what resolving with them gives, without its places. -/
theorem resolve_unplaced (body : List Surface.Statement) :
    (resolve (Surface.Statement.unplacedAll body)).program = (resolve body).program.unplaced ∧
      (resolve (Surface.Statement.unplacedAll body)).table =
        (resolve body).table.map Variable.unplaced ∧
      (resolve (Surface.Statement.unplacedAll body)).errors.map (·.value) =
        (resolve body).errors.map (·.value) := by
  obtain ⟨hprogram, hend⟩ := Resolver.inScope_mirrors (Resolver.statements_mirrors body)
    ⟨[], 0, [], []⟩ ⟨[], 0, [], []⟩ ⟨rfl, rfl, rfl, rfl⟩
  exact ⟨hprogram, hend.table, hend.errors⟩

end ImpC
