import ImpC.Program.Resolve
import ImpC.Proofs.Surface.Steps

/-!
# Programs step by step

Resolving a program is a run over its steps, and gives the steps of the resolved program. What holds
of the states of a run is proved for one step; what holds of a resolved program is said of its steps,
each with the scopes around it, and proved by induction on the run.
-/
namespace ImpC

/-- A step of a resolved program. A block is entered with the number of its scope. -/
inductive Step where
  | enter (opening : Opening Expr) (scope : Nat)
  | declaration (index : Nat) (initial : Option Assignment)
  | assignment (assignment : Assignment)
  | call (location : Location) (function : Text) (arguments : List Expr)
  | leave

mutual

def Statement.steps : Statement → List Step
  | .declaration index initial => [.declaration index initial]
  | .assignment a => [.assignment a]
  | .conditional condition body rest => body.steps (.conditional condition) ++ rest.steps
  | .loop condition body => body.steps (.loop condition) ++ [.leave]
  | .call location function arguments => [.call location function arguments]
  | .block body => body.steps .plain ++ [.leave]

/-- The steps after the statements of the block before, which is still to be left. -/
def Otherwise.steps : Otherwise → List Step
  | .nothing => [.leave]
  | .block body => body.steps .otherwise ++ [.leave]
  | .conditional condition body rest => body.steps (.alternative condition) ++ rest.steps

/-- The steps up to the end of a block, which is not left. -/
def Block.steps (opening : Opening Expr) : Block → List Step
  | .mk scope statements => .enter opening scope :: Statement.stepsAll statements

def Statement.stepsAll : List Statement → List Step
  | [] => []
  | s :: ss => s.steps ++ Statement.stepsAll ss

end

namespace Step

def scope? : Step → Option Nat
  | .enter _ scope => some scope
  | _ => none

/-- The variable that is assigned to, with its place. -/
def target? : Step → Option (Located Reference)
  | .declaration _ (some a) | .assignment a => some a.target
  | _ => none

def value? : Step → Option Expr
  | .enter opening _ => opening.condition?
  | .declaration _ none | .leave => none
  | .declaration _ (some a) | .assignment a => some a.value
  | .call location function arguments => some (.call location function arguments)

/-- The scopes around what a step evaluates, where `path` are those around the place before it. -/
def outer (path : List Nat) : Step → List Nat
  | .enter opening _ => opening.outer path
  | _ => path

/-- The scopes around the place after a step. -/
def after (path : List Nat) : Step → List Nat
  | .enter opening scope => scope :: opening.outer path
  | .leave => path.tail
  | _ => path

end Step

/-- All but the first step of a program are taken inside a block. -/
def Step.isInner : Step → Bool
  | .enter .main _ => false
  | _ => true

mutual

/-- A statement never opens the block of the program. -/
theorem Statement.inner_steps : ∀ s : Statement, ∀ step ∈ s.steps, step.isInner = true
  | .declaration _ _ | .assignment _ | .call _ _ _ => List.forall_mem_singleton.mpr rfl
  | .conditional _ body rest =>
    List.forall_mem_append.mpr ⟨body.inner_steps (fun _ => rfl), rest.inner_steps⟩
  | .loop _ body | .block body =>
    List.forall_mem_append.mpr ⟨body.inner_steps (fun _ => rfl), List.forall_mem_singleton.mpr rfl⟩

theorem Otherwise.inner_steps : ∀ o : Otherwise, ∀ step ∈ o.steps, step.isInner = true
  | .nothing => List.forall_mem_singleton.mpr rfl
  | .block body =>
    List.forall_mem_append.mpr ⟨body.inner_steps (fun _ => rfl), List.forall_mem_singleton.mpr rfl⟩
  | .conditional _ body rest =>
    List.forall_mem_append.mpr ⟨body.inner_steps (fun _ => rfl), rest.inner_steps⟩

theorem Block.inner_steps {opening : Opening Expr}
    (h : ∀ scope, (Step.enter opening scope).isInner = true) :
    ∀ b : Block, ∀ step ∈ b.steps opening, step.isInner = true
  | .mk scope statements => List.forall_mem_cons.mpr ⟨h scope, Statement.inner_stepsAll statements⟩

theorem Statement.inner_stepsAll :
    ∀ ss : List Statement, ∀ step ∈ Statement.stepsAll ss, step.isInner = true
  | [] => nofun
  | s :: ss => List.forall_mem_append.mpr ⟨s.inner_steps, Statement.inner_stepsAll ss⟩

end

/-- Steps with the scopes around what they evaluate, the innermost first. -/
def Step.placed : List Nat → List Step → List (List Nat × Step)
  | _, [] => []
  | path, step :: steps => (step.outer path, step) :: placed (step.after path) steps

theorem Step.map_placed (path : List Nat) (steps : List Step) :
    (placed path steps).map Prod.snd = steps := by
  induction steps generalizing path with
  | nil => rfl
  | cons s steps ih => rw [placed, List.map_cons, ih]

/-- The scopes around the place after some steps. -/
def Step.afterAll (path : List Nat) (steps : List Step) : List Nat := steps.foldl Step.after path

theorem Step.afterAll_append (path : List Nat) (steps more : List Step) :
    afterAll path (steps ++ more) = afterAll (afterAll path steps) more :=
  List.foldl_append

mutual

/-- After a statement the scopes around are those before it. -/
theorem Statement.after_steps (path : List Nat) :
    ∀ s : Statement, Step.afterAll path s.steps = path
  | .declaration _ _ | .assignment _ | .call _ _ _ => rfl
  | .conditional _ body rest => by
    rw [Statement.steps, Step.afterAll_append, Block.after_steps, Otherwise.after_steps]
    rfl
  | .loop _ body | .block body => by
    rw [Statement.steps, Step.afterAll_append, Block.after_steps]
    rfl

theorem Otherwise.after_steps (path : List Nat) :
    ∀ o : Otherwise, Step.afterAll path o.steps = path.tail
  | .nothing => rfl
  | .block body => by
    rw [Otherwise.steps, Step.afterAll_append, Block.after_steps]
    rfl
  | .conditional _ body rest => by
    rw [Otherwise.steps, Step.afterAll_append, Block.after_steps, Otherwise.after_steps]
    rfl

/-- What is opened inside a block is closed inside it, so only its own scope is left open. -/
theorem Block.after_steps (path : List Nat) (opening : Opening Expr) :
    ∀ b : Block, Step.afterAll path (b.steps opening) = b.scope :: opening.outer path
  | .mk scope statements => Statement.after_stepsAll (scope :: opening.outer path) statements

theorem Statement.after_stepsAll (path : List Nat) :
    ∀ ss : List Statement, Step.afterAll path (Statement.stepsAll ss) = path
  | [] => rfl
  | s :: ss => by
    rw [Statement.stepsAll, Step.afterAll_append, Statement.after_steps, Statement.after_stepsAll]

end

namespace Block

/-- The scopes of the blocks of a program, in order. -/
def scopes (program : Block) : List Nat := (program.steps .main).filterMap Step.scope?

/-- The expressions that a program evaluates, in order. -/
def values (program : Block) : List Expr := (program.steps .main).filterMap Step.value?

end Block

namespace Resolver

def enter (r : Resolver) : Resolver :=
  { r with scopes := ⟨r.nextScope, []⟩ :: r.scopes, nextScope := r.nextScope + 1 }

def leave (r : Resolver) : Resolver := { r with scopes := r.scopes.tail }

def report (errors : Errors) (r : Resolver) : Resolver := { r with errors := r.errors ++ errors }

/-- The state in which a block is entered. -/
def before (o : Opening Surface.Expr) (r : Resolver) : Resolver :=
  if o.closes then r.leave else r

/-- The state after the condition of a block. -/
def guard (o : Opening Surface.Expr) (r : Resolver) : Resolver :=
  match o.condition? with
  | none => r
  | some x => r.report (expression r.scopes x).2

/-- A variable is declared after its initial value has been read. -/
def introduce (name : Located Text) (type : Option Ty) :
    Option Surface.Expr → Resolver → Step × Resolver
  | none, r =>
    let (i, r) := declare name (declaredType r.table type none) r
    (.declaration i none, r)
  | some x, r =>
    let (value, errors) := expression r.scopes x
    let (i, r) := declare name (declaredType r.table type (some value)) (r.report errors)
    (.declaration i (some ⟨⟨name.location, ⟨name.value, some i⟩⟩, value⟩), r)

/-- What resolving makes of a step. -/
def step : Surface.Step → Resolver → Step × Resolver
  | .enter opening, r =>
    let r := r.before opening
    (.enter (opening.map fun x => (expression r.scopes x).1) (r.guard opening).nextScope,
      (r.guard opening).enter)
  | .declaration name type initial, r => introduce name type initial r
  | .assignment target value, r =>
    let (reference, errors) := reference r.scopes target.location target.value
    let (value, more) := expression r.scopes value
    (.assignment ⟨⟨target.location, reference⟩, value⟩, (r.report errors).report more)
  | .call location function arguments, r =>
    let (arguments, errors) := expressions r.scopes arguments
    (.call location function arguments, r.report errors)
  | .leave, r => (.leave, r.leave)

def run : List Surface.Step → Resolver → List Step × Resolver
  | [], r => ([], r)
  | s :: steps, r =>
    ((step s r).1 :: (run steps (step s r).2).1, (run steps (step s r).2).2)

/-- Steps are resolved one after the other. -/
theorem run_append (steps more : List Surface.Step) (r : Resolver) :
    run (steps ++ more) r =
      ((run steps r).1 ++ (run more (run steps r).2).1, (run more (run steps r).2).2) := by
  induction steps generalizing r with
  | nil => rfl
  | cons s steps ih => simp only [List.cons_append, run, ih]

theorem declaration_run (name : Located Text) (type : Option Ty) (initial : Option Surface.Expr)
    (r : Resolver) :
    run [.declaration name type initial] r =
      ((declaration name type initial r).1.steps, (declaration name type initial r).2) := by
  cases initial <;> rfl

/-- The run over a block: its statements are run over in a scope of their own, which is still to be
left. -/
theorem block_run {body : List Surface.Statement}
    (h : ∀ r, run (Surface.Statement.stepsAll body) r =
      (Statement.stepsAll (statements body r).1, (statements body r).2))
    (opening : Opening Surface.Expr) (more : List Surface.Step) (r : Resolver) :
    let r' := (r.before opening).guard opening
    run (.enter opening :: (Surface.Statement.stepsAll body ++ more)) r =
      ((inScope (statements body) r').1.steps
          (opening.map fun x => (expression (r.before opening).scopes x).1) ++
        (run more (statements body r'.enter).2).1, (run more (statements body r'.enter).2).2) := by
  intro r'
  rw [run, run_append, h]
  rfl

mutual

/-- Resolving a statement is a run over its steps. -/
theorem statement_run : ∀ (s : Surface.Statement) (r : Resolver),
    run s.steps r = ((statement s r).1.steps, (statement s r).2)
  | .declaration name type initial, r => declaration_run name type initial r
  | .assignment _ _, _ | .call _ _ _, _ => rfl
  | .conditional condition body rest, r => by
    rw [Surface.Statement.steps, block_run (statements_run body), otherwise_run rest]
    rfl
  | .loop condition body, r => by
    rw [Surface.Statement.steps, block_run (statements_run body)]
    rfl
  | .block body, r => by
    rw [Surface.Statement.steps, block_run (statements_run body)]
    rfl

/-- The block before is left first. -/
theorem otherwise_run : ∀ (o : Surface.Otherwise) (r : Resolver),
    run o.steps r = ((otherwise o r.leave).1.steps, (otherwise o r.leave).2)
  | .nothing, _ => rfl
  | .block body, r => by
    rw [Surface.Otherwise.steps, block_run (statements_run body)]
    rfl
  | .conditional condition body rest, r => by
    rw [Surface.Otherwise.steps, block_run (statements_run body), otherwise_run rest]
    rfl

/-- To resolve statements is to resolve their steps. -/
theorem statements_run : ∀ (ss : List Surface.Statement) (r : Resolver),
    run (Surface.Statement.stepsAll ss) r =
      (Statement.stepsAll (statements ss r).1, (statements ss r).2)
  | [], _ => rfl
  | s :: ss, r => by
    rw [Surface.Statement.stepsAll, run_append, statement_run s, statements_run ss, statements_cons]
    rfl

end

def start : Resolver := ⟨[], 0, [], []⟩

/-- The block of the program is not left. -/
theorem program_run (body : List Surface.Statement) :
    run (Surface.steps body) .start =
      ((resolve body).program.steps .main, (statements body start.enter).2) := by
  have hrun := block_run (statements_run body) .main [] .start
  rw [List.append_nil] at hrun
  rw [Surface.steps, hrun]
  exact Prod.ext (List.append_nil _) rfl

end Resolver

/-- Resolving a program is a run over its steps. -/
theorem resolve_run (body : List Surface.Statement) :
    (Resolver.run (Surface.steps body) .start).1 = (resolve body).program.steps .main ∧
      (Resolver.run (Surface.steps body) .start).2.table = (resolve body).table ∧
      (Resolver.run (Surface.steps body) .start).2.errors = (resolve body).errors := by
  rw [Resolver.program_run]
  exact ⟨rfl, rfl, rfl⟩

namespace Resolver

def path (scopes : List Scope) : List Nat := scopes.map (·.number)

section Fields

variable (r : Resolver) (o : Opening Surface.Expr)

@[simp] theorem before_scopes : (r.before o).scopes = o.outer r.scopes := by
  unfold before Opening.outer
  split <;> rfl

@[simp] theorem before_table : (r.before o).table = r.table := by
  unfold before
  split <;> rfl

@[simp] theorem before_nextScope : (r.before o).nextScope = r.nextScope := by
  unfold before
  split <;> rfl

@[simp] theorem guard_scopes : (r.guard o).scopes = r.scopes := by
  unfold guard
  split <;> rfl

@[simp] theorem guard_table : (r.guard o).table = r.table := by
  unfold guard
  split <;> rfl

@[simp] theorem guard_nextScope : (r.guard o).nextScope = r.nextScope := by
  unfold guard
  split <;> rfl

end Fields

/-- Whatever resolving does to a state, it keeps the property. -/
structure Kept (P : Resolver → Prop) : Prop where
  report : ∀ {r}, P r → ∀ errors, P (r.report errors)
  declare : ∀ {r}, P r → ∀ name type, P (declare name type r).2
  enter : ∀ {r}, P r → P r.enter
  leave : ∀ {r}, P r → P r.leave

section Kept

variable {P : Resolver → Prop} {r : Resolver}

theorem Kept.before (h : Kept P) (hr : P r) (o : Opening Surface.Expr) : P (r.before o) := by
  unfold Resolver.before
  split
  · exact h.leave hr
  · exact hr

theorem Kept.guard (h : Kept P) (hr : P r) (o : Opening Surface.Expr) : P (r.guard o) := by
  unfold Resolver.guard
  split
  · exact hr
  · exact h.report hr _

theorem Kept.step (h : Kept P) (hr : P r) (s : Surface.Step) : P (step s r).2 := by
  cases s with
  | enter opening => exact h.enter (h.guard (h.before hr opening) opening)
  | declaration name type initial =>
    cases initial with
    | none => exact h.declare hr _ _
    | some x => exact h.declare (h.report hr _) _ _
  | assignment target value => exact h.report (h.report hr _) _
  | call location function arguments => exact h.report hr _
  | leave => exact h.leave hr

/-- What each operation of the resolver keeps is kept by every run of steps. -/
theorem Kept.run (h : Kept P) (hr : P r) (steps : List Surface.Step) : P (run steps r).2 := by
  induction steps generalizing r with
  | nil => exact hr
  | cons s steps ih => exact ih (h.step hr s)

end Kept

theorem declare_path (name : Located Text) (type : Ty) (r : Resolver) :
    path (declare name type r).2.scopes = path r.scopes := by
  unfold declare
  split
  · rfl
  · rename_i scope outer hr
    split
    · rfl
    · simp [path, hr]

theorem declare_nextScope (name : Located Text) (type : Ty) (r : Resolver) :
    (declare name type r).2.nextScope = r.nextScope := by
  unfold declare
  split
  · rfl
  · split <;> rfl

/-- A name is added to the table or reported. -/
theorem declare_grows (name : Located Text) (type : Ty) (r : Resolver) :
    r.table <+: (declare name type r).2.table := by
  unfold declare
  split
  · exact List.prefix_refl _
  · split
    · exact List.prefix_refl _
    · exact List.prefix_append _ _

/-- The table only grows. -/
theorem grows_kept (table : List Variable) : Kept fun r => table <+: r.table where
  report h _ := h
  declare {r} h name type := h.trans (declare_grows name type r)
  enter h := h
  leave h := h

/-- Nothing in the table is changed or removed. -/
theorem run_grows (steps : List Surface.Step) (r : Resolver) : r.table <+: (run steps r).2.table :=
  (grows_kept r.table).run (List.prefix_refl _) steps

/-- A new variable is at the name that is declared. -/
theorem mem_declare_table {name : Located Text} {type : Ty} {r : Resolver} {v : Variable}
    (h : v ∈ (declare name type r).2.table) :
    v ∈ r.table ∨ v.name = name.value ∧ v.location = name.location := by
  unfold declare at h
  split at h
  · exact .inl h
  · split at h
    · exact .inl h
    · refine (List.mem_append.mp h).imp_right fun hv => ?_
      rw [List.mem_singleton.mp hv]
      exact ⟨rfl, rfl⟩

theorem mem_step_table {s : Surface.Step} {r : Resolver} {v : Variable}
    (h : v ∈ (step s r).2.table) :
    v ∈ r.table ∨ ∃ n ∈ s.name?, v.name = n.value ∧ v.location = n.location := by
  cases s with
  | enter opening =>
    have htable : (step (.enter opening) r).2.table = r.table := by simp [step, enter]
    exact .inl (htable ▸ h)
  | declaration name type initial =>
    have hdeclare (r : Resolver) (type : Ty) (h : v ∈ (declare name type r).2.table) :
        v ∈ r.table ∨ ∃ n ∈ some name, v.name = n.value ∧ v.location = n.location :=
      (mem_declare_table h).imp_right fun hv => ⟨name, rfl, hv⟩
    cases initial with
    | none => exact hdeclare r _ h
    | some x => exact hdeclare (r.report _) _ h
  | assignment | call | leave => exact .inl h

/-- All variables are at names that are declared. -/
theorem mem_run_table {steps : List Surface.Step} {r : Resolver} {v : Variable}
    (h : v ∈ (run steps r).2.table) :
    v ∈ r.table ∨ ∃ s ∈ steps, ∃ n ∈ s.name?, v.name = n.value ∧ v.location = n.location := by
  induction steps generalizing r with
  | nil => exact .inl h
  | cons s steps ih =>
    rcases ih h with hv | ⟨t, ht, hn⟩
    · exact (mem_step_table hv).imp_right fun hn => ⟨s, List.mem_cons_self, hn⟩
    · exact .inr ⟨t, List.mem_cons_of_mem s ht, hn⟩

/-- An error of the name that a step declares or assigns to. -/
def IsNameError (s : Surface.Step) (e : Located SemanticError) : Prop :=
  ∃ n ∈ s.name?, e = ⟨n.location, .duplicateDeclaration n.value⟩ ∨
    e = ⟨n.location, .unresolvedReference n.value⟩

theorem declare_errors (name : Located Text) (type : Ty) (r : Resolver) :
    ∃ more, (declare name type r).2.errors = r.errors ++ more ∧
      ∀ e ∈ more, e = ⟨name.location, .duplicateDeclaration name.value⟩ := by
  unfold declare
  split
  · exact ⟨[], (List.append_nil _).symm, nofun⟩
  · split
    · exact ⟨_, rfl, List.forall_mem_singleton.mpr rfl⟩
    · exact ⟨[], (List.append_nil _).symm, nofun⟩

theorem reference_errors (scopes : List Scope) (location : Location) (name : Text) :
    ∀ e ∈ (reference scopes location name).2, e = ⟨location, .unresolvedReference name⟩ := by
  unfold reference
  split
  · nofun
  · exact List.forall_mem_singleton.mpr rfl

/-- What a step evaluates is resolved in some scopes. The errors of a step are those of what it
evaluates and those of its name. -/
theorem step_reads (s : Surface.Step) (r : Resolver) :
    ∃ scopes before after,
      (step s r).1.value? = s.value?.map (fun x => (expression scopes x).1) ∧
      (step s r).2.errors = r.errors ++
        (before ++ s.value?.toList.flatMap (fun x => (expression scopes x).2) ++ after) ∧
      ∀ e ∈ before ++ after, IsNameError s e := by
  cases s with
  | enter opening =>
    refine ⟨(r.before opening).scopes, [], [], Opening.condition?_map _ opening, ?_, nofun⟩
    have hbefore : (r.before opening).errors = r.errors := by
      unfold before
      split <;> rfl
    show ((r.before opening).guard opening).errors = _
    unfold guard
    split
    · rename_i hcondition
      simp [Surface.Step.value?, hcondition, hbefore]
    · rename_i x hcondition
      simp [Surface.Step.value?, hcondition, report, hbefore]
  | declaration name type initial =>
    have hname (e : Located SemanticError)
        (he : e = ⟨name.location, .duplicateDeclaration name.value⟩) :
        IsNameError (.declaration name type initial) e := ⟨name, rfl, .inl he⟩
    cases initial with
    | none =>
      obtain ⟨more, herrors, hmore⟩ := declare_errors name (declaredType r.table type none) r
      exact ⟨r.scopes, [], more, rfl, herrors, fun e he => hname e (hmore e he)⟩
    | some x =>
      -- the errors of the value come before the one of the name
      let value := expression r.scopes x
      obtain ⟨more, herrors, hmore⟩ :=
        declare_errors name (declaredType r.table type (some value.1)) (r.report value.2)
      refine ⟨r.scopes, [], more, rfl, herrors.trans ?_, fun e he => hname e (hmore e he)⟩
      simp [report, Surface.Step.value?, value]
  | assignment target value =>
    refine ⟨r.scopes, (reference r.scopes target.location target.value).2, [], rfl, ?_, ?_⟩
    · simp [step, report, Surface.Step.value?]
    · intro e he
      rw [List.append_nil] at he
      exact ⟨target, rfl, .inr (reference_errors _ _ _ e he)⟩
  | call location function arguments =>
    refine ⟨r.scopes, [], [], rfl, ?_, nofun⟩
    simp [step, report, Surface.Step.value?, expression]
  | leave => exact ⟨[], [], [], rfl, (List.append_nil _).symm, nofun⟩

/-- Whatever is evaluated in the resolved steps is evaluated in the steps, and resolved there. -/
theorem run_values {steps : List Surface.Step} {r : Resolver} {e : Expr}
    (h : e ∈ (run steps r).1.filterMap Step.value?) :
    ∃ s ∈ steps, ∃ x ∈ s.value?, ∃ scopes, e = (expression scopes x).1 := by
  induction steps generalizing r with
  | nil => cases h
  | cons s steps ih =>
    obtain ⟨scopes, -, -, hvalue, -⟩ := step_reads s r
    obtain ⟨t, ht, he⟩ := List.mem_filterMap.mp h
    rcases List.mem_cons.mp ht with rfl | ht
    · rw [hvalue] at he
      obtain ⟨x, hx, rfl⟩ := Option.map_eq_some_iff.mp he
      exact ⟨s, List.mem_cons_self, x, hx, scopes, rfl⟩
    · obtain ⟨t, ht, hx⟩ := ih (List.mem_filterMap.mpr ⟨t, ht, he⟩)
      exact ⟨t, List.mem_cons_of_mem s ht, hx⟩

/-- All errors are of names or of what is evaluated. -/
theorem run_errors {steps : List Surface.Step} {r : Resolver} {e : Located SemanticError}
    (h : e ∈ (run steps r).2.errors) :
    e ∈ r.errors ∨ ∃ s ∈ steps,
      IsNameError s e ∨ ∃ x ∈ s.value?, ∃ scopes, e ∈ (expression scopes x).2 := by
  induction steps generalizing r with
  | nil => exact .inl h
  | cons s steps ih =>
    rcases ih h with he | ⟨t, ht, hof⟩
    · obtain ⟨scopes, before, after, -, herrors, hname⟩ := step_reads s r
      rw [herrors, List.mem_append, List.mem_append, List.mem_append] at he
      rw [List.forall_mem_append] at hname
      rcases he with he | (he | he) | he
      · exact .inl he
      · exact .inr ⟨s, List.mem_cons_self, .inl (hname.1 e he)⟩
      · obtain ⟨x, hx, he⟩ := List.mem_flatMap.mp he
        exact .inr ⟨s, List.mem_cons_self, .inr ⟨x, Option.mem_toList.mp hx, scopes, he⟩⟩
      · exact .inr ⟨s, List.mem_cons_self, .inl (hname.2 e he)⟩
    · exact .inr ⟨t, List.mem_cons_of_mem s ht, hof⟩

/-- The scopes that are open after a step. -/
theorem step_path (s : Surface.Step) (r : Resolver) :
    path (step s r).2.scopes = (step s r).1.after (path r.scopes) := by
  cases s with
  | enter opening =>
    simp [step, Step.after, enter, path, Opening.map_outer]
  | declaration name type initial =>
    cases initial with
    | none => exact declare_path name _ r
    | some x => exact declare_path name _ (r.report _)
  | assignment target value => rfl
  | call location function arguments => rfl
  | leave => exact List.map_tail

/-- The scopes that are open are told by the steps alone. -/
theorem run_path (steps : List Surface.Step) (r : Resolver) :
    path (run steps r).2.scopes = Step.afterAll (path r.scopes) (run steps r).1 := by
  induction steps generalizing r with
  | nil => rfl
  | cons s steps ih =>
    rw [run, ih, step_path]
    rfl

/-- After a statement the same scopes are open as before it. -/
theorem statement_path (s : Surface.Statement) (r : Resolver) :
    path (statement s r).2.scopes = path r.scopes := by
  have hpath := run_path s.steps r
  rw [statement_run, Statement.after_steps] at hpath
  exact hpath

/-- The steps of a run stay inside the open scopes. -/
theorem nested_step {s : Surface.Step} {steps : List Surface.Step} {r : Resolver}
    (h : Surface.Nested r.scopes.length (s :: steps)) :
    Surface.Nested (step s r).2.scopes.length steps := by
  have hpath := congrArg List.length (step_path s r)
  rw [path, List.length_map] at hpath
  have hdepth : (step s r).2.scopes.length = s.depth r.scopes.length := by
    rw [hpath]
    cases s with
    | enter opening =>
      cases opening with
      | main | plain | conditional | loop => simp [step, Step.after, Opening.outer, Opening.closes,
          Opening.map, Surface.Step.depth, path]
      | otherwise | alternative =>
        have hinner := h.1 rfl
        simp [step, Step.after, Opening.outer, Opening.closes, Opening.map, Surface.Step.depth, path]
        omega
    | declaration name type initial => cases initial <;> exact List.length_map _
    | assignment | call => exact List.length_map _
    | leave => simp [step, Step.after, Surface.Step.depth, path]
  rw [hdepth]
  exact h.2

end Resolver

end ImpC
