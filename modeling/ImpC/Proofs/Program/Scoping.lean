import ImpC.Proofs.Program.Steps
import ImpC.Proofs.Surface.Words
import ImpC.Proofs.C.Literal

/-!
# The scopes of resolved programs

In a resolved program every name that refers to a variable stands inside the block of the variable's
scope: the variables of the scopes that are open are in the table, with the numbers of these scopes,
and this is what a name is looked up in.
-/
namespace ImpC

open ImpC.C

/-- The name is a word, and the variable that it refers to is one of the scopes around. -/
structure Reference.Scoped (table : List Variable) (path : List Nat) (r : Reference) : Prop where
  word : isWord r.name = true
  bound : ∀ i, r.referent = some i → ∃ v, table[i]? = some v ∧ v.scope ∈ path

mutual

def Expr.Scoped (table : List Variable) (path : List Nat) : Expr → Prop
  | .literal _ value => IsPlain value
  | .reference _ target => target.Scoped table path
  | .unary _ _ operand => operand.Scoped table path
  | .binary _ _ left right => left.Scoped table path ∧ right.Scoped table path
  | .call _ function arguments => isWord function = true ∧ Expr.ScopedAll table path arguments

def Expr.ScopedAll (table : List Variable) (path : List Nat) : List Expr → Prop
  | [] => True
  | e :: es => e.Scoped table path ∧ Expr.ScopedAll table path es

end

/-- What a step evaluates and assigns to refers to variables of the scopes around. -/
structure Step.Scoped (table : List Variable) (path : List Nat) (s : Step) : Prop where
  target : ∀ t ∈ s.target?, t.value.Scoped table path
  value : ∀ e ∈ s.value?, e.Scoped table path

/-- All references of a program stand inside the scopes of their variables. -/
def Block.Scoped (table : List Variable) (program : Block) : Prop :=
  ∀ p ∈ Step.placed [] (program.steps .main), p.2.Scoped table p.1

/-- Whatever a program evaluates stands inside the scopes of its variables. -/
theorem Block.Scoped.values {table : List Variable} {program : Block} (h : program.Scoped table)
    {e : Expr} (he : e ∈ program.values) : ∃ path, e.Scoped table path := by
  obtain ⟨s, hs, hvalue⟩ := List.mem_filterMap.mp he
  rw [← Step.map_placed [] (program.steps .main)] at hs
  obtain ⟨⟨path, s⟩, hp, rfl⟩ := List.mem_map.mp hs
  exact ⟨path, (h _ hp).value e hvalue⟩

section Growth

variable {table table' : List Variable} {path : List Nat}

theorem getElem?_of_prefix (h : table <+: table') {i : Nat} {v : Variable}
    (hv : table[i]? = some v) : table'[i]? = some v := by
  obtain ⟨more, rfl⟩ := h
  obtain ⟨hlt, -⟩ := List.getElem?_eq_some_iff.mp hv
  rw [List.getElem?_append_left hlt, hv]

/-- The table only grows, so a reference stays in scope. -/
theorem Reference.Scoped.grow (h : table <+: table') {r : Reference} (hr : r.Scoped table path) :
    r.Scoped table' path := by
  refine ⟨hr.word, fun i hi => ?_⟩
  obtain ⟨v, hv, hscope⟩ := hr.bound i hi
  exact ⟨v, getElem?_of_prefix h hv, hscope⟩

mutual

theorem Expr.scoped_grow (h : table <+: table') :
    ∀ e : Expr, e.Scoped table path → e.Scoped table' path
  | .literal _ _, he => he
  | .reference _ _, he => Reference.Scoped.grow h he
  | .unary _ _ operand, he => Expr.scoped_grow h operand he
  | .binary _ _ left right, he => ⟨Expr.scoped_grow h left he.1, Expr.scoped_grow h right he.2⟩
  | .call _ _ arguments, he => ⟨he.1, Expr.scopedAll_grow h arguments he.2⟩

theorem Expr.scopedAll_grow (h : table <+: table') :
    ∀ es : List Expr, Expr.ScopedAll table path es → Expr.ScopedAll table' path es
  | [], _ => trivial
  | e :: es, he => ⟨Expr.scoped_grow h e he.1, Expr.scopedAll_grow h es he.2⟩

end

theorem Step.Scoped.grow (h : table <+: table') {s : Step} (hs : s.Scoped table path) :
    s.Scoped table' path :=
  ⟨fun t ht => (hs.target t ht).grow h, fun e he => Expr.scoped_grow h e (hs.value e he)⟩

end Growth

theorem ofFraction_nonnegative (num den : Nat) : (Double.ofFraction num den).isNegative = false := by
  have hbound : 2047 * twoTo 52 < twoTo 63 := by decide
  have hsize : twoTo 63 < 2 ^ 64 := by decide
  unfold Double.ofFraction
  split
  · decide
  · dsimp only
    split
    · rename_i hbits
      rw [Double.isNegative, decide_eq_false_iff_not, Nat.toUInt64_eq, UInt64.toNat_ofNat']
      rw [Nat.mod_eq_of_lt (by omega)]
      omega
    · decide

namespace Resolver

/-- The variables in open scopes are in the table, with the numbers of these scopes. -/
def Recorded (table : List Variable) (scopes : List Scope) : Prop :=
  ∀ s ∈ scopes, ∀ name i, s.names.lookup name = some i →
    ∃ v, table[i]? = some v ∧ v.scope = s.number

theorem Recorded.grow {table table' : List Variable} {scopes : List Scope}
    (h : Recorded table scopes) (hgrow : table <+: table') : Recorded table' scopes := by
  intro s hs name i hi
  obtain ⟨v, hv, hscope⟩ := h s hs name i hi
  exact ⟨v, getElem?_of_prefix hgrow hv, hscope⟩

/-- What is found in the scopes is a variable of one of them. -/
theorem lookup_recorded {table : List Variable} {scopes : List Scope} (h : Recorded table scopes)
    {name : Text} {i : Nat} (hi : lookup scopes name = some i) :
    ∃ v, table[i]? = some v ∧ v.scope ∈ path scopes := by
  obtain ⟨s, hs, hlookup⟩ := List.exists_of_findSome?_eq_some hi
  obtain ⟨v, hv, hscope⟩ := h s hs name i hlookup
  exact ⟨v, hv, hscope ▸ List.mem_map_of_mem hs⟩

theorem reference_scoped {table : List Variable} {scopes : List Scope} (h : Recorded table scopes)
    {name : Text} (hname : isWord name = true) (location : Location) :
    (reference scopes location name).1.Scoped table (path scopes) := by
  unfold reference
  split
  · rename_i i hi
    exact ⟨hname, fun j hj => lookup_recorded h (Option.some.inj hj ▸ hi)⟩
  · exact ⟨hname, nofun⟩

theorem literal_plain (location : Location) (l : Surface.Literal) :
    IsPlain (literal location l).1 := by
  cases l with
  | int spelling =>
    rw [literal]
    split <;> trivial
  | float spelling => exact ofFraction_nonnegative _ _
  | bool value | str spelling => trivial

mutual

/-- Names that are not found refer to nothing, which is in scope everywhere. -/
theorem expression_scoped {table : List Variable} {scopes : List Scope}
    (h : Recorded table scopes) :
    ∀ e : Surface.Expr, e.Words → (expression scopes e).1.Scoped table (path scopes)
  | .literal location value, _ => literal_plain location value
  | .name location _, he => reference_scoped h he location
  | .unary _ _ operand, he => expression_scoped h operand he
  | .binary _ _ left right, he =>
    ⟨expression_scoped h left he.1, expression_scoped h right he.2⟩
  | .call _ _ arguments, he => ⟨he.1, expressions_scoped h arguments he.2⟩

theorem expressions_scoped {table : List Variable} {scopes : List Scope}
    (h : Recorded table scopes) :
    ∀ es : List Surface.Expr, Surface.Expr.WordsAll es →
      Expr.ScopedAll table (path scopes) (expressions scopes es).1
  | [], _ => trivial
  | e :: es, he => ⟨expression_scoped h e he.1, expressions_scoped h es he.2⟩

end

/-- A new name is recorded in the table and in the innermost scope at once. -/
theorem Recorded.declare {r : Resolver} (h : Recorded r.table r.scopes) (name : Located Text)
    (type : Ty) : Recorded (declare name type r).2.table (declare name type r).2.scopes := by
  unfold Resolver.declare
  split
  · exact h
  · rename_i scope outer hscopes
    split
    · exact h
    · have hrecorded := h.grow (List.prefix_append r.table
        [⟨name.value, type, scope.number, r.table.length, name.location⟩])
      rw [hscopes, Recorded, List.forall_mem_cons] at hrecorded
      refine List.forall_mem_cons.mpr ⟨fun other i hi => ?_, hrecorded.2⟩
      rw [List.lookup_cons] at hi
      split at hi
      · rw [← Option.some.inj hi]
        exact ⟨_, List.getElem?_concat_length, rfl⟩
      · exact hrecorded.1 other i hi

theorem recorded_kept : Kept fun r => Recorded r.table r.scopes where
  report h _ := h
  declare h name type := h.declare name type
  enter h := List.forall_mem_cons.mpr ⟨nofun, h⟩
  leave h := fun s hs => h s (List.mem_of_mem_tail hs)

/-- A variable that is declared belongs to the innermost scope. -/
theorem declare_bound {r : Resolver} (h : Recorded r.table r.scopes) (hopen : 0 < r.scopes.length)
    (name : Located Text) (type : Ty) :
    ∃ v, (declare name type r).2.table[(declare name type r).1]? = some v ∧
      v.scope ∈ path r.scopes := by
  unfold declare
  split
  · rename_i hnil
    rw [hnil] at hopen
    exact absurd hopen (Nat.lt_irrefl 0)
  · rename_i scope outer hscopes
    have hscope : scope ∈ r.scopes := by simp [hscopes]
    split
    · rename_i i hi
      obtain ⟨v, hv, hnumber⟩ := h scope hscope name.value i hi
      exact ⟨v, hv, hnumber ▸ List.mem_map_of_mem hscope⟩
    · exact ⟨_, List.getElem?_concat_length, List.mem_map_of_mem hscope⟩

/-- What is read in a step refers to the scopes that are open there. -/
theorem step_scoped {s : Surface.Step} (hs : s.All (fun n => isWord n.value = true) Surface.Expr.Words)
    {r : Resolver} (h : Recorded r.table r.scopes) (hinner : s.isInner = true → 0 < r.scopes.length) :
    (step s r).1.Scoped (step s r).2.table ((step s r).1.outer (path r.scopes)) := by
  cases s with
  | enter opening =>
    refine ⟨?_, fun e he => ?_⟩
    · rintro _ ⟨⟩
    -- an alternative is read outside the block before it
    have houter : Recorded r.table (r.before opening).scopes := by
      rw [before_scopes]
      exact fun scope hscope => h scope (Opening.mem_of_mem_outer hscope)
    have hpath : path (r.before opening).scopes = opening.outer (path r.scopes) := by
      rw [before_scopes, path, Opening.map_outer]
      rfl
    have hcondition : e ∈ opening.condition?.map fun x => (expression (r.before opening).scopes x).1 := by
      rw [← Opening.condition?_map]
      exact he
    obtain ⟨x, hx, rfl⟩ := Option.map_eq_some_iff.mp hcondition
    have hscoped := expression_scoped houter x (hs.value x hx)
    rw [hpath] at hscoped
    have htable : (step (.enter opening) r).2.table = r.table := by simp [step, enter]
    rw [htable]
    simpa [step, Step.outer] using hscoped
  | declaration name type initial =>
    cases initial with
    | none => constructor <;> rintro _ ⟨⟩
    | some x =>
      -- the value refers to the table without the new name, which only adds to it
      have hvalue := expression_scoped h x (hs.value x rfl)
      have hbound := declare_bound (r := r.report (expression r.scopes x).2) h (hinner rfl) name
        (declaredType r.table type (some (expression r.scopes x).1))
      refine ⟨?_, ?_⟩
      · rintro _ ⟨⟩
        refine ⟨hs.name name rfl, ?_⟩
        rintro _ ⟨⟩
        exact hbound
      · rintro _ ⟨⟩
        exact Expr.scoped_grow (declare_grows name _ _) _ hvalue
  | assignment target value =>
    refine ⟨?_, ?_⟩
    · rintro _ ⟨⟩
      exact reference_scoped h (hs.name target rfl) target.location
    · rintro _ ⟨⟩
      exact expression_scoped h value (hs.value value rfl)
  | call location function arguments =>
    refine ⟨?_, ?_⟩
    · rintro _ ⟨⟩
    · rintro _ ⟨⟩
      exact expression_scoped h (.call location function arguments) (hs.value _ rfl)
  | leave => constructor <;> rintro _ ⟨⟩

/-- Every step of a run refers to scopes that are open at it. -/
theorem run_scoped {steps : List Surface.Step}
    (hs : ∀ s ∈ steps, s.All (fun n => isWord n.value = true) Surface.Expr.Words) {r : Resolver}
    (h : Recorded r.table r.scopes) (hnested : Surface.Nested r.scopes.length steps) :
    ∀ p ∈ Step.placed (path r.scopes) (run steps r).1, p.2.Scoped (run steps r).2.table p.1 := by
  induction steps generalizing r with
  | nil => nofun
  | cons s steps ih =>
    rw [List.forall_mem_cons] at hs
    -- what was resolved early stays in scope as the table grows
    have hmore := ih hs.2 (recorded_kept.step h s) (nested_step hnested)
    rw [step_path] at hmore
    exact List.forall_mem_cons.mpr
      ⟨(step_scoped hs.1 h hnested.1).grow (run_grows steps (step s r).2), hmore⟩

end Resolver

/-- A program of words resolves to one in which all references stand inside the scopes of their
variables, which are called by words. -/
theorem resolve_scoped {body : List Surface.Statement} (h : Surface.Statement.WordsAll body) :
    (resolve body).program.Scoped (resolve body).table ∧
      ∀ v ∈ (resolve body).table, isWord v.name = true := by
  obtain ⟨hsteps, htable, -⟩ := resolve_run body
  have hwords := Surface.all_steps h
  have hscoped := Resolver.run_scoped hwords (r := .start) nofun (Surface.nested_steps body)
  rw [hsteps, htable] at hscoped
  refine ⟨hscoped, fun v hv => ?_⟩
  rcases Resolver.mem_run_table (htable ▸ hv) with hv | ⟨s, hs, n, hn, hname, -⟩
  · cases hv
  · rw [hname]
    exact (hwords s hs).name n hn

end ImpC
