import ImpC.Proofs.C.Scope
import ImpC.Proofs.Target.Name
import ImpC.Proofs.Program.Scoping
import ImpC.Proofs.Program.Sites

/-!
# Names are bound in C as they are resolved

All declarations of a block move to its head, and variables may change their names. Still, the uses of
identifiers in the emitted text are the references of the program, one by one, each inside the blocks
of the same scopes; and one that refers to a variable finds the declarator of this variable in the
block of its scope.
-/
namespace ImpC

/-- A reference and the scopes around it, innermost first. -/
structure Place where
  target : Reference
  path : List Nat

mutual

/-- The references that are emitted for an expression, in order. An argument to print whose type has
no counterpart in C is left out. -/
def Expr.references (table : List Variable) : Expr → List Reference
  | .literal _ _ => []
  | .reference _ target => [target]
  | .unary _ _ operand => operand.references table
  | .binary _ _ left right => left.references table ++ right.references table
  | .call _ function arguments =>
    if function = "print".toList then Expr.referencesPrinted table arguments
    else Expr.referencesAll table arguments

def Expr.referencesAll (table : List Variable) : List Expr → List Reference
  | [] => []
  | e :: es => e.references table ++ Expr.referencesAll table es

def Expr.referencesPrinted (table : List Variable) : List Expr → List Reference
  | [] => []
  | e :: es =>
    (if (Target.CType.ofTy? (e.type table)).isSome then e.references table else []) ++
      Expr.referencesPrinted table es

end

/-- The places of some references inside the scopes `path`. -/
def placesAt (path : List Nat) (rs : List Reference) : List Place := rs.map (⟨·, path⟩)

/-- The references that are emitted for a step, in order. -/
def Step.references (table : List Variable) (s : Step) : List Reference :=
  s.target?.toList.map (·.value) ++ s.value?.toList.flatMap (Expr.references table)

/-- The references that are emitted for some steps inside the scopes `path`, in order. -/
def Step.places (table : List Variable) (path : List Nat) (steps : List Step) : List Place :=
  (Step.placed path steps).flatMap fun (path, s) => placesAt path (s.references table)

/-- The references that are emitted for a program, in order. -/
def Block.places (table : List Variable) (program : Block) : List Place :=
  Step.places table [] (program.steps .main)

namespace Target

open ImpC.C

def Context.frame (k : Context) (scope : Nat) : Frame := ⟨scope, k.declarators scope⟩

/-- How a reference is read in C. -/
def Context.use (k : Context) (p : Place) : Use :=
  C.use (p.path.map k.frame) (k.nameOf p.target)

/-- How references are read in C. Those that are keywords in C are not identifiers. -/
def Context.shown (k : Context) (ps : List Place) : List Use :=
  (ps.filter fun p => !isKeyword (k.nameOf p.target)).map k.use

theorem shown_flatMap {α : Type} (k : Context) (l : List α) (places : α → List Place) :
    k.shown (l.flatMap places) = l.flatMap fun a => k.shown (places a) := by
  simp [Context.shown, List.filter_flatMap, List.map_flatMap]

/-- Names in C are uses of the frames of the scopes that are open. -/
theorem usesOf_nameOf (k : Context) (path : List Nat) (rs : List Reference) :
    usesOf (path.map k.frame) (rs.map k.nameOf) = k.shown (placesAt path rs) := by
  simp [usesOf, Context.shown, placesAt, List.filter_map, Function.comp_def, Context.use]

theorem ofTy?_names {value : Expr} {type : Ty} {a : Argument}
    (h : Argument.ofTy? value type = some a) : a.names = value.names := by
  cases type <;> cases h <;> rfl

theorem ofTy?_legible {value : Expr} {type : Ty} {a : Argument}
    (h : Argument.ofTy? value type = some a) (hvalue : value.Legible) : a.Legible := by
  cases type <;> cases h <;> exact hvalue

/-- What can be printed is what has a type in C. -/
theorem ofTy?_isSome (value : Expr) (type : Ty) :
    (Argument.ofTy? value type).isSome = (CType.ofTy? type).isSome := by
  cases type <;> rfl

mutual

/-- Lowering keeps the order of the references, except where an argument cannot be printed. -/
theorem lower_names (k : Context) : ∀ e : ImpC.Expr,
    (lower k e).1.names = (e.references k.table).map k.nameOf
  | .literal _ _ => rfl
  | .reference _ _ => rfl
  | .unary _ _ operand => lower_names k operand
  | .binary _ _ left right => by
    rw [Expr.references, List.map_append, ← lower_names k left, ← lower_names k right]
    rfl
  | .call _ function arguments => by
    rw [lower, printName, Expr.references]
    split
    · exact lowerPrinted_names k arguments
    · exact lowerAll_names k arguments

theorem lowerAll_names (k : Context) : ∀ es : List ImpC.Expr,
    (Expr.namesAll (lowerAll k es).1).flatten = (Expr.referencesAll k.table es).map k.nameOf
  | [] => rfl
  | e :: es => by
    rw [Expr.referencesAll, List.map_append, ← lower_names k e, ← lowerAll_names k es]
    rfl

theorem lowerPrinted_names (k : Context) : ∀ es : List ImpC.Expr,
    (Argument.namesAll (lowerPrinted k es).1).flatten =
      (Expr.referencesPrinted k.table es).map k.nameOf
  | [] => rfl
  | e :: es => by
    rw [Expr.referencesPrinted, List.map_append, ← lowerPrinted_names k es,
      ← ofTy?_isSome (lower k e).1, lowerPrinted]
    dsimp only
    split
    · rename_i a ha
      rw [ha, Option.isSome_some, if_pos rfl, ← lower_names k e, ← ofTy?_names ha]
      rfl
    · rename_i hnone
      rw [hnone]
      rfl

end

/-- There is a name for every variable; the names differ and are words but no keywords. -/
structure Context.Proper (k : Context) : Prop where
  length : k.names.length = k.table.length
  nodup : k.names.Nodup
  words : ∀ n ∈ k.names, isWord n = true
  free : ∀ n ∈ k.names, isKeyword n = false

/-- Names that refer to nothing stay as they are, and are words as well. -/
theorem nameOf_word {k : Context} (hk : k.Proper) {path : List Nat} {r : Reference}
    (hr : r.Scoped k.table path) : isWord (k.nameOf r) = true := by
  unfold Context.nameOf
  split
  · rename_i name hname
    obtain ⟨i, -, hi⟩ := Option.bind_eq_some_iff.mp hname
    exact hk.words name (List.mem_of_getElem? hi)
  · exact hr.word

mutual

/-- What is lowered from an expression in scope can be read back. -/
theorem lower_legible {k : Context} (hk : k.Proper) {path : List Nat} :
    ∀ e : ImpC.Expr, e.Scoped k.table path → (lower k e).1.Legible
  | .literal _ _, he => he
  | .reference _ _, he => nameOf_word hk he
  | .unary _ _ operand, he => lower_legible hk operand he
  | .binary _ _ left right, he => ⟨lower_legible hk left he.1, lower_legible hk right he.2⟩
  | .call _ function arguments, he => by
    rw [lower]
    split
    · exact lowerPrinted_legible hk arguments he.2
    · exact ⟨he.1, lowerAll_legible hk arguments he.2⟩

theorem lowerAll_legible {k : Context} (hk : k.Proper) {path : List Nat} :
    ∀ es : List ImpC.Expr, Expr.ScopedAll k.table path es → Expr.LegibleAll (lowerAll k es).1
  | [], _ => trivial
  | e :: es, he => ⟨lower_legible hk e he.1, lowerAll_legible hk es he.2⟩

theorem lowerPrinted_legible {k : Context} (hk : k.Proper) {path : List Nat} :
    ∀ es : List ImpC.Expr, Expr.ScopedAll k.table path es →
      Argument.LegibleAll (lowerPrinted k es).1
  | [], _ => trivial
  | e :: es, he => by
    have hmore := lowerPrinted_legible hk es he.2
    rw [lowerPrinted]
    dsimp only
    split
    · rename_i a ha
      exact ⟨ofTy?_legible ha (lower_legible hk e he.1), hmore⟩
    · exact hmore

end

theorem lower_call_isCall (k : Context) (location : Location) (function : Text)
    (arguments : List ImpC.Expr) : (lower k (.call location function arguments)).1.isCall = true := by
  rw [lower]
  split <;> rfl

theorem declarator_eq_some {v : Variable} {name : Text} {d : Declarator} :
    (declarator v name).1 = some d ↔ CType.ofTy? v.type = some d.type ∧ name = d.name := by
  unfold declarator
  split
  · rename_i type htype
    rw [htype, Option.some.injEq, Option.some.injEq]
    constructor
    · rintro rfl
      exact ⟨rfl, rfl⟩
    · rintro ⟨rfl, rfl⟩
      rfl
  · rename_i hnone
    simp [hnone]

/-- The declarators of a scope are those of its variables that have a type in C. -/
theorem mem_declarators {k : Context} {scope : Nat} {d : Declarator} :
    d ∈ k.declarators scope ↔ ∃ (i : Nat) (v : Variable), k.table[i]? = some v ∧
      k.names[i]? = some d.name ∧ v.scope = scope ∧ CType.ofTy? v.type = some d.type := by
  have hzip (p : Variable × Text) : p ∈ k.table.zip k.names ↔
      ∃ i : Nat, k.table[i]? = some p.1 ∧ k.names[i]? = some p.2 := by
    rw [List.mem_iff_getElem?]
    simp only [List.getElem?_zip_eq_some]
  simp only [Context.declarators, Context.own, List.mem_filterMap, List.mem_filter,
    decide_eq_true_eq]
  constructor
  · rintro ⟨⟨v, name⟩, ⟨hmem, hscope⟩, hd⟩
    obtain ⟨i, hv, hname⟩ := (hzip _).mp hmem
    obtain ⟨htype, rfl⟩ := declarator_eq_some.mp hd
    exact ⟨i, v, hv, hname, hscope, htype⟩
  · rintro ⟨i, v, hv, hname, hscope, htype⟩
    exact ⟨(v, d.name), ⟨(hzip _).mpr ⟨i, hv, hname⟩, hscope⟩, declarator_eq_some.mpr ⟨htype, rfl⟩⟩

section Rows

variable {k : Context} {path : List Nat} {s : Step} {r : Row}

/-- The row of a step, unless its scope has been opened before. -/
theorem row_legible (hk : k.Proper) (hs : s.Scoped k.table path) (hr : k.row? [] s = some r) :
    r.Legible := by
  have hvalue {e : ImpC.Expr} (he : e ∈ s.value?) : (lower k e).1.Legible :=
    lower_legible hk e (hs.value e he)
  cases s with
  | enter opening scope =>
    cases hr
    refine ⟨fun condition hcondition => ?_, fun d hd => ?_⟩
    · rw [Opening.condition?_map] at hcondition
      obtain ⟨e, he, rfl⟩ := Option.map_eq_some_iff.mp hcondition
      exact hvalue he
    · obtain ⟨i, v, -, hname, -⟩ := mem_declarators.mp hd
      have hmem := List.mem_of_getElem? hname
      exact ⟨hk.words _ hmem, hk.free _ hmem⟩
  | declaration i initial =>
    cases initial with
    | none => cases hr
    | some a =>
      cases hr
      exact ⟨nameOf_word hk (hs.target _ rfl), hvalue rfl⟩
  | assignment a =>
    cases hr
    exact ⟨nameOf_word hk (hs.target _ rfl), hvalue rfl⟩
  | call location function arguments =>
    cases hr
    exact ⟨lower_call_isCall k location function arguments, hvalue rfl⟩
  | leave =>
    cases hr
    trivial

/-- Every row of a program in scope can be read back. -/
theorem rows_legible (hk : k.Proper) {steps : List Step}
    (h : ∀ p ∈ Step.placed path steps, p.2.Scoped k.table p.1) :
    ∀ r ∈ steps.filterMap (k.row? []), r.Legible := by
  induction steps generalizing path with
  | nil => nofun
  | cons s steps ih =>
    rw [Step.placed, List.forall_mem_cons] at h
    rw [List.filterMap_eq_flatMap_toList, List.flatMap_cons, List.forall_mem_append,
      ← List.filterMap_eq_flatMap_toList]
    exact ⟨fun r hr => row_legible hk h.1 (Option.mem_toList.mp hr), ih h.2⟩

/-- The uses of identifiers in the row of a step. -/
theorem row_uses (k : Context) (path : List Nat) (s : Step) :
    (k.row? [] s).elim [] (·.uses (path.map k.frame)) =
      k.shown (placesAt (s.outer path) (s.references k.table)) := by
  have hassignment (a : Assignment) :
      usesOf (path.map k.frame) (k.nameOf a.target.value :: (lower k a.value).1.names) =
        k.shown (placesAt path (a.target.value :: a.value.references k.table)) := by
    rw [lower_names, ← List.map_cons, usesOf_nameOf]
  cases s with
  | enter opening scope =>
    have hnames : (opening.condition?.map fun e => (lower k e).1).toList.flatMap Expr.names =
        (opening.condition?.toList.flatMap (Expr.references k.table)).map k.nameOf := by
      cases opening.condition? <;> simp [lower_names]
    rw [Context.row?, Option.elim_some, Row.uses, Opening.outer_map, Opening.condition?_map, hnames,
      ← Opening.map_outer, usesOf_nameOf]
    rfl
  | declaration i initial =>
    cases initial with
    | none => rfl
    | some a => simpa [Context.row?, Row.uses, Step.references, Step.target?, Step.value?,
        Step.outer] using hassignment a
  | assignment a =>
    simpa [Context.row?, Row.uses, Step.references, Step.target?, Step.value?, Step.outer]
      using hassignment a
  | call location function arguments =>
    simp [Context.row?, Row.uses, Step.references, Step.target?, Step.value?, Step.outer,
      lower_names, usesOf_nameOf]
  | leave => rfl

/-- What is read of the rows of some steps, whose scopes are numbered from `n` on, is read of each
step inside the blocks of the scopes around it. -/
theorem rows_read {α : Type} (k : Context) (read : List Frame → Row → List α)
    (f : List Nat × Step → List α) (path : List Nat) {n m : Nat} {steps : List Step}
    (hstep : ∀ s ∈ steps, ∀ path : List Nat,
      (k.row? [] s).elim [] (read (path.map k.frame)) = f (s.outer path, s))
    (h : steps.filterMap Step.scope? = List.range' n m) :
    Row.readAll read (path.map k.frame) n (steps.filterMap (k.row? [])) =
      (Step.placed path steps).flatMap f := by
  induction steps generalizing path n m with
  | nil => rfl
  | cons s steps ih =>
    rw [List.forall_mem_cons] at hstep
    rw [Step.placed, List.flatMap_cons, ← hstep.1]
    cases s with
    | enter opening scope =>
      -- only here is a number taken, and it is the next one
      cases m with
      | zero => cases h
      | succ m =>
        obtain ⟨rfl, hmore⟩ := List.cons.inj h
        have hrest := ih (scope :: opening.outer path) hstep.2 hmore
        rw [List.map_cons, Opening.map_outer, ← Opening.outer_map (fun e => (lower k e).1)] at hrest
        exact congrArg (_ ++ ·) hrest
    | declaration i initial =>
      cases initial with
      | none => exact ih path hstep.2 h
      | some a => exact congrArg (_ ++ ·) (ih path hstep.2 h)
    | assignment | call => exact congrArg (_ ++ ·) (ih path hstep.2 h)
    | leave =>
      have hrest := ih path.tail hstep.2 h
      rw [List.map_tail] at hrest
      exact congrArg (_ ++ ·) hrest

end Rows

/-- No other variable has the name of a variable. -/
theorem Context.Proper.unique {k : Context} (hk : k.Proper) {i j : Nat} {n : Text}
    (hi : k.names[i]? = some n) (hj : k.names[j]? = some n) : j = i := by
  obtain ⟨hlt, -⟩ := List.getElem?_eq_some_iff.mp hj
  exact (List.getElem?_inj hlt hk.nodup).mp (hj.trans hi.symm)

section Lookup

variable {k : Context} (hk : k.Proper) {i : Nat} {v : Variable} {n : Text}
  (hv : k.table[i]? = some v) (hn : k.names[i]? = some n)
include hk hv hn

/-- In a block, the name of a variable is declared if the block is that of its scope. -/
theorem find?_frame (scope : Nat) :
    (k.frame scope).declared.find? (·.name = n) =
      if scope = v.scope then (CType.ofTy? v.type).map (⟨·, n⟩) else none := by
  cases hfind : (k.frame scope).declared.find? (·.name = n) with
  | some d =>
    have hname := List.find?_some hfind
    replace hname : d.name = n := of_decide_eq_true hname
    obtain ⟨j, w, hw, hj, hscope, htype⟩ := mem_declarators.mp (List.mem_of_find?_eq_some hfind)
    rw [hname] at hj
    obtain rfl := hk.unique hn hj
    obtain rfl : w = v := Option.some.inj (hw.symm.trans hv)
    rw [if_pos hscope.symm, htype, Option.map_some, ← hname]
  | none =>
    split
    · rename_i hscope
      cases htype : CType.ofTy? v.type with
      | none => rfl
      | some type =>
        have hmem : (⟨type, n⟩ : Declarator) ∈ (k.frame scope).declared :=
          mem_declarators.mpr ⟨i, v, hv, hn, hscope.symm, htype⟩
        exact absurd (decide_eq_true rfl) (List.find?_eq_none.mp hfind _ hmem)
    · rfl

/-- Inside the block of its scope, the name of a variable refers to it. -/
theorem find?_frames {path : List Nat} (hpath : v.scope ∈ path) :
    find? (path.map k.frame) n =
      (CType.ofTy? v.type).map fun type => (v.scope, ⟨type, n⟩) := by
  cases htype : CType.ofTy? v.type with
  | none =>
    have hnone : ∀ scope, (k.frame scope).declared.find? (·.name = n) = none := by
      intro scope
      rw [find?_frame hk hv hn, htype]
      split <;> rfl
    rw [find?, List.findSome?_map, Option.map_none, List.findSome?_eq_none_iff]
    exact fun scope _ => by rw [Function.comp_apply, hnone, Option.map_none]
  | some type =>
    induction path with
    | nil => cases hpath
    | cons scope path ih =>
      rw [List.map_cons, find?, List.findSome?_cons, find?_frame hk hv hn, htype]
      by_cases hscope : scope = v.scope
      · rw [if_pos hscope, ← hscope]
        rfl
      · rw [if_neg hscope]
        exact ih ((List.mem_cons.mp hpath).resolve_left fun h => hscope h.symm)

end Lookup

/-- How a reference is read in C: as an identifier with its name, inside the blocks of the scopes
around it. If it refers to a variable, it has the name of this variable and of no other, and finds the
declarator of the variable, if it has one, in the block of its scope. -/
structure Binds (k : Context) (p : Place) (u : Use) : Prop where
  name : u.name = k.nameOf p.target
  path : u.path = p.path
  bound : ∀ i, p.target.referent = some i → ∃ v n, k.table[i]? = some v ∧ k.names[i]? = some n ∧
    u.name = n ∧ (∀ j : Nat, k.names[j]? = some n → j = i) ∧ v.scope ∈ u.path ∧
    u.found = (CType.ofTy? v.type).map fun type => (v.scope, ⟨type, n⟩)

theorem Context.Proper.nameOf {k : Context} (hk : k.Proper) {path : List Nat} {r : Reference}
    (hr : r.Scoped k.table path) {i : Nat} (hi : r.referent = some i) :
    ∃ v, k.table[i]? = some v ∧ k.names[i]? = some (k.nameOf r) ∧ v.scope ∈ path := by
  obtain ⟨v, hv, hscope⟩ := hr.bound i hi
  obtain ⟨hlt, -⟩ := List.getElem?_eq_some_iff.mp hv
  have hname : k.names[i]? = some (k.names.get ⟨i, hk.length ▸ hlt⟩) := List.getElem?_eq_getElem _
  refine ⟨v, hv, ?_, hscope⟩
  rw [Context.nameOf, hi, Option.bind_some, hname]

/-- The innermost frame that has the name is the one of the variable, since no two variables share a
name. -/
theorem use_binds {k : Context} (hk : k.Proper) {p : Place} (hp : p.target.Scoped k.table p.path) :
    Binds k p (k.use p) where
  name := rfl
  path := by simp [Context.use, C.use, Context.frame, Function.comp_def]
  bound := by
    intro i hi
    obtain ⟨v, hv, hn, hscope⟩ := hk.nameOf hp hi
    refine ⟨v, _, hv, hn, rfl, fun j hj => hk.unique hn hj, ?_, find?_frames hk hv hn hscope⟩
    simpa [Context.use, C.use, Context.frame, Function.comp_def] using hscope

mutual

/-- The references of an expression in scope are in scope. -/
theorem references_scoped {table : List Variable} {path : List Nat} :
    ∀ e : ImpC.Expr, e.Scoped table path → ∀ r ∈ e.references table, r.Scoped table path
  | .literal _ _, _ => nofun
  | .reference _ _, he => List.forall_mem_singleton.mpr he
  | .unary _ _ operand, he => references_scoped operand he
  | .binary _ _ left right, he =>
    List.forall_mem_append.mpr ⟨references_scoped left he.1, references_scoped right he.2⟩
  | .call _ function arguments, he => by
    rw [Expr.references]
    split
    · exact referencesPrinted_scoped arguments he.2
    · exact referencesAll_scoped arguments he.2

theorem referencesAll_scoped {table : List Variable} {path : List Nat} :
    ∀ es : List ImpC.Expr, Expr.ScopedAll table path es →
      ∀ r ∈ Expr.referencesAll table es, r.Scoped table path
  | [], _ => nofun
  | e :: es, he =>
    List.forall_mem_append.mpr ⟨references_scoped e he.1, referencesAll_scoped es he.2⟩

theorem referencesPrinted_scoped {table : List Variable} {path : List Nat} :
    ∀ es : List ImpC.Expr, Expr.ScopedAll table path es →
      ∀ r ∈ Expr.referencesPrinted table es, r.Scoped table path
  | [], _ => nofun
  | e :: es, he => by
    rw [Expr.referencesPrinted, List.forall_mem_append]
    refine ⟨?_, referencesPrinted_scoped es he.2⟩
    split
    · exact references_scoped e he.1
    · nofun

end

/-- The reference of a place stands inside the scope of its variable. -/
def Placed (table : List Variable) (p : Place) : Prop := p.target.Scoped table p.path

theorem placesAt_placed {table : List Variable} {path : List Nat} {rs : List Reference}
    (h : ∀ r ∈ rs, r.Scoped table path) : ∀ p ∈ placesAt path rs, Placed table p := by
  intro p hp
  obtain ⟨r, hr, rfl⟩ := List.mem_map.mp hp
  exact h r hr

theorem places_placed {table : List Variable} {path : List Nat} {steps : List Step}
    (h : ∀ p ∈ Step.placed path steps, p.2.Scoped table p.1) :
    ∀ p ∈ Step.places table path steps, Placed table p := by
  intro p hp
  obtain ⟨⟨around, s⟩, hs, hp⟩ := List.mem_flatMap.mp hp
  have hscoped := h _ hs
  refine placesAt_placed (fun r hr => ?_) p hp
  rcases List.mem_append.mp hr with htarget | hvalue
  · obtain ⟨t, ht, rfl⟩ := List.mem_map.mp htarget
    exact hscoped.target t (Option.mem_toList.mp ht)
  · obtain ⟨e, he, hr⟩ := List.mem_flatMap.mp hvalue
    exact references_scoped e (hscoped.value e (Option.mem_toList.mp he)) r hr

/-- Names as they are assigned keep variables apart and are words. -/
theorem assignNames_proper {table : List Variable} (h : ∀ v ∈ table, isWord v.name = true) :
    Context.Proper ⟨table, assignNames (table.map (·.name))⟩ where
  length := by rw [assignNames_length, List.length_map]
  nodup := assignNames_nodup _
  words := isWord_assignNames (by simpa using h)
  free := fun _ hn => Bool.eq_false_iff.mpr fun hkeyword =>
    assignNames_not_reserved hn (isKeyword_reserved hkeyword)

/-- In a resolved program every block declares the variables of its scope. -/
theorem programRows_resolve (body : List Surface.Statement) :
    let resolved := resolve body
    programRows resolved.program resolved.table =
      (resolved.program.steps .main).filterMap
        (Context.row? ⟨resolved.table, assignNames (resolved.table.map (·.name))⟩ []) := by
  obtain ⟨n, hscopes, -⟩ := resolve_scopes body
  refine rows_of_nodup ?_ nofun
  rw [← Block.scopes, hscopes]
  exact List.nodup_range

/-- All that is emitted for a program whose names are words is legible. -/
theorem programRows_legible {body : List Surface.Statement} (h : Surface.Statement.WordsAll body) :
    ∀ r ∈ programRows (resolve body).program (resolve body).table, r.Legible := by
  obtain ⟨hscoped, hwords⟩ := resolve_scoped h
  rw [programRows_resolve]
  exact rows_legible (assignNames_proper hwords) hscoped

/-- The uses of identifiers in emitted C are the references of the program. -/
theorem generate_uses {body : List Surface.Statement} (h : Surface.Statement.WordsAll body) :
    let resolved := resolve body
    C.uses (generate resolved.program resolved.table).text =
      Context.shown ⟨resolved.table, assignNames (resolved.table.map (·.name))⟩
        (resolved.program.places resolved.table) := by
  obtain ⟨n, hscopes, -⟩ := resolve_scopes body
  rw [List.range_eq_range'] at hscopes
  intro resolved
  rw [generate_eq, programLines, program_uses (programRows_legible h), programRows_resolve,
    Block.places, Step.places, shown_flatMap]
  exact rows_read _ Row.uses _ [] (fun s _ path => row_uses _ path s) hscopes

/-- Every reference of a parsed program that is emitted and is no keyword in C is read as an
identifier, in order and in its place, and is bound as it was resolved. What refers to a variable is no
keyword. -/
theorem references_bound {name text : Text} {tree : Tree}
    (h : (parse (Lexer.start ⟨name, text⟩).tokenize.tokens).tree = some tree) :
    let resolved := resolve (Surface.ofTree tree)
    let k : Context := ⟨resolved.table, assignNames (resolved.table.map (·.name))⟩
    let places := resolved.program.places resolved.table
    List.Forall₂ (Binds k) (places.filter fun p => !isKeyword (k.nameOf p.target))
        (C.uses (generate resolved.program resolved.table).text) ∧
      ∀ p ∈ places, p.target.referent ≠ none → isKeyword (k.nameOf p.target) = false := by
  have hbody := Surface.words_ofTree h
  obtain ⟨hscoped, hwords⟩ := resolve_scoped hbody
  intro resolved k places
  have hk : k.Proper := assignNames_proper hwords
  have hplaced : ∀ p ∈ places, Placed resolved.table p := places_placed hscoped
  constructor
  · rw [generate_uses hbody, Context.shown, List.forall₂_map_right_iff, List.forall₂_same]
    exact fun p hp => use_binds hk (hplaced p (List.mem_filter.mp hp).1)
  · intro p hp hreferent
    obtain ⟨i, hi⟩ := Option.ne_none_iff_exists'.mp hreferent
    obtain ⟨_, -, hname, -⟩ := hk.nameOf (hplaced p hp) hi
    exact hk.free _ (List.mem_of_getElem? hname)

/-- The inner block reads the outer variable before it declares one of the same name. -/
def shadowedVariableText : Text := "var x = 1; \x7b print(x); var x = 2; \x7d".toList

theorem references_bound_shadowed :
    ∃ tree, (parse (Lexer.start ⟨[], shadowedVariableText⟩).tokenize.tokens).tree = some tree ∧
      let resolved := resolve (Surface.ofTree tree)
      let k : Context := ⟨resolved.table, assignNames (resolved.table.map (·.name))⟩
      let places := resolved.program.places resolved.table
      k.names = ["x".toList, "x_1".toList] ∧
        places.map (·.target.referent) = [some 0, some 0, some 1] ∧
        List.Forall₂ (Binds k) places
          [⟨"x".toList, [0], some (0, ⟨.int, "x".toList⟩)⟩,
            ⟨"x".toList, [1, 0], some (0, ⟨.int, "x".toList⟩)⟩,
            ⟨"x_1".toList, [1, 0], some (1, ⟨.int, "x_1".toList⟩)⟩] := by
  have htokens : (Lexer.start ⟨[], shadowedVariableText⟩).tokens =
      ((Lexer.start ⟨[], shadowedVariableText⟩).advance 40).1 :=
    Lexer.tokens_eq_advance (by decide)
  have hrun : (parse (Lexer.start ⟨[], shadowedVariableText⟩).tokenize.tokens).tree.map (fun tree =>
      let resolved := resolve (Surface.ofTree tree)
      (assignNames (resolved.table.map (·.name)),
        (resolved.program.places resolved.table).map (·.target.referent),
        C.uses (generate resolved.program resolved.table).text)) =
      some (["x".toList, "x_1".toList], [some 0, some 0, some 1],
        [⟨"x".toList, [0], some (0, ⟨.int, "x".toList⟩)⟩,
          ⟨"x".toList, [1, 0], some (0, ⟨.int, "x".toList⟩)⟩,
          ⟨"x_1".toList, [1, 0], some (1, ⟨.int, "x_1".toList⟩)⟩]) := by
    rw [Lexer.tokenize, htokens]
    decide +kernel
  obtain ⟨tree, htree, heq⟩ := Option.map_eq_some_iff.mp hrun
  simp only [Prod.mk.injEq] at heq
  obtain ⟨hnames, hreferents, huses⟩ := heq
  obtain ⟨hbound, hfree⟩ := references_bound htree
  refine ⟨tree, htree, hnames, hreferents, ?_⟩
  rw [huses, List.filter_eq_self.mpr] at hbound
  · exact hbound
  · intro p hp
    refine congrArg not (hfree p hp fun hnone => ?_)
    have hmem : none ∈ [some 0, some 0, some 1] := hreferents ▸ List.mem_map.mpr ⟨p, hp, hnone⟩
    simp at hmem

end Target

end ImpC
