import Mathlib.Data.List.Forall2
import ImpC.Proofs.Grammar.Recovery
import ImpC.Proofs.Surface.Occurrence
import ImpC.Program.Resolve

/-!
# Lexical scoping

Resolving a program gives every use of a name the variable that the rule of the language gives it. The
open scopes stand for the lists of statements around the place that has been reached, each with the
statements before it; a statement adds itself to the innermost list, and a block adds a list and
takes it away again.
-/
namespace ImpC

mutual

/-- The uses of variables in an expression, in order. -/
def Expr.uses : Expr → List (Located Reference)
  | .literal _ _ => []
  | .reference place target => [⟨place, target⟩]
  | .unary _ _ operand => operand.uses
  | .binary _ _ left right => left.uses ++ right.uses
  | .call _ _ arguments => Expr.usesAll arguments

def Expr.usesAll : List Expr → List (Located Reference)
  | [] => []
  | e :: es => e.uses ++ Expr.usesAll es

end

mutual

/-- The uses of variables in a statement, in order. A declaration does not use its own variable. -/
def Statement.uses : Statement → List (Located Reference)
  | .declaration _ none => []
  | .declaration _ (some a) => a.value.uses
  | .assignment a => a.target :: a.value.uses
  | .conditional condition body rest => condition.uses ++ (body.uses ++ rest.uses)
  | .loop condition body => condition.uses ++ body.uses
  | .call _ _ arguments => Expr.usesAll arguments
  | .block body => body.uses

def Otherwise.uses : Otherwise → List (Located Reference)
  | .nothing => []
  | .block body => body.uses
  | .conditional condition body rest => condition.uses ++ (body.uses ++ rest.uses)

def Block.uses : Block → List (Located Reference)
  | .mk _ statements => Statement.usesAll statements

def Statement.usesAll : List Statement → List (Located Reference)
  | [] => []
  | s :: ss => s.uses ++ Statement.usesAll ss

end

theorem Statement.usesAll_append (ss ss' : List Statement) :
    Statement.usesAll (ss ++ ss') = Statement.usesAll ss ++ Statement.usesAll ss' := by
  induction ss with
  | nil => rfl
  | cons s ss ih => simp [Statement.usesAll, ih]

/-- A variable by its first declaration. -/
def Variable.declared (v : Variable) : Located Text := ⟨v.location, v.name⟩

namespace Occurrence

def resolved (o : Occurrence) : Located Reference := ⟨o.name.location, ⟨o.name.value, o.index?⟩⟩

/-- The error of a use that refers to nothing. -/
def missing (o : Occurrence) : List (Located SemanticError) :=
  match o.index? with
  | some _ => []
  | none => [⟨o.name.location, .unresolvedReference o.name.value⟩]

end Occurrence

def SemanticError.isUnresolved : SemanticError → Bool
  | .unresolvedReference _ => true
  | _ => false

namespace Resolver

def unresolved (errors : Errors) : Errors := errors.filter (·.value.isUnresolved)

theorem unresolved_append (errors more : Errors) :
    unresolved (errors ++ more) = unresolved errors ++ unresolved more := List.filter_append ..

/-- The open scopes stand for the lists of statements around a place, and the table for the variables
declared before it. -/
structure Agrees (around : List Enclosure) (seen : List (Located Text)) (r : Resolver) : Prop where
  scopes : List.Forall₂ (fun scope e => ∀ x, scope.names.lookup x = e.index? x) r.scopes around
  table : r.table.map Variable.declared = seen

/-- Looking a name up finds its innermost declaration. -/
theorem Agrees.lookup_eq {around : List Enclosure} {seen : List (Located Text)} {r : Resolver}
    (h : r.Agrees around seen) (x : Text) : lookup r.scopes x = around.findSome? (·.index? x) := by
  have hscopes := h.scopes
  clear h
  rw [lookup]
  generalize r.scopes = scopes at hscopes
  induction hscopes with
  | nil => rfl
  | cons hscope _ ih => rw [List.findSome?_cons, List.findSome?_cons, hscope, ih]

/-- From `r` to `r'` the uses `os` have been resolved, as `uses`. -/
structure Yields (r : Resolver) (os : List Occurrence) (around : List Enclosure)
    (seen : List (Located Text)) (uses : List (Located Reference)) (r' : Resolver) : Prop where
  uses : uses = os.map Occurrence.resolved
  errors : unresolved r'.errors = unresolved r.errors ++ os.flatMap Occurrence.missing
  agrees : r'.Agrees around seen

/-- What two parts use is used in the order of the parts. -/
theorem Yields.append {r r' r'' : Resolver} {os os' : List Occurrence}
    {around around' : List Enclosure} {seen seen' : List (Located Text)}
    {uses uses' : List (Located Reference)} (h : Yields r os around seen uses r')
    (h' : Yields r' os' around' seen' uses' r'') :
    Yields r (os ++ os') around' seen' (uses ++ uses') r'' := by
  refine ⟨?_, ?_, h'.agrees⟩
  · rw [h.uses, h'.uses, List.map_append]
  · rw [h'.errors, h.errors, List.flatMap_append, List.append_assoc]

theorem Agrees.yields_nil {around : List Enclosure} {seen : List (Located Text)} {r : Resolver}
    (h : r.Agrees around seen) : Yields r [] around seen [] r :=
  ⟨rfl, (List.append_nil _).symm, h⟩

section Expressions

variable {around : List Enclosure} {seen : List (Located Text)} {r : Resolver}

/-- A name that nothing declares is reported where it stands. -/
theorem reference_yields (h : r.Agrees around seen) (place : Location) (name : Text) :
    (reference r.scopes place name).1 = ⟨name, Occurrence.index? ⟨⟨place, name⟩, around⟩⟩ ∧
      unresolved (reference r.scopes place name).2 =
        Occurrence.missing ⟨⟨place, name⟩, around⟩ := by
  rw [Occurrence.missing, Occurrence.index?, reference, h.lookup_eq]
  cases around.findSome? (·.index? name) with
  | none => exact ⟨rfl, rfl⟩
  | some i => exact ⟨rfl, rfl⟩

theorem literal_unresolved (place : Location) (value : Surface.Literal) :
    unresolved (literal place value).2 = [] := by
  cases value with
  | int spelling =>
    rw [literal]
    cases Int32.ofSpelling? spelling <;> rfl
  | _ => rfl

mutual

/-- The names in an expression are used in their order, and those that nothing declares are
reported. -/
theorem expression_yields (h : r.Agrees around seen) (x : Surface.Expr) :
    (expression r.scopes x).1.uses = (x.names.map (⟨·, around⟩)).map Occurrence.resolved ∧
      unresolved (expression r.scopes x).2 =
        (x.names.map (⟨·, around⟩)).flatMap Occurrence.missing := by
  match x with
  | .literal place value => exact ⟨rfl, literal_unresolved place value⟩
  | .name place name =>
    obtain ⟨htarget, herrors⟩ := reference_yields h place name
    simp [expression, Expr.uses, Surface.Expr.names, Occurrence.resolved, htarget, herrors]
  | .unary place op operand => exact expression_yields h operand
  | .binary place op left right =>
    obtain ⟨hleft, herrors⟩ := expression_yields h left
    obtain ⟨hright, hmore⟩ := expression_yields h right
    simp only [expression, Expr.uses, Surface.Expr.names, List.map_append, List.flatMap_append,
      unresolved_append, hleft, hright, herrors, hmore, and_self]
  | .call place function arguments => exact expressions_yields h arguments

theorem expressions_yields (h : r.Agrees around seen) (xs : List Surface.Expr) :
    Expr.usesAll (expressions r.scopes xs).1 =
        ((Surface.Expr.namesAll xs).map (⟨·, around⟩)).map Occurrence.resolved ∧
      unresolved (expressions r.scopes xs).2 =
        ((Surface.Expr.namesAll xs).map (⟨·, around⟩)).flatMap Occurrence.missing := by
  match xs with
  | [] => exact ⟨rfl, rfl⟩
  | x :: xs =>
    obtain ⟨hfirst, herrors⟩ := expression_yields h x
    obtain ⟨hrest, hmore⟩ := expressions_yields h xs
    simp only [expressions, Expr.usesAll, Surface.Expr.namesAll, List.map_append,
      List.flatMap_append, unresolved_append, hfirst, hrest, herrors, hmore, and_self]

end

/-- A part that declares nothing. -/
theorem reading_yields {α : Type} (h : r.Agrees around seen) (part : List Scope → α × Errors)
    {uses : List (Located Reference)} {os : List Occurrence}
    (huses : uses = os.map Occurrence.resolved)
    (herrors : unresolved (part r.scopes).2 = os.flatMap Occurrence.missing) :
    Yields r os around seen uses (reading part r).2 := by
  refine ⟨huses, ?_, h.scopes, h.table⟩
  rw [← herrors, ← unresolved_append]
  rfl

end Expressions

section Statements

variable {around outer : List Enclosure} {seen : List (Located Text)} {r : Resolver}

open Surface in
theorem meant_yields (h : r.Agrees around seen) {t : Tree} {x : Surface.Expr} (ht : Meant t x)
    (n : Nat) :
    Yields r (t.occurrences around n) around seen (reading (expression · x) r).1.uses
      (reading (expression · x) r).2 := by
  obtain ⟨huses, herrors⟩ := expression_yields h x
  rw [ht.occurrences]
  exact reading_yields h (expression · x) huses herrors

/-- The run of a statement of a list, with `before` before it in the list: afterwards it is among
them. -/
def StatementYields (t : Tree) : Prop :=
  ∀ (earlier : Nat) (before : List Tree) (outer : List Enclosure) (seen : List (Located Text))
    (r : Resolver), seen.length = earlier + (Tree.entriesIn [] before).length →
    r.Agrees (⟨earlier, before⟩ :: outer) seen →
    Yields r
      (t.occurrences (⟨earlier, before⟩ :: outer)
        (earlier + (Tree.entriesIn [] before ++ Tree.firstDeclared before t).length))
      (⟨earlier, before ++ [t]⟩ :: outer) (seen ++ (Tree.firstDeclared before t ++ t.entries))
      (Statement.usesAll (statements (Surface.Statement.ofTree? t).toList r).1)
      (statements (Surface.Statement.ofTree? t).toList r).2

/-- A list of statements is resolved one by one. -/
theorem statements_yield {ts : List Tree} (hts : ∀ t ∈ ts, StatementYields t) {earlier : Nat}
    {before : List Tree} (hseen : seen.length = earlier + (Tree.entriesIn [] before).length)
    (h : r.Agrees (⟨earlier, before⟩ :: outer) seen) :
    Yields r (Tree.occurrencesIn outer earlier before ts) (⟨earlier, before ++ ts⟩ :: outer)
      (seen ++ Tree.entriesIn before ts)
      (Statement.usesAll (statements (Surface.Statement.body ts) r).1)
      (statements (Surface.Statement.body ts) r).2 := by
  induction ts generalizing before seen r with
  | nil =>
    rw [Tree.occurrencesIn, Tree.entriesIn, List.append_nil, List.append_nil]
    exact h.yields_nil
  | cons t ts ih =>
    have hfirst := hts t (by simp) earlier before outer seen r hseen h
    have hlength : (seen ++ (Tree.firstDeclared before t ++ t.entries)).length =
        earlier + (Tree.entriesIn [] (before ++ [t])).length := by
      rw [Tree.entriesIn_concat]
      simp only [List.length_append]
      omega
    have hrest := ih (fun u hu => hts u (by simp [hu])) hlength hfirst.agrees
    rw [Surface.Statement.body, statements_append, Statement.usesAll_append, Tree.occurrencesIn,
      Tree.entriesIn, List.append_cons before t ts, ← List.append_assoc (Tree.firstDeclared before t),
      ← List.append_assoc seen]
    exact hfirst.append hrest

/-- The statements of a block are a new list, which is left at its end. -/
theorem block_yields {ts : List Tree} (hts : ∀ t ∈ ts, StatementYields t)
    (h : r.Agrees around seen) :
    Yields r (Tree.occurrencesIn around seen.length [] ts) around (seen ++ Tree.entriesIn [] ts)
      (inScope (statements (Surface.Statement.body ts)) r).1.uses
      (inScope (statements (Surface.Statement.body ts)) r).2 := by
  let inner : Resolver := ⟨⟨r.nextScope, []⟩ :: r.scopes, r.nextScope + 1, r.table, r.errors⟩
  have hinner : inner.Agrees (⟨seen.length, []⟩ :: around) seen :=
    ⟨.cons (fun _ => rfl) h.scopes, h.table⟩
  obtain ⟨huses, herrors, hagrees⟩ := statements_yield hts rfl hinner
  refine ⟨huses, herrors, ?_, hagrees.table⟩
  obtain ⟨scope, scopes, -, hscopes, heq⟩ := List.forall₂_cons_right_iff.mp hagrees.scopes
  have htail : (inScope (statements (Surface.Statement.body ts)) r).2.scopes = scopes :=
    congrArg List.tail heq
  rw [htail]
  exact hscopes

theorem index?_concat_of_none {t : Tree} (ht : t.declared? = none) (earlier : Nat)
    (before : List Tree) (x : Text) :
    Enclosure.index? ⟨earlier, before ++ [t]⟩ x = Enclosure.index? ⟨earlier, before⟩ x := by
  rw [Enclosure.index?, Enclosure.index?, Tree.firstDeclaration?_concat, ht]
  simp

/-- A statement that declares nothing itself adds nothing to the scope. -/
theorem Agrees.pass {earlier : Nat} {before : List Tree}
    (h : r.Agrees (⟨earlier, before⟩ :: outer) seen) {t : Tree} (ht : t.declared? = none) :
    r.Agrees (⟨earlier, before ++ [t]⟩ :: outer) seen := by
  obtain ⟨scope, scopes, hscope, hscopes, heq⟩ := List.forall₂_cons_right_iff.mp h.scopes
  refine ⟨?_, h.table⟩
  rw [heq]
  refine .cons ?_ hscopes
  intro x
  rw [index?_concat_of_none ht]
  exact hscope x

theorem firstDeclared_of_none {t : Tree} (ht : t.declared? = none) (before : List Tree) :
    Tree.firstDeclared before t = [] := by
  rw [Tree.firstDeclared, ht]
  rfl

/-- What is not a statement is passed over. -/
theorem passed_yields {t : Tree} (ht : Surface.Statement.ofTree? t = none) (hd : t.declared? = none)
    (hentries : t.entries = []) (hoccurrences : ∀ around n, t.occurrences around n = []) :
    StatementYields t := by
  intro earlier before outer seen r hseen h
  rw [hoccurrences, ht, firstDeclared_of_none hd, hentries, List.append_nil, List.append_nil]
  exact (h.pass hd).yields_nil

/-- A statement that declares nothing itself. -/
theorem plain_yields {inner : Tree} {s : Surface.Statement}
    (hs : Surface.Statement.inner? inner = some s)
    (hd : (Tree.node .statement inner []).declared? = none)
    (hyields : ∀ around seen r, Agrees around seen r →
      Yields r (inner.occurrences around seen.length) around (seen ++ inner.entries)
        (statement s r).1.uses (statement s r).2) :
    StatementYields (.node .statement inner []) := by
  intro earlier before outer seen r hseen h
  have hof : Surface.Statement.ofTree? (.node .statement inner []) = some s := hs
  have hentries : (Tree.node .statement inner []).entries = inner.entries := by
    simp [Tree.entries, Tree.entriesAmong]
  have hoccurrences : ∀ around n, (Tree.node .statement inner []).occurrences around n =
      inner.occurrences around n := by
    intro around n
    simp [Tree.occurrences, Tree.occurrencesAmong]
  have hrun := hyields _ seen r h
  rw [hof, hoccurrences, firstDeclared_of_none hd, hentries, List.append_nil, List.nil_append, ← hseen]
  refine ⟨?_, hrun.errors, hrun.agrees.pass hd⟩
  rw [← hrun.uses, Option.toList_some, statements_cons]
  exact List.append_nil _

/-- A declaration is visible behind itself only, and not if its name was there before. -/
theorem index?_concat_of_some {t : Tree} {name : Located Text} (ht : t.declared? = some name)
    (earlier : Nat) (before : List Tree) (x : Text) :
    Enclosure.index? ⟨earlier, before ++ [t]⟩ x =
      (Enclosure.index? ⟨earlier, before⟩ x).or
        (if name.value = x then some (earlier + (Tree.entriesIn [] before).length) else none) := by
  rw [Enclosure.index?, Enclosure.index?, Tree.firstDeclaration?_concat, ht, Option.map_or]
  by_cases hx : name.value = x <;> simp [Option.filter_some, hx]

theorem firstDeclared_of_some {t : Tree} {name : Located Text} (ht : t.declared? = some name)
    (earlier : Nat) (before : List Tree) :
    Tree.firstDeclared before t =
      if (Enclosure.index? ⟨earlier, before⟩ name.value).isNone then [name] else [] := by
  rw [Tree.firstDeclared, ht, Option.filter_some, Enclosure.index?, Option.isNone_map]
  cases (Tree.firstDeclaration? name.value before).isNone <;> rfl

/-- A declaration adds its name to the innermost scope, unless the list has declared it before. -/
theorem declare_yields {earlier : Nat} {before : List Tree}
    (hseen : seen.length = earlier + (Tree.entriesIn [] before).length)
    (h : r.Agrees (⟨earlier, before⟩ :: outer) seen) {t : Tree} {name : Located Text}
    (ht : t.declared? = some name) (type : Ty) :
    Yields r [] (⟨earlier, before ++ [t]⟩ :: outer) (seen ++ Tree.firstDeclared before t) []
      (declare name type r).2 := by
  obtain ⟨scope, scopes, hscope, hscopes, heq⟩ := List.forall₂_cons_right_iff.mp h.scopes
  have hlength : r.table.length = seen.length := by
    rw [← h.table, List.length_map]
  rw [firstDeclared_of_some ht earlier]
  cases hfound : scope.names.lookup name.value with
  | some i =>
    -- a repeated name is reported, and the scope stays as it was
    rw [declare_again heq hfound]
    rw [hscope] at hfound
    refine ⟨rfl, ?_, ?_, ?_⟩
    · rw [unresolved_append]
      rfl
    · dsimp only
      rw [heq]
      refine .cons ?_ hscopes
      intro x
      rw [index?_concat_of_some ht, hscope]
      by_cases hx : name.value = x
      · rw [← hx, hfound]
        rfl
      · rw [if_neg hx, Option.or_none]
    · simp [hfound, h.table]
  | none =>
    -- a new name gets the next place of the table
    rw [declare_new heq hfound]
    rw [hscope] at hfound
    refine ⟨rfl, (List.append_nil _).symm, ?_, ?_⟩
    · refine .cons ?_ hscopes
      intro x
      rw [index?_concat_of_some ht, List.lookup_cons]
      by_cases hx : name.value = x
      · simp [← hx, hfound, hlength, hseen]
      · have hne : (x == name.value) = false := by
          rw [beq_eq_false_iff_ne]
          exact Ne.symm hx
        rw [hne, if_neg hx, Option.or_none]
        exact hscope x
    · simp [hfound, h.table, Variable.declared]

/-- The uses in the initial value come before the declaration. -/
theorem declaration_yields {inner : Tree} {name : Located Text} {type : Option Ty}
    {initial : Option Surface.Expr}
    (hs : Surface.Statement.inner? inner = some (.declaration name type initial))
    (hd : (Tree.node .statement inner []).declared? = some name) (hentries : inner.entries = [])
    (hoccurrences : ∀ around n, inner.occurrences around n =
      ((initial.map Surface.Expr.names).getD []).map (⟨·, around⟩)) :
    StatementYields (.node .statement inner []) := by
  intro earlier before outer seen r hseen h
  have hof : Surface.Statement.ofTree? (.node .statement inner []) =
      some (.declaration name type initial) := hs
  have hentries' : (Tree.node .statement inner []).entries = [] := by
    simp [Tree.entries, Tree.entriesAmong, hentries]
  have hoccurrences' : ∀ around n, (Tree.node .statement inner []).occurrences around n =
      ((initial.map Surface.Expr.names).getD []).map (⟨·, around⟩) := by
    intro around n
    simp [Tree.occurrences, Tree.occurrencesAmong, hoccurrences]
  rw [hof, hentries', hoccurrences', List.append_nil, Option.toList_some, statements_cons]
  cases initial with
  | none => exact declare_yields hseen h hd _
  | some x =>
    obtain ⟨huses, herrors⟩ := expression_yields h x
    have hinitial := reading_yields h (expression · x) huses herrors
    have hdeclare := declare_yields hseen hinitial.agrees hd
      (declaredType (reading (expression · x) r).2.table type (some (expression r.scopes x).1))
    have hboth := hinitial.append hdeclare
    rw [List.append_nil, List.append_nil] at hboth
    exact ⟨(List.append_nil _).trans hboth.uses, hboth.errors, hboth.agrees⟩

end Statements

section Trees

open ImpC.Grammar ImpC.Surface

variable {skips : List Token → Prop}

theorem typeClause_silent {t : Tree} (h : IsA skips .typeClause t) :
    ∃ colon type, t = .node .typeClause (.leaf colon) [.leaf type] ∧ t.entries = [] ∧
      ∀ around n, t.occurrences around n = [] := by
  obtain ⟨colon, type, -, -, rfl⟩ := isA_typeClause.mp h
  exact ⟨colon, type, rfl, rfl, fun _ _ => rfl⟩

/-- The name of a declaration and the occurrences in its value. -/
theorem declaration_meant {t : Tree} (h : IsA skips .declaration t) :
    ∃ name type initial,
      Surface.Statement.inner? t = some (.declaration name type initial) ∧
      (Tree.node .statement t []).declared? = some name ∧ t.entries = [] ∧
      ∀ around n, t.occurrences around n =
        ((initial.map Surface.Expr.names).getD []).map (⟨·, around⟩) := by
  obtain ⟨word, name, type, value, stop, -, -, htype, hvalue, -, rfl⟩ := isA_declaration.mp h
  have hinitial : (∃ sign tree x, value = [.leaf sign, tree] ∧ Meant tree x) ∨ value = [] := by
    apply hvalue.imp_left
    rintro ⟨sign, tree, -, htree, rfl⟩
    obtain ⟨x, hx⟩ := isA_meant htree
    exact ⟨sign, tree, x, rfl, hx⟩
  rcases htype with ⟨clause, hclause, rfl⟩ | rfl
  · obtain ⟨colon, kind, rfl, hentries, hsilent⟩ := typeClause_silent hclause
    rcases hinitial with ⟨sign, tree, x, rfl, hx⟩ | rfl
    · refine ⟨⟨name.location, name.text⟩, some (.ofToken kind), some x, ?_, rfl, ?_, ?_⟩
      · simp [Statement.inner?, Statement.declaration?, hx.ofTree?]
      · simp [Tree.entries, Tree.entriesAmong, hx.entries]
      · intro around n
        simp [Tree.occurrences, Tree.occurrencesAmong, hx.occurrences]
    · refine ⟨⟨name.location, name.text⟩, some (.ofToken kind), none, ?_, rfl, ?_, ?_⟩
      · simp [Statement.inner?, Statement.declaration?]
      · simp [Tree.entries, Tree.entriesAmong]
      · intro around n
        simp [Tree.occurrences, Tree.occurrencesAmong]
  · rcases hinitial with ⟨sign, tree, x, rfl, hx⟩ | rfl
    · refine ⟨⟨name.location, name.text⟩, none, some x, ?_, rfl, ?_, ?_⟩
      · simp [Statement.inner?, Statement.declaration?, hx.ofTree?]
      · simp [Tree.entries, Tree.entriesAmong, hx.entries]
      · intro around n
        simp [Tree.occurrences, Tree.occurrencesAmong, hx.occurrences]
    · refine ⟨⟨name.location, name.text⟩, none, none, ?_, rfl, ?_, ?_⟩
      · simp [Statement.inner?, Statement.declaration?]
      · simp [Tree.entries, Tree.entriesAmong]
      · intro around n
        simp [Tree.occurrences, Tree.occurrencesAmong]

/-- What a statement without its node is, and how it is resolved. -/
def InnerYields (t : Tree) : Prop :=
  ∃ s, Surface.Statement.inner? t = some s ∧ ∀ around seen r, Agrees around seen r →
    Yields r (t.occurrences around seen.length) around (seen ++ t.entries) (statement s r).1.uses
      (statement s r).2

theorem assignment_yields {t : Tree} (h : IsA skips .assignment t) : InnerYields t := by
  obtain ⟨target, sign, value, stop, -, -, hvalue, -, rfl⟩ := isA_assignment.mp h
  obtain ⟨x, hx⟩ := isA_meant hvalue
  refine ⟨.assignment ⟨target.location, target.text⟩ x, ?_, ?_⟩
  · simp [Surface.Statement.inner?, hx.ofTree?]
  · intro around seen r hagrees
    obtain ⟨htarget, herrors⟩ := reference_yields hagrees target.location target.text
    have hfirst : Yields r [⟨⟨target.location, target.text⟩, around⟩] around seen
        [⟨target.location, (reference r.scopes target.location target.text).1⟩]
        (reading (reference · target.location target.text) r).2 := by
      apply reading_yields hagrees
      · rw [htarget]
        rfl
      · rw [herrors, List.flatMap_singleton]
    have hentries : (Tree.node .assignment (.leaf target) [.leaf sign, value, .leaf stop]).entries =
        [] := by
      simp [Tree.entries, Tree.entriesAmong, hx.entries]
    have hoccurrences : (Tree.node .assignment (.leaf target)
        [.leaf sign, value, .leaf stop]).occurrences around seen.length =
        [⟨⟨target.location, target.text⟩, around⟩] ++ value.occurrences around seen.length := by
      simp [Tree.occurrences, Tree.occurrencesAmong, Tree.entries]
    rw [hentries, hoccurrences, List.append_nil, statement]
    exact hfirst.append (meant_yields hfirst.agrees hx seen.length)

theorem callStatement_yields {t : Tree} (h : IsA skips .callStatement t) : InnerYields t := by
  obtain ⟨call, stop, hcall, -, rfl⟩ := isA_callStatement.mp h
  obtain ⟨place, function, arguments, hx⟩ := isA_expressionMeant hcall
  refine ⟨.call place function arguments, ?_, ?_⟩
  · simp [Surface.Statement.inner?, hx.ofTree?]
  · intro around seen r hagrees
    obtain ⟨huses, herrors⟩ := expressions_yields hagrees arguments
    have hentries : (Tree.node .callStatement call [.leaf stop]).entries = [] := by
      simp [Tree.entries, Tree.entriesAmong, hx.entries]
    have hoccurrences : (Tree.node .callStatement call [.leaf stop]).occurrences around seen.length =
        (Surface.Expr.namesAll arguments).map (⟨·, around⟩) := by
      simp [Tree.occurrences, Tree.occurrencesAmong, hx.occurrences, Surface.Expr.names]
    rw [hentries, hoccurrences, List.append_nil, statement]
    exact reading_yields hagrees (expressions · arguments) huses herrors

def BlockYields (t : Tree) : Prop :=
  ∃ opening rest, t = .node .block (.leaf opening) rest ∧ ∀ u ∈ rest, StatementYields u

theorem leaf_yields (t : Token) : StatementYields (.leaf t) :=
  passed_yields rfl rfl rfl fun _ _ => rfl

theorem skipped_yields (t : Token) (ts : List Token) : StatementYields (skippedTree t ts) := by
  apply passed_yields rfl rfl
  · simp [skippedTree, Tree.entries]
  · intro around n
    simp [skippedTree, Tree.occurrences]

theorem BlockYields.inner {t : Tree} (h : BlockYields t) : InnerYields t := by
  obtain ⟨opening, rest, rfl, hrest⟩ := h
  refine ⟨.block (Surface.Statement.body rest), rfl, ?_⟩
  intro around seen r hagrees
  rw [statement, Tree.occurrences, Tree.entries]
  exact block_yields hrest hagrees

section Guarded

variable {around : List Enclosure} {seen : List (Located Text)} {r : Resolver} {condition : Tree}
  {x : Surface.Expr} {rest : List Tree}

/-- A condition and then a block. -/
theorem guarded_yields (hx : Meant condition x) (hrest : ∀ u ∈ rest, StatementYields u)
    (h : r.Agrees around seen) :
    Yields r
      (condition.occurrences around seen.length ++ Tree.occurrencesIn around seen.length [] rest)
      around (seen ++ Tree.entriesIn [] rest)
      ((reading (expression · x) r).1.uses ++
        (inScope (statements (Surface.Statement.body rest)) (reading (expression · x) r).2).1.uses)
      (inScope (statements (Surface.Statement.body rest)) (reading (expression · x) r).2).2 := by
  have hcondition := meant_yields h hx seen.length
  exact hcondition.append (block_yields hrest hcondition.agrees)

end Guarded

/-- A loop and a conditional have the same parts up to the block. -/
theorem guarded_shape {word : Keyword} {first : Tree} {parts : List Tree}
    (h : Guarded skips word first parts)
    (ih : ∀ u ∈ parts, IsA skips .block u → BlockYields u) :
    ∃ start opening condition x closing curly rest, first = .leaf start ∧
      parts = [.leaf opening, condition, .leaf closing, .node .block (.leaf curly) rest] ∧
      Meant condition x ∧ ∀ u ∈ rest, StatementYields u := by
  obtain ⟨start, opening, condition, closing, body, -, -, hcondition, -, hbody, rfl, rfl⟩ := h
  obtain ⟨x, hx⟩ := isA_meant hcondition
  obtain ⟨curly, rest, rfl, hrest⟩ := ih body (by simp) hbody
  exact ⟨start, opening, condition, x, closing, curly, rest, rfl, rfl, hx, hrest⟩

/-- The condition is outside the scope of the block. -/
theorem loop_yields {t : Tree} (h : IsA skips .loop t)
    (ih : ∀ u ∈ t.children, IsA skips .block u → BlockYields u) : InnerYields t := by
  obtain ⟨word, parts, hguarded, rfl⟩ := isA_loop.mp h
  obtain ⟨start, opening, condition, x, closing, curly, rest, rfl, rfl, hx, hrest⟩ :=
    guarded_shape hguarded fun u hu => ih u (by simp [Tree.children, hu])
  refine ⟨.loop x (Surface.Statement.body rest), ?_, ?_⟩
  · simp [Surface.Statement.inner?, hx.ofTree?]
  · intro around seen r hagrees
    have hentries : (Tree.node .loop (.leaf start) [.leaf opening, condition, .leaf closing,
        .node .block (.leaf curly) rest]).entries = Tree.entriesIn [] rest := by
      simp [Tree.entries, Tree.entriesAmong, hx.entries]
    have hoccurrences : (Tree.node .loop (.leaf start) [.leaf opening, condition, .leaf closing,
        .node .block (.leaf curly) rest]).occurrences around seen.length =
        condition.occurrences around seen.length ++
          Tree.occurrencesIn around seen.length [] rest := by
      simp [Tree.occurrences, Tree.occurrencesAmong, Tree.entries, hx.entries]
    rw [hentries, hoccurrences, statement]
    exact guarded_yields hx hrest hagrees

/-- The rest of a conditional after its first block, and how it is resolved. -/
def RestYields (more : List Tree) : Prop :=
  ∃ o, Surface.Statement.otherwise? more = some o ∧ ∀ around seen r, Agrees around seen r →
    Yields r (Tree.occurrencesAmong around seen.length more) around (seen ++ Tree.entriesAmong more)
      (otherwise o r).1.uses (otherwise o r).2

theorem entriesAmong_alternative (word : Token) (t : Tree) :
    Tree.entriesAmong [.node .alternative (.leaf word) [t]] = t.entries := by
  simp [Tree.entries, Tree.entriesAmong]

theorem occurrencesAmong_alternative (around : List Enclosure) (n : Nat) (word : Token) (t : Tree) :
    Tree.occurrencesAmong around n [.node .alternative (.leaf word) [t]] =
      t.occurrences around n := by
  simp [Tree.occurrences, Tree.occurrencesAmong, Tree.entries]

theorem rest_nil : RestYields [] := by
  refine ⟨.nothing, rfl, ?_⟩
  intro around seen r hagrees
  rw [Tree.entriesAmong, List.append_nil, otherwise]
  exact hagrees.yields_nil

/-- A conditional, as a statement and as the alternative of another one. -/
def ConditionalYields (t : Tree) : Prop :=
  InnerYields t ∧ ∀ word, RestYields [.node .alternative (.leaf word) [t]]

/-- The alternatives do not see what the block before them declares. -/
theorem conditional_yields {start opening closing curly : Token} {condition : Tree}
    {x : Surface.Expr} {rest more : List Tree} (hx : Meant condition x)
    (hrest : ∀ u ∈ rest, StatementYields u) (hmore : RestYields more) :
    ConditionalYields (.node .conditional (.leaf start)
      (.leaf opening :: condition :: .leaf closing :: .node .block (.leaf curly) rest :: more)) := by
  obtain ⟨o, ho, hother⟩ := hmore
  have hentries : (Tree.node .conditional (.leaf start) (.leaf opening :: condition ::
      .leaf closing :: .node .block (.leaf curly) rest :: more)).entries =
      Tree.entriesIn [] rest ++ Tree.entriesAmong more := by
    simp [Tree.entries, Tree.entriesAmong, hx.entries]
  have hoccurrences : ∀ around n, (Tree.node .conditional (.leaf start) (.leaf opening :: condition ::
      .leaf closing :: .node .block (.leaf curly) rest :: more)).occurrences around n =
      condition.occurrences around n ++ Tree.occurrencesIn around n [] rest ++
        Tree.occurrencesAmong around (n + (Tree.entriesIn [] rest).length) more := by
    intro around n
    simp [Tree.occurrences, Tree.occurrencesAmong, Tree.entries, hx.entries]
  -- as a statement and behind `else` a conditional is resolved in the same way
  have hrun : ∀ around (seen : List (Located Text)) r, Agrees around seen r → Yields r
      (condition.occurrences around seen.length ++ Tree.occurrencesIn around seen.length [] rest ++
        Tree.occurrencesAmong around (seen.length + (Tree.entriesIn [] rest).length) more)
      around (seen ++ (Tree.entriesIn [] rest ++ Tree.entriesAmong more))
      ((reading (expression · x) r).1.uses ++
        ((inScope (statements (Surface.Statement.body rest)) (reading (expression · x) r).2).1.uses ++
        (otherwise o (inScope (statements (Surface.Statement.body rest))
          (reading (expression · x) r).2).2).1.uses))
      (otherwise o (inScope (statements (Surface.Statement.body rest))
        (reading (expression · x) r).2).2).2 := by
    intro around seen r hagrees
    have hguarded := guarded_yields hx hrest hagrees
    have hall := hguarded.append (hother around _ _ hguarded.agrees)
    rw [List.append_assoc seen, List.length_append, List.append_assoc (Expr.uses _)] at hall
    exact hall
  constructor
  · refine ⟨.conditional x (Surface.Statement.body rest) o, ?_, ?_⟩
    · simp [Surface.Statement.inner?, hx.ofTree?, ho]
    · intro around seen r hagrees
      rw [hentries, hoccurrences, statement]
      exact hrun around seen r hagrees
  · intro word
    refine ⟨.conditional x (Surface.Statement.body rest) o, ?_, ?_⟩
    · simp [Surface.Statement.otherwise?, hx.ofTree?, ho]
    · intro around seen r hagrees
      rw [entriesAmong_alternative, occurrencesAmong_alternative, hentries, hoccurrences, otherwise]
      exact hrun around seen r hagrees

theorem BlockYields.rest {t : Tree} (h : BlockYields t) (word : Token) :
    RestYields [.node .alternative (.leaf word) [t]] := by
  obtain ⟨opening, rest, rfl, hrest⟩ := h
  refine ⟨.block (Surface.Statement.body rest), ?_, ?_⟩
  · simp [Surface.Statement.otherwise?]
  · intro around seen r hagrees
    rw [entriesAmong_alternative, occurrencesAmong_alternative, Tree.entries, Tree.occurrences,
      otherwise]
    exact block_yields hrest hagrees

/-- A statement that declares nothing leaves what is visible as it was. -/
theorem InnerYields.statement {inner : Tree} (h : InnerYields inner) {r : Rule}
    (hisA : IsA skips r inner) (hr : r ≠ .statement) (hr' : r ≠ .declaration) :
    StatementYields (.node .statement inner []) := by
  obtain ⟨s, hs, hyields⟩ := h
  obtain ⟨first, rest, -, rfl⟩ := (isA_iff hr).mp hisA
  apply plain_yields hs ?_ hyields
  simp [Tree.declared?, hr']

/-- What is said of a tree of each rule of statements. -/
def Lexically (t : Tree) : Rule → Prop
  | .statement => StatementYields t
  | .block => BlockYields t
  | .loop => InnerYields t
  | .conditional => ConditionalYields t
  | .alternative => RestYields [t]
  | _ => True

/-- One case for each rule that has statements or blocks in it, from the children of the node. -/
theorem lexically_of_children {r : Rule} {t : Tree} (h : IsA skips r t)
    (ih : ∀ u ∈ t.children, ∀ r, IsA skips r u → Lexically u r) : Lexically t r := by
  cases r with
  | statement =>
    rcases isA_statement.mp h with ⟨inner, hinner, rfl⟩ | ⟨u, us, -, rfl⟩
    · have hchild := ih inner (by simp [Tree.children])
      rcases hinner with hinner | hinner | hinner | hinner | hinner | hinner
      · obtain ⟨name, type, initial, hs, hd, hentries, hoccurrences⟩ := declaration_meant hinner
        exact declaration_yields hs hd hentries hoccurrences
      · exact (assignment_yields hinner).statement hinner (by decide) (by decide)
      · have hconditional : ConditionalYields inner := hchild _ hinner
        exact hconditional.1.statement hinner (by decide) (by decide)
      · have hloop : InnerYields inner := hchild _ hinner
        exact hloop.statement hinner (by decide) (by decide)
      · exact (callStatement_yields hinner).statement hinner (by decide) (by decide)
      · have hblock : BlockYields inner := hchild _ hinner
        exact hblock.inner.statement hinner (by decide) (by decide)
    · exact skipped_yields u us
  | block =>
    obtain ⟨opening, body, closing, -, hbody, -, rfl⟩ := isA_block.mp h
    refine ⟨opening, body ++ [.leaf closing], rfl, ?_⟩
    intro u hu
    rcases List.mem_append.mp hu with hu | hu
    · exact ih u (by simp [Tree.children, hu]) _ (hbody u hu)
    · rw [List.mem_singleton.mp hu]
      exact leaf_yields closing
  | loop => exact loop_yields h fun u hu hisA => ih u hu _ hisA
  | conditional =>
    obtain ⟨word, parts, hguarded, ht⟩ := isA_conditional.mp h
    have hparts : ∀ u ∈ parts, IsA skips .block u → BlockYields u := by
      intro u hu hisA
      rcases ht with rfl | ⟨other, -, rfl⟩
      · exact ih u (by simp [Tree.children, hu]) _ hisA
      · exact ih u (by simp [Tree.children, hu]) _ hisA
    obtain ⟨start, opening, condition, x, closing, curly, rest, rfl, rfl, hx, hrest⟩ :=
      guarded_shape hguarded hparts
    rcases ht with rfl | ⟨other, hother, rfl⟩
    · exact conditional_yields hx hrest rest_nil
    · exact conditional_yields hx hrest (ih other (by simp [Tree.children]) _ hother)
  | alternative =>
    obtain ⟨word, body, -, hbody, rfl⟩ := isA_alternative.mp h
    rcases hbody with hbody | hbody
    · have hblock : BlockYields body := ih body (by simp [Tree.children]) _ hbody
      exact hblock.rest word
    · have hconditional : ConditionalYields body := ih body (by simp [Tree.children]) _ hbody
      exact hconditional.2 word
  | _ => trivial

theorem isA_statementYields {t : Tree} (h : IsA skips .statement t) : StatementYields t := by
  have hall : ∀ (t : Tree) (r : Rule), IsA skips r t → Lexically t r := by
    intro t
    induction t using Tree.children_induction with
    | step t ih => exact fun r hr => lexically_of_children hr ih
  exact hall t .statement h

end Trees

end Resolver

def Tree.programOccurrences (t : Tree) : List Occurrence := occurrencesIn [] 0 [] t.children

open ImpC.Grammar ImpC.Parser

/-- Every statement of a program that was read is resolved by lexical scope. -/
theorem parse_statementYields {tokens : List Token} {tree : Tree}
    (h : (parse tokens).tree = some tree) : ∀ t ∈ tree.children, Resolver.StatementYields t := by
  obtain ⟨first, more, rfl, -, hall⟩ := parse_tree h
  intro t ht
  rw [Tree.children, ← List.cons_append, List.mem_append] at ht
  rcases ht with ht | ht
  · exact Resolver.isA_statementYields (hall (fun _ => True) (fun _ _ _ => trivial) t ht)
  · obtain ⟨u, -, rfl⟩ := List.mem_map.mp ht
    exact Resolver.leaf_yields u

/-- Every use of a name is resolved to the first declaration of the name before it in the innermost
list of statements that has one, by the entry of this declaration in the table; and an error is
recorded for each use without such a declaration, and for no other. -/
theorem resolve_lexical {tokens : List Token} {tree : Tree} (h : (parse tokens).tree = some tree) :
    (resolve (Surface.ofTree tree)).program.uses =
        tree.programOccurrences.map Occurrence.resolved ∧
      (∀ o ∈ tree.programOccurrences, o.index?.isSome = o.declaration?.isSome ∧
        ∀ i, o.index? = some i →
          (resolve (Surface.ofTree tree)).table[i]?.map Variable.declared = o.declaration?) ∧
      Resolver.unresolved (resolve (Surface.ofTree tree)).errors =
        tree.programOccurrences.flatMap Occurrence.missing := by
  have hstart : Resolver.Agrees [] [] ⟨[], 0, [], []⟩ := ⟨.nil, rfl⟩
  obtain ⟨huses, herrors, hagrees⟩ := Resolver.block_yields (parse_statementYields h) hstart
  refine ⟨huses, ?_, herrors⟩
  intro o ho
  refine ⟨o.isSome_index?, ?_⟩
  intro i hi
  have hwithin : OccurWithin (Tree.entriesIn [] tree.children) tree.programOccurrences := by
    apply Tree.occurrencesIn_within
    · intro e he
      cases he
    · exact ⟨[], rfl, List.prefix_refl _⟩
  have htable : (resolve (Surface.ofTree tree)).table.map Variable.declared =
      Tree.entriesIn [] tree.children := hagrees.table
  rw [← List.getElem?_map, htable]
  exact Occurrence.getElem?_index? (hwithin o ho) hi

/-- `var x = x; if (x) { x = y; var x = x; var x; x = x; } else { var y = x; } y = x;` -/
def nestedScopesTokens : List Token :=
  let x : Token := ⟨.ident, ['x'], nowhere⟩
  let y : Token := ⟨.ident, ['y'], nowhere⟩
  [blank (.keyword .var), x, blank (.op .assign), x, blank .semicolon,
    blank (.keyword .if_), blank .openParen, x, blank .closeParen, blank .openCurly,
    x, blank (.op .assign), y, blank .semicolon,
    blank (.keyword .var), x, blank (.op .assign), x, blank .semicolon,
    blank (.keyword .var), x, blank .semicolon,
    x, blank (.op .assign), x, blank .semicolon, blank .closeCurly,
    blank (.keyword .else_), blank .openCurly,
    blank (.keyword .var), y, blank (.op .assign), x, blank .semicolon, blank .closeCurly,
    y, blank (.op .assign), x, blank .semicolon, blank .eof]

theorem resolve_lexical_nested :
    ∃ tree, (parse nestedScopesTokens).tree = some tree ∧
      (resolve (Surface.ofTree tree)).program.uses.map (·.value.referent) =
        [none, some 0, some 0, none, some 0, some 1, some 1, some 0, none, some 0] ∧
      (Resolver.unresolved (resolve (Surface.ofTree tree)).errors).map (·.value) =
        [.unresolvedReference ['x'], .unresolvedReference ['y'], .unresolvedReference ['y']] := by
  have hparse : ((parse nestedScopesTokens).tree.map fun t => t.programOccurrences.map (·.index?)) =
      some [none, some 0, some 0, none, some 0, some 1, some 1, some 0, none, some 0] := by decide
  have herrors : ((parse nestedScopesTokens).tree.map fun t =>
      (t.programOccurrences.flatMap Occurrence.missing).map (·.value)) =
      some [.unresolvedReference ['x'], .unresolvedReference ['y'], .unresolvedReference ['y']] := by
    decide
  obtain ⟨tree, htree, hindices⟩ := Option.map_eq_some_iff.mp hparse
  rw [htree, Option.map_some, Option.some.injEq] at herrors
  obtain ⟨huses, -, hmissing⟩ := resolve_lexical htree
  refine ⟨tree, htree, ?_, ?_⟩
  · rw [huses, List.map_map, ← hindices]
    rfl
  · rw [hmissing, herrors]

end ImpC
