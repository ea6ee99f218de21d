import Mathlib.Data.List.Forall2
import ImpC.Proofs.Program.Table
import ImpC.Proofs.Program.Correspondence

/-!
# Declarations and the table of variables

The declarations in a tree, each with the list of statements that it stands in, beside those of the
resolved program. The first declaration of a name in a list is an entry of the table; every other
one is an error and stands for the variable of the first. The type of a variable can be read off the
final table, since what an initial value refers to has been declared before it.
-/
namespace ImpC

/-- A declaration in a tree: what it gives, and the statements before it in its list. -/
structure Declaration where
  name : Located Text
  type : Option Ty
  initial : Option Tree
  within : Enclosure

namespace Declaration

/-- No statement before it in the list declares the name. -/
def isFirst (d : Declaration) : Bool := (d.within.declaration? d.name.value).isNone

/-- The first declaration of the name in the list. -/
def first (d : Declaration) : Located Text :=
  (d.within.declaration? d.name.value).getD d.name

/-- The number of the variable, by the number of variables declared before its first declaration. -/
def index (d : Declaration) : Nat :=
  (d.within.index? d.name.value).getD
    (d.within.earlier + (Tree.entriesIn [] d.within.before).length)

/-- The error of a declaration that is not the first. -/
def repeated (d : Declaration) : Located SemanticError :=
  ⟨d.name.location, .duplicateDeclaration d.name.value⟩

/-- A declaration is the first of its name if its block has none before it. -/
theorem isFirst_eq (d : Declaration) : d.isFirst = (d.within.index? d.name.value).isNone := by
  simp [isFirst, Enclosure.declaration?, Enclosure.index?]

end Declaration

namespace Tree

/-- The type among what follows the name of a declaration. -/
def givenType? : List Tree → Option Ty
  | .node .typeClause _ [.leaf type] :: _ =>
    some (match type.kind with
      | .keyword .int => .int
      | .keyword .float => .float
      | .keyword .bool => .bool
      | .keyword .string => .string
      | _ => .named type.text)
  | _ => none

/-- The initial value, between its sign and the semicolon. -/
def givenValue? : List Tree → Option Tree
  | [_, value, _] | [_, _, value, _] => some value
  | _ => none

def declaration? (within : Enclosure) : Tree → Option Declaration
  | .node .statement (.node .declaration _ (.leaf name :: rest)) [] =>
    some ⟨⟨name.location, name.text⟩, givenType? rest, givenValue? rest, within⟩
  | _ => none

mutual

/-- The declarations inside a tree, in order. Before the tree `seen` variables are declared. -/
def declarations (seen : Nat) : Tree → List Declaration
  | .leaf _ => []
  | .node .block _ rest => declarationsIn seen [] rest
  | .node _ first rest =>
    first.declarations seen ++ declarationsAmong (seen + first.entries.length) rest

def declarationsAmong (seen : Nat) : List Tree → List Declaration
  | [] => []
  | t :: ts => t.declarations seen ++ declarationsAmong (seen + t.entries.length) ts

/-- Those in a list of statements, after the statements `before`. -/
def declarationsIn (earlier : Nat) (before : List Tree) : List Tree → List Declaration
  | [] => []
  | t :: ts =>
    (t.declaration? ⟨earlier, before⟩).toList ++
      (t.declarations (earlier + (entriesIn [] before ++ firstDeclared before t).length) ++
        declarationsIn earlier (before ++ [t]) ts)

end

def programDeclarations (t : Tree) : List Declaration := declarationsIn 0 [] t.children

end Tree

/-- A declaration of a resolved program: the scope around it, its variable and the initial value. -/
structure Introduction where
  scope : Nat
  index : Nat
  initial : Option Expr

mutual

/-- The declarations of a statement in the scope `scope`, in order. -/
def Statement.introductions (scope : Nat) : Statement → List Introduction
  | .declaration index initial => [⟨scope, index, initial.map (·.value)⟩]
  | .assignment _ | .call _ _ _ => []
  | .conditional _ body rest => body.introductions ++ rest.introductions
  | .loop _ body | .block body => body.introductions

def Otherwise.introductions : Otherwise → List Introduction
  | .nothing => []
  | .block body => body.introductions
  | .conditional _ body rest => body.introductions ++ rest.introductions

def Block.introductions : Block → List Introduction
  | .mk scope statements => Statement.introductionsAll scope statements

def Statement.introductionsAll (scope : Nat) : List Statement → List Introduction
  | [] => []
  | s :: ss => s.introductions scope ++ Statement.introductionsAll scope ss

end

/-- How a declaration of the tree is resolved: its variable is the one of the first declaration, in
the scope of the block around it, and the first declaration gives the variable its type. -/
structure Declaration.Entered (table : List Variable) (d : Declaration) (i : Introduction) : Prop
    where
  index : i.index = d.index
  initial : Option.Rel Denotes d.initial i.initial
  entry : ∃ v, table[i.index]? = some v ∧ v.declared = d.first ∧ v.scope = i.scope ∧
    (d.isFirst = true → v.type = (d.type.or (i.initial.map (·.type table))).getD .unknown)

namespace Tree

theorem name_declaration? (within : Enclosure) (t : Tree) :
    (t.declaration? within).map (·.name) = t.declared? := by
  unfold declaration? declared?
  split <;> simp

theorem within_declaration? {within : Enclosure} {t : Tree} {d : Declaration}
    (h : t.declaration? within = some d) : d.within = within := by
  unfold declaration? at h
  split at h
  · cases h
    rfl
  · cases h

/-- What a statement declares for the first time, with its number. -/
theorem firsts_declaration? (earlier : Nat) (before : List Tree) (t : Tree) :
    ((t.declaration? ⟨earlier, before⟩).toList.filter (·.isFirst)).map
        (fun d => (d.name, d.index)) =
      (firstDeclared before t).zipIdx (earlier + (entriesIn [] before).length) := by
  have hname := name_declaration? ⟨earlier, before⟩ t
  cases hd : t.declaration? ⟨earlier, before⟩ with
  | none =>
    rw [hd] at hname
    rw [firstDeclared, ← hname]
    rfl
  | some d =>
    have hwithin := within_declaration? hd
    rw [hd] at hname
    rw [Resolver.firstDeclared_of_some hname.symm earlier, ← hwithin, ← d.isFirst_eq]
    cases hfirst : d.isFirst with
    | false => simp [hfirst]
    | true =>
      have hindex : d.index = earlier + (entriesIn [] before).length := by
        rw [d.isFirst_eq, Option.isNone_iff_eq_none] at hfirst
        rw [Declaration.index, hfirst, hwithin]
        rfl
      simp [hfirst, hindex]

mutual

/-- The first declarations get the places of the table one after the other. -/
theorem firsts_declarations (t : Tree) (seen : Nat) :
    ((t.declarations seen).filter (·.isFirst)).map (fun d => (d.name, d.index)) =
      t.entries.zipIdx seen := by
  unfold declarations
  split
  · rfl
  · rename_i opening rest
    rw [entries]
    exact firsts_declarationsIn rest seen []
  · rename_i r first rest hblock
    rw [entries, List.filter_append, List.map_append, firsts_declarations first seen,
      firsts_declarationsAmong rest, List.zipIdx_append]
    exact fun hr => hblock hr
termination_by sizeOf t

theorem firsts_declarationsAmong (ts : List Tree) (seen : Nat) :
    ((declarationsAmong seen ts).filter (·.isFirst)).map (fun d => (d.name, d.index)) =
      (entriesAmong ts).zipIdx seen := by
  match ts with
  | [] => rfl
  | t :: ts =>
    rw [declarationsAmong, entriesAmong, List.filter_append, List.map_append,
      firsts_declarations t seen, firsts_declarationsAmong ts, List.zipIdx_append]
termination_by sizeOf ts

/-- The first declarations are the variables, in the order of their numbers. -/
theorem firsts_declarationsIn (ts : List Tree) (earlier : Nat) (before : List Tree) :
    ((declarationsIn earlier before ts).filter (·.isFirst)).map (fun d => (d.name, d.index)) =
      (entriesIn before ts).zipIdx (earlier + (entriesIn [] before).length) := by
  match ts with
  | [] => rfl
  | t :: ts =>
    rw [declarationsIn, entriesIn, List.filter_append, List.filter_append, List.map_append,
      List.map_append, firsts_declaration?, firsts_declarations t, firsts_declarationsIn ts,
      List.zipIdx_append, List.zipIdx_append, entriesIn_concat]
    simp only [List.length_append, Nat.add_assoc]
termination_by sizeOf ts

end

theorem firsts_programDeclarations (t : Tree) :
    (t.programDeclarations.filter (·.isFirst)).map (fun d => (d.name, d.index)) =
      (entriesIn [] t.children).zipIdx :=
  firsts_declarationsIn t.children 0 []

theorem names_firsts (t : Tree) :
    (t.programDeclarations.filter (·.isFirst)).map (·.name) = entriesIn [] t.children := by
  have hfirsts := congrArg (List.map Prod.fst) t.firsts_programDeclarations
  simpa [Function.comp_def] using hfirsts

/-- The table is filled without gaps. -/
theorem indices_firsts (t : Tree) :
    (t.programDeclarations.filter (·.isFirst)).map (·.index) =
      List.range (entriesIn [] t.children).length := by
  have hfirsts := congrArg (List.map Prod.snd) t.firsts_programDeclarations
  simpa [List.range_eq_range', Function.comp_def] using hfirsts

theorem declarationsAmong_append (seen : Nat) (s t : List Tree) :
    declarationsAmong seen (s ++ t) =
      declarationsAmong seen s ++ declarationsAmong (seen + (entriesAmong s).length) t := by
  induction s generalizing seen with
  | nil => rfl
  | cons a s ih => simp [declarationsAmong, entriesAmong, ih, Nat.add_assoc]

theorem declarationsAmong_leaves (seen : Nat) (ts : List Token) :
    declarationsAmong seen (ts.map .leaf) = [] := by
  induction ts generalizing seen with
  | nil => rfl
  | cons t ts ih => simpa [declarationsAmong, declarations] using ih _

end Tree

section Trees

open ImpC.Grammar ImpC.Surface

/-- There are no declarations below rules that do not lead to a block. -/
theorem Grammar.Derives.declarations_flat {skips : List Token → Prop} {p : Phrase}
    {trees : List Tree} (h : Derives skips p trees)
    (hp : p.within (fun _ => true) isFlat = true) :
    ∀ seen, Tree.declarationsAmong seen trees = [] := by
  induction h with
  | token => exact fun _ => rfl
  | @node r first rest h ih =>
    intro seen
    have hr : r ≠ .block := by
      rintro rfl
      cases hp
    have hchildren := ih (production_flat hp) seen
    simp only [Tree.declarationsAmong, List.append_nil]
    rw [Tree.declarations]
    · exact hchildren
    · exact hr
  | skipped h => cases hp
  | empty | none => exact fun _ => rfl
  | seq _ _ ih ih' =>
    simp only [Phrase.within, Bool.and_eq_true] at hp
    intro seen
    rw [Tree.declarationsAmong_append, ih hp.1, ih' hp.2, List.append_nil]
  | first _ ih =>
    simp only [Phrase.within, Bool.and_eq_true] at hp
    exact ih hp.1
  | second _ ih =>
    simp only [Phrase.within, Bool.and_eq_true] at hp
    exact ih hp.2
  | more _ _ ih ih' =>
    intro seen
    rw [Tree.declarationsAmong_append, ih hp, ih' hp, List.append_nil]

/-- Nothing is declared inside an expression. -/
theorem Surface.Expr.Reads.declarations {t : Tree} {x : Surface.Expr} (h : x.Reads t) (seen : Nat) :
    t.declarations seen = [] := by
  obtain ⟨r, hr, hd⟩ := h.derived
  have hflat := hd.declarations_flat (by simp [Phrase.within, isFlat, hr]) seen
  simpa [Tree.declarationsAmong] using hflat

section Shapes

variable {tree : Tree} {x : Surface.Expr}

theorem declarations_assignment (h : x.Reads tree) (id sign stop : Token) (n : Nat) :
    (Tree.node .assignment (.leaf id) [.leaf sign, tree, .leaf stop]).declarations n = [] := by
  simp [Tree.declarations, Tree.declarationsAmong, h.declarations]

theorem declarations_call (h : x.Reads tree) (stop : Token) (n : Nat) :
    (Tree.node .callStatement tree [.leaf stop]).declarations n = [] := by
  simp [Tree.declarations, Tree.declarationsAmong, h.declarations]

/-- There may be declarations in the blocks of a conditional, not in its condition. -/
theorem declarations_conditional (h : x.Reads tree) (start opening closing curly : Token)
    (ts more : List Tree) (n : Nat) :
    (Tree.node .conditional (.leaf start) (.leaf opening :: tree :: .leaf closing ::
      .node .block (.leaf curly) ts :: more)).declarations n =
      Tree.declarationsIn n [] ts ++
        Tree.declarationsAmong (n + (Tree.entriesIn [] ts).length) more := by
  simp [Tree.declarations, Tree.declarationsAmong, Tree.entries, h.declarations, h.meant.entries]

theorem declarations_loop (h : x.Reads tree) (start opening closing curly : Token)
    (ts : List Tree) (n : Nat) :
    (Tree.node .loop (.leaf start) [.leaf opening, tree, .leaf closing,
      .node .block (.leaf curly) ts]).declarations n = Tree.declarationsIn n [] ts := by
  simp [Tree.declarations, Tree.declarationsAmong, Tree.entries, h.declarations, h.meant.entries]

theorem declarationsAmong_alternative (word : Token) (t : Tree) (n : Nat) :
    Tree.declarationsAmong n [.node .alternative (.leaf word) [t]] = t.declarations n := by
  simp [Tree.declarations, Tree.declarationsAmong, Tree.entries]

theorem declarations_declaration {clause value : List Tree} {type : Option Ty}
    {initial : Option Surface.Expr} (htype : ReadsType clause type)
    (hinitial : ReadsInitial value initial) (word id stop : Token) (n : Nat) :
    (Tree.node .declaration (.leaf word)
      (.leaf id :: clause ++ value ++ [.leaf stop])).declarations n = [] := by
  cases htype with
  | absent =>
    cases hinitial with
    | absent => rfl
    | given sign h => simp [Tree.declarations, Tree.declarationsAmong, h.declarations]
  | given colon kind =>
    cases hinitial with
    | absent => rfl
    | given sign h => simp [Tree.declarations, Tree.declarationsAmong, h.declarations]

end Shapes

/-- A tree that is passed over declares nothing. -/
theorem Surface.Passed.silent {t : Tree} (h : Passed t) :
    t.declared? = none ∧ t.entries = [] ∧ ∀ seen, t.declarations seen = [] := by
  cases h with
  | leaf t => exact ⟨rfl, rfl, fun _ => rfl⟩
  | skipped t ts =>
    refine ⟨rfl, by simp [skippedTree, Tree.entries], fun seen => ?_⟩
    simp [skippedTree, Tree.declarations, Tree.declarationsAmong_leaves]

/-- A tree that stands for no statement adds nothing to its list. -/
theorem Surface.Passed.declarationsIn_cons {t : Tree} (h : Passed t) (earlier : Nat)
    (before ts : List Tree) :
    Tree.declarationsIn earlier before (t :: ts) =
      Tree.declarationsIn earlier (before ++ [t]) ts := by
  obtain ⟨hd, -, hdeclarations⟩ := h.silent
  have hnone : t.declaration? ⟨earlier, before⟩ = none := by
    rw [← Option.map_eq_none_iff (f := (·.name)), Tree.name_declaration?, hd]
  rw [Tree.declarationsIn, hnone, hdeclarations]
  rfl

end Trees

def SemanticError.isDuplicate : SemanticError → Bool
  | .duplicateDeclaration _ => true
  | _ => false

namespace Resolver

open ImpC.Grammar ImpC.Surface

def duplicates (errors : Errors) : Errors := errors.filter (·.value.isDuplicate)

theorem duplicates_append (errors more : Errors) :
    duplicates (errors ++ more) = duplicates errors ++ duplicates more := List.filter_append ..

section Expressions

variable (scopes : List Scope)

theorem duplicates_reference (place : Location) (name : Text) :
    duplicates (reference scopes place name).2 = [] := by
  rw [reference]
  cases lookup scopes name <;> rfl

theorem duplicates_literal (place : Location) (value : Surface.Literal) :
    duplicates (literal place value).2 = [] := by
  cases value with
  | int spelling =>
    rw [literal]
    cases Int32.ofSpelling? spelling <;> rfl
  | _ => rfl

mutual

theorem duplicates_expression : ∀ x : Surface.Expr, duplicates (expression scopes x).2 = []
  | .literal place value => duplicates_literal place value
  | .name place name => duplicates_reference scopes place name
  | .unary _ _ operand => duplicates_expression operand
  | .binary _ _ left right => by
    rw [expression, duplicates_append, duplicates_expression left, duplicates_expression right]
    rfl
  | .call _ _ arguments => duplicates_expressions arguments

theorem duplicates_expressions : ∀ xs : List Surface.Expr,
    duplicates (expressions scopes xs).2 = []
  | [] => rfl
  | x :: xs => by
    rw [expressions, duplicates_append, duplicates_expression x, duplicates_expressions xs]
    rfl

end

end Expressions

/-- From `r` to `r'` the declarations `ds` have been resolved, as `found`. -/
structure Enters (r : Resolver) (ds : List Declaration) (found : List Introduction)
    (r' : Resolver) : Prop where
  grows : r.table <+: r'.table
  errors : duplicates r'.errors =
    duplicates r.errors ++ (ds.filter (!·.isFirst)).map Declaration.repeated
  entered : ∀ table, r'.table <+: table → List.Forall₂ (Declaration.Entered table) ds found

theorem enters_nil (r : Resolver) : Enters r [] [] r :=
  ⟨List.prefix_refl _, (List.append_nil _).symm, fun _ _ => .nil⟩

/-- What is entered in two parts is entered in the order of the parts. -/
theorem Enters.append {r r' r'' : Resolver} {ds ds' : List Declaration}
    {found found' : List Introduction} (h : Enters r ds found r') (h' : Enters r' ds' found' r'') :
    Enters r (ds ++ ds') (found ++ found') r'' := by
  refine ⟨h.grows.trans h'.grows, ?_, fun table htable => ?_⟩
  · rw [h'.errors, h.errors, List.filter_append, List.map_append, List.append_assoc]
  · exact List.rel_append (h.entered table (h'.grows.trans htable)) (h'.entered table htable)

theorem reading_enters {α : Type} (part : List Scope → α × Errors) (r : Resolver)
    (h : duplicates (part r.scopes).2 = []) : Enters r [] [] (reading part r).2 := by
  refine ⟨List.prefix_refl _, ?_, fun _ _ => .nil⟩
  have hboth : duplicates (r.errors ++ (part r.scopes).2) = duplicates r.errors ++ [] := by
    rw [duplicates_append, h]
  exact hboth

/-- A place in a list of statements has been reached, in the scope `number`: the statements `before`
have been resolved, and the variables `seen` declared. -/
structure Reached (earlier : Nat) (before : List Tree) (outer : List Enclosure)
    (seen : List (Located Text)) (number : Nat) (r : Resolver) : Prop where
  agrees : r.Agrees (⟨earlier, before⟩ :: outer) seen
  orderly : r.Orderly
  scope : (path r.scopes).head? = some number
  entries : ∃ pre, pre.length = earlier ∧ seen = pre ++ Tree.entriesIn [] before

section Reached

variable {earlier number : Nat} {before : List Tree} {outer around : List Enclosure}
  {seen : List (Located Text)} {r : Resolver}

/-- The table has what was there before the block and the first declarations of the block so far. -/
theorem Reached.length (h : Reached earlier before outer seen number r) :
    seen.length = earlier + (Tree.entriesIn [] before).length := by
  obtain ⟨pre, hpre, heq⟩ := h.entries
  rw [heq, List.length_append, hpre]

/-- A block starts with nothing declared in it. -/
theorem reached_enter (h : r.Agrees around seen) (hr : r.Orderly) :
    Reached seen.length [] around seen r.nextScope r.enter :=
  ⟨⟨.cons (fun _ => rfl) h.scopes, h.table⟩, hr.enter, rfl, seen, rfl, (List.append_nil _).symm⟩

theorem Reached.report (h : Reached earlier before outer seen number r) (errors : Errors) :
    Reached earlier before outer seen number (r.report errors) :=
  ⟨⟨h.agrees.scopes, h.agrees.table⟩, h.orderly.report errors, h.scope, h.entries⟩

theorem Reached.passed (h : Reached earlier before outer seen number r) {t : Tree}
    (ht : Passed t) : Reached earlier (before ++ [t]) outer seen number r := by
  obtain ⟨hd, hentries, -⟩ := ht.silent
  obtain ⟨pre, hpre, heq⟩ := h.entries
  refine ⟨h.agrees.pass hd, h.orderly, h.scope, pre, hpre, ?_⟩
  rw [Tree.entriesIn_concat, firstDeclared_of_none hd, hentries, heq, List.append_nil,
    List.append_nil]

/-- The statement that was read becomes the last of those before. -/
theorem Reached.next (h : Reached earlier before outer seen number r) {inner : Tree}
    {s : Surface.Statement} (hisA : Derived .statement (.node .statement inner []))
    (hs : s.Reads inner) :
    Reached earlier (before ++ [.node .statement inner []]) outer
      (seen ++ (Tree.firstDeclared before (.node .statement inner []) ++
        (Tree.node .statement inner []).entries)) number (statement s r).2 := by
  have hyields := isA_statementYields hisA earlier before outer seen r h.length h.agrees
  have hof : Surface.Statement.ofTree? (.node .statement inner []) = some s := hs.inner?
  obtain ⟨pre, hpre, heq⟩ := h.entries
  refine ⟨?_, statement_orderly s h.orderly, ?_, pre, hpre, ?_⟩
  · have hagrees := hyields.agrees
    rw [hof, Option.toList_some, statements_cons] at hagrees
    exact hagrees
  · rw [statement_path]
    exact h.scope
  · rw [Tree.entriesIn_concat, heq, List.append_assoc]

/-- The variable that a repeated declaration stands for is the one of the first. -/
theorem Reached.first_of_some (h : Reached earlier before outer seen number r) {x : Text} {i : Nat}
    (hi : Enclosure.index? ⟨earlier, before⟩ x = some i) {v : Variable}
    (hv : r.table[i]? = some v) :
    Enclosure.declaration? ⟨earlier, before⟩ x = some v.declared := by
  obtain ⟨pre, hpre, heq⟩ := h.entries
  have hwithin : Enclosure.Within seen ⟨earlier, before⟩ := ⟨pre, hpre, heq ▸ List.prefix_refl _⟩
  rw [← hwithin.getElem? hi, ← h.agrees.table, List.getElem?_map, hv]
  rfl

theorem declaredType_eq (table : List Variable) (type : Option Ty) (initial : Option Expr) :
    declaredType table type initial = (type.or (initial.map (·.type table))).getD .unknown := by
  cases type <;> cases initial <;> rfl

/-- The innermost scope is that of the list, and has the names that the list declares so far. -/
theorem Reached.innermost (h : Reached earlier before outer seen number r) :
    ∃ scope outer, r.scopes = scope :: outer ∧ scope.number = number ∧
      ∀ x, scope.names.lookup x = Enclosure.index? ⟨earlier, before⟩ x := by
  obtain ⟨scope, scopes, hscope, -, hr⟩ := List.forall₂_cons_right_iff.mp h.agrees.scopes
  exact ⟨scope, scopes, hr, by simpa [path, hr] using h.scope, hscope⟩

section Declare

variable {d : Declaration} {o : Option Expr} (h : Reached earlier before outer seen number r)
  (hd : d.within = ⟨earlier, before⟩) (hinitial : Option.Rel Denotes d.initial o)
include h hd hinitial

/-- A repeated name is reported, and it still means the place it had. -/
theorem declare_enters_again {i : Nat} (hi : d.within.index? d.name.value = some i) (type : Ty) :
    Enters r [d] [⟨number, (declare d.name type r).1, o⟩] (declare d.name type r).2 := by
  obtain ⟨scope, scopes, hr, rfl, hnames⟩ := h.innermost
  have hfound : scope.names.lookup d.name.value = some i := by rw [hnames, ← hd, hi]
  obtain ⟨v, hv, hnumber⟩ := h.orderly.recorded scope (by simp [hr]) _ _ hfound
  have hdeclaration : d.within.declaration? d.name.value = some v.declared := by
    rw [hd] at hi ⊢
    exact h.first_of_some hi hv
  have hfirst : d.isFirst = false := by rw [d.isFirst_eq, hi]; rfl
  rw [declare_again hr hfound]
  refine ⟨List.prefix_refl _, ?_, fun table htable => .cons ⟨?_, hinitial, v, ?_⟩ .nil⟩
  · rw [duplicates_append, List.filter_cons_of_pos (by simp [hfirst])]
    rfl
  · rw [Declaration.index, hi]
    rfl
  · have hentry := getElem?_of_prefix htable hv
    refine ⟨hentry, ?_, hnumber, fun htrue => absurd htrue (by simp [hfirst])⟩
    rw [Declaration.first, hdeclaration]
    rfl

/-- A new name gets the next place of the table. -/
theorem declare_enters_first (hi : d.within.index? d.name.value = none)
    (hstable : ∀ table, r.table <+: table →
      declaredType table d.type o = declaredType r.table d.type o) :
    Enters r [d] [⟨number, (declare d.name (declaredType r.table d.type o) r).1, o⟩]
      (declare d.name (declaredType r.table d.type o) r).2 := by
  obtain ⟨scope, scopes, hr, rfl, hnames⟩ := h.innermost
  have hfound : scope.names.lookup d.name.value = none := by rw [hnames, ← hd, hi]
  have hfirst : d.isFirst = true := by rw [d.isFirst_eq, hi]; rfl
  have hlength : r.table.length = earlier + (Tree.entriesIn [] before).length := by
    rw [← h.length, ← h.agrees.table, List.length_map]
  rw [declare_new hr hfound]
  refine ⟨List.prefix_append _ _, ?_, fun table htable => .cons ⟨?_, hinitial, _,
    getElem?_of_prefix htable List.getElem?_concat_length, ?_, rfl, fun _ => ?_⟩ .nil⟩
  · rw [List.filter_cons_of_neg (by simp [hfirst])]
    exact (List.append_nil _).symm
  · rw [Declaration.index, hi, hd]
    exact hlength
  · rw [Declaration.isFirst, Option.isNone_iff_eq_none] at hfirst
    rw [Declaration.first, hfirst]
    rfl
  · rw [← declaredType_eq, hstable table ((List.prefix_append _ _).trans htable)]

theorem declare_enters (hstable : ∀ table, r.table <+: table →
      declaredType table d.type o = declaredType r.table d.type o) :
    Enters r [d] [⟨number, (declare d.name (declaredType r.table d.type o) r).1, o⟩]
      (declare d.name (declaredType r.table d.type o) r).2 := by
  cases hi : d.within.index? d.name.value with
  | some i => exact declare_enters_again h hd hinitial hi _
  | none => exact declare_enters_first h hd hinitial hi hstable

end Declare

/-- What an expression refers to is in the table when it is read, so its type is known for good. -/
theorem Reached.type_stable (h : Reached earlier before outer seen number r) (x : Surface.Expr)
    {table : List Variable} (htable : r.table <+: table) :
    (expression r.scopes x).1.type table = (expression r.scopes x).1.type r.table := by
  apply Expr.type_of_prefix htable
  intro u hu i hi
  rw [(expression_yields h.agrees x).1, List.map_map] at hu
  obtain ⟨name, -, rfl⟩ := List.mem_map.mp hu
  have hlookup : lookup r.scopes name.value = some i := by
    rw [h.agrees.lookup_eq]
    exact hi
  obtain ⟨v, hv, -⟩ := lookup_recorded h.orderly.recorded hlookup
  exact (List.getElem?_eq_some_iff.mp hv).1

/-- The type and the value of a declaration are told apart by their rules. -/
theorem given_reads {clause value : List Tree} {type : Option Ty} {initial : Option Surface.Expr}
    (htype : ReadsType clause type) (hinitial : ReadsInitial value initial) (stop : Token) :
    Tree.givenType? (clause ++ value ++ [.leaf stop]) = type ∧
      Option.Rel (fun t x => Surface.Expr.Reads t x)
        (Tree.givenValue? (clause ++ value ++ [.leaf stop])) initial := by
  cases htype with
  | absent =>
    cases hinitial with
    | absent => exact ⟨rfl, .none⟩
    | given sign h => exact ⟨rfl, .some h⟩
  | given colon kind =>
    cases hinitial with
    | absent => exact ⟨rfl, .none⟩
    | given sign h => exact ⟨rfl, .some h⟩

/-- The initial value is read before the name is declared. -/
theorem declaration_enters (h : Reached earlier before outer seen number r) {d : Declaration}
    (hd : d.within = ⟨earlier, before⟩) {initial : Option Surface.Expr}
    (hinitial : Option.Rel (fun t x => Surface.Expr.Reads t x) d.initial initial) :
    Enters r [d] ((declaration d.name d.type initial r).1.introductions number)
      (declaration d.name d.type initial r).2 := by
  generalize hvalue : d.initial = value at hinitial
  cases hinitial with
  | none =>
    have hrel : Option.Rel Denotes d.initial none := hvalue ▸ .none
    exact declare_enters h hd hrel fun table _ => by cases d.type <;> rfl
  | @some t x hx =>
    have hreading := reading_enters (expression · x) r (duplicates_expression r.scopes x)
    have hrel : Option.Rel Denotes d.initial (some (expression r.scopes x).1) :=
      hvalue ▸ .some (denotes_ofTree? r.scopes t x hx.meant.ofTree?)
    have hdeclare := declare_enters (h.report (expression r.scopes x).2) hd hrel
      fun table htable => by
        cases d.type with
        | some type => rfl
        | none => exact h.type_stable x htable
    exact hreading.append hdeclare

/-- What is said of a statement in a list: its own declaration and those inside it are resolved. -/
def StatementEnters (inner : Tree) (s : Surface.Statement) : Prop :=
  ∀ {earlier number : Nat} {before : List Tree} {outer : List Enclosure}
    {seen : List (Located Text)} {r : Resolver}, Reached earlier before outer seen number r →
    Enters r (((Tree.node .statement inner []).declaration? ⟨earlier, before⟩).toList ++
      (Tree.node .statement inner []).declarations (earlier +
        (Tree.entriesIn [] before ++ Tree.firstDeclared before (.node .statement inner [])).length))
      ((statement s r).1.introductions number) (statement s r).2

def StatementsEnter (ts : List Tree) (ss : List Surface.Statement) : Prop :=
  ∀ {earlier number : Nat} {before : List Tree} {outer : List Enclosure}
    {seen : List (Located Text)} {r : Resolver}, Reached earlier before outer seen number r →
    Enters r (Tree.declarationsIn earlier before ts)
      (Statement.introductionsAll number (statements ss r).1) (statements ss r).2

def BlockEnters (ts : List Tree) (ss : List Surface.Statement) : Prop :=
  ∀ {around : List Enclosure} {seen : List (Located Text)} {r : Resolver}, r.Agrees around seen →
    r.Orderly → Enters r (Tree.declarationsIn seen.length [] ts)
      (inScope (statements ss) r).1.introductions (inScope (statements ss) r).2

/-- What is said of the rest of a conditional. -/
def OtherwiseEnters (more : List Tree) (o : Surface.Otherwise) : Prop :=
  ∀ {around : List Enclosure} {seen : List (Located Text)} {r : Resolver}, r.Agrees around seen →
    r.Orderly → Enters r (Tree.declarationsAmong seen.length more)
      (otherwise o r).1.introductions (otherwise o r).2

theorem declarations_statement (inner : Tree) (n : Nat) :
    (Tree.node .statement inner []).declarations n = inner.declarations n := by
  simp [Tree.declarations, Tree.declarationsAmong]

/-- A statement that declares nothing itself. -/
theorem plain_enters {inner : Tree} {s : Surface.Statement}
    (hd : (Tree.node .statement inner []).declared? = none)
    (henters : ∀ {around : List Enclosure} {seen : List (Located Text)} {r : Resolver}
      (number : Nat), r.Agrees around seen → r.Orderly → Enters r (inner.declarations seen.length)
        ((statement s r).1.introductions number) (statement s r).2) : StatementEnters inner s := by
  intro earlier number before outer seen r h
  have hnone : (Tree.node .statement inner []).declaration? ⟨earlier, before⟩ = none := by
    rw [← Option.map_eq_none_iff (f := (·.name)), Tree.name_declaration?, hd]
  rw [hnone, declarations_statement, firstDeclared_of_none hd, List.append_nil, ← h.length]
  exact henters number h.agrees h.orderly

/-- One declaration: its value is read first, where the name is not known yet. -/
theorem declaration_statement_enters {clause value : List Tree} {type : Option Ty}
    {initial : Option Surface.Expr} (htype : ReadsType clause type)
    (hinitial : ReadsInitial value initial) (word id stop : Token) :
    StatementEnters (.node .declaration (.leaf word) (.leaf id :: clause ++ value ++ [.leaf stop]))
      (.declaration ⟨id.location, id.text⟩ type initial) := by
  intro earlier number before outer seen r h
  obtain ⟨htype', hvalue⟩ := given_reads htype hinitial stop
  have hown : (Tree.node .statement (.node .declaration (.leaf word)
      (.leaf id :: clause ++ value ++ [.leaf stop])) []).declaration? ⟨earlier, before⟩ =
      some ⟨⟨id.location, id.text⟩, type, Tree.givenValue? (clause ++ value ++ [.leaf stop]),
        ⟨earlier, before⟩⟩ := by
    rw [← htype']
    rfl
  rw [hown, declarations_statement, declarations_declaration htype hinitial, List.append_nil,
    statement]
  exact declaration_enters h rfl hvalue

theorem readsAll_yields {ts : List Tree} {ss : List Surface.Statement}
    (h : Surface.Statement.ReadsAll ts ss) : ∀ t ∈ ts, StatementYields t := by
  have hpassed {t : Tree} (ht : Passed t) : StatementYields t := by
    cases ht with
    | leaf t => exact leaf_yields t
    | skipped t ts => exact skipped_yields t ts
  induction ss generalizing ts with
  | nil => exact fun t ht => hpassed (h t ht)
  | cons s ss ih =>
    obtain ⟨pre, inner, after, rfl, hpre, hisA, -, hss⟩ := h
    refine List.forall_mem_append.mpr ⟨fun t ht => hpassed (hpre t ht), ?_⟩
    exact List.forall_mem_cons.mpr ⟨isA_statementYields hisA, ih hss⟩

/-- The state after a block. -/
theorem block_agrees {ts : List Tree} {ss : List Surface.Statement}
    (h : Surface.Statement.ReadsAll ts ss) (hr : r.Agrees around seen) :
    (inScope (statements ss) r).2.Agrees around (seen ++ Tree.entriesIn [] ts) := by
  have hyields := block_yields (readsAll_yields h) hr
  rw [h.body] at hyields
  exact hyields.agrees

theorem block_orderly (ss : List Surface.Statement) (hr : r.Orderly) :
    (inScope (statements ss) r).2.Orderly :=
  statement_orderly (.block ss) hr

theorem passed_enters {pre ts : List Tree} (hpre : ∀ t ∈ pre, Passed t)
    (h : Reached earlier before outer seen number r) {found : List Introduction} {r' : Resolver}
    (henters : ∀ {before : List Tree}, Reached earlier before outer seen number r →
      Enters r (Tree.declarationsIn earlier before ts) found r') :
    Enters r (Tree.declarationsIn earlier before (pre ++ ts)) found r' := by
  induction pre generalizing before with
  | nil => exact henters h
  | cons t pre ih =>
    rw [List.forall_mem_cons] at hpre
    rw [List.cons_append, hpre.1.declarationsIn_cons]
    exact ih hpre.2 (h.passed hpre.1)

/-- The scope of a block is closed behind it, so its names are gone and its places are not. -/
theorem block_enters {ts : List Tree} {ss : List Surface.Statement}
    (h : StatementsEnter ts ss) : BlockEnters ts ss := by
  intro around seen r hagrees horderly
  have hbody := h (reached_enter hagrees horderly)
  exact ⟨hbody.grows, hbody.errors, hbody.entered⟩

/-- A condition and then a block. -/
theorem guarded_enters {ts : List Tree} {ss : List Surface.Statement} (hblock : BlockEnters ts ss)
    (hagrees : r.Agrees around seen) (horderly : r.Orderly) (condition : Surface.Expr) :
    Enters r (Tree.declarationsIn seen.length [] ts)
      (inScope (statements ss) (reading (expression · condition) r).2).1.introductions
      (inScope (statements ss) (reading (expression · condition) r).2).2 := by
  have hcondition := reading_enters (expression · condition) r
    (duplicates_expression r.scopes condition)
  exact hcondition.append (hblock ⟨hagrees.scopes, hagrees.table⟩ (horderly.report _))

/-- A condition, a block and the rest of a conditional. -/
theorem conditional_enters {ts more : List Tree} {ss : List Surface.Statement}
    {o : Surface.Otherwise} (hbody : Surface.Statement.ReadsAll ts ss) (hblock : BlockEnters ts ss)
    (hmore : OtherwiseEnters more o) (hagrees : r.Agrees around seen) (horderly : r.Orderly)
    (condition : Surface.Expr) :
    Enters r (Tree.declarationsIn seen.length [] ts ++
        Tree.declarationsAmong (seen.length + (Tree.entriesIn [] ts).length) more)
      ((inScope (statements ss) (reading (expression · condition) r).2).1.introductions ++
        (otherwise o
          (inScope (statements ss) (reading (expression · condition) r).2).2).1.introductions)
      (otherwise o (inScope (statements ss) (reading (expression · condition) r).2).2).2 := by
  have hread : (reading (expression · condition) r).2.Agrees around seen :=
    ⟨hagrees.scopes, hagrees.table⟩
  have hrest := hmore (block_agrees hbody hread) (block_orderly ss (horderly.report _))
  rw [List.length_append] at hrest
  exact (guarded_enters hblock hagrees horderly condition).append hrest

end Reached

mutual

/-- A statement enters what it declares, and so do the blocks inside it. -/
theorem statement_enters : ∀ (s : Surface.Statement) (inner : Tree), s.Reads inner →
    StatementEnters inner s
  | .declaration _ _ _, _, ⟨word, id, _, _, stop, rfl, rfl, htype, hinitial⟩ =>
    declaration_statement_enters htype hinitial word id stop
  | .assignment _ value, _, ⟨id, sign, tree, stop, rfl, rfl, hvalue⟩ =>
    plain_enters rfl fun {_ _ r} _ _ _ => by
      rw [declarations_assignment hvalue, statement]
      have htarget := reading_enters (reference · id.location id.text) r
        (duplicates_reference r.scopes id.location id.text)
      exact htarget.append (reading_enters (expression · value) _ (duplicates_expression _ value))
  | .conditional condition body rest, _, ⟨_, _, _, _, _, ts, more, rfl, hcondition, hbody, hrest⟩ =>
    plain_enters rfl fun _ hagrees horderly => by
      rw [declarations_conditional hcondition, statement]
      exact conditional_enters hbody (block_enters (statements_enter body ts hbody))
        (otherwise_enters rest more hrest) hagrees horderly condition
  | .loop condition body, _, ⟨_, _, _, _, _, ts, rfl, hcondition, hbody⟩ =>
    plain_enters rfl fun _ hagrees horderly => by
      rw [declarations_loop hcondition, statement]
      exact guarded_enters (block_enters (statements_enter body ts hbody)) hagrees horderly condition
  | .call _ _ arguments, _, ⟨_, _, rfl, hcall⟩ =>
    plain_enters rfl fun {_ _ r} _ _ _ => by
      rw [declarations_call hcall, statement]
      exact reading_enters (expressions · arguments) r (duplicates_expressions r.scopes arguments)
  | .block body, _, ⟨_, ts, rfl, hbody⟩ =>
    plain_enters rfl fun _ hagrees horderly => by
      rw [Tree.declarations, statement]
      exact block_enters (statements_enter body ts hbody) hagrees horderly

theorem otherwise_enters : ∀ (o : Surface.Otherwise) (more : List Tree), o.Reads more →
    OtherwiseEnters more o
  | .nothing, _, rfl => fun _ _ => enters_nil _
  | .block body, _, ⟨_, _, ts, rfl, hbody⟩ => fun hagrees horderly => by
    rw [declarationsAmong_alternative, Tree.declarations, otherwise]
    exact block_enters (statements_enter body ts hbody) hagrees horderly
  | .conditional condition body rest, _,
      ⟨_, _, _, _, _, _, ts, others, rfl, hcondition, hbody, hrest⟩ => fun hagrees horderly => by
    rw [declarationsAmong_alternative, declarations_conditional hcondition, otherwise]
    exact conditional_enters hbody (block_enters (statements_enter body ts hbody))
      (otherwise_enters rest others hrest) hagrees horderly condition

theorem statements_enter : ∀ (ss : List Surface.Statement) (ts : List Tree),
    Surface.Statement.ReadsAll ts ss → StatementsEnter ts ss
  | [], ts, hts => fun h => by
    rw [← List.append_nil ts]
    exact passed_enters hts h fun _ => enters_nil _
  | s :: ss, _, ⟨pre, inner, after, rfl, hpre, hisA, hs, hss⟩ => fun h => by
    refine passed_enters hpre h fun hreached => ?_
    rw [Tree.declarationsIn, statements_cons, ← List.append_assoc]
    exact (statement_enters s inner hs hreached).append
      (statements_enter ss after hss (hreached.next hisA hs))

end

end Resolver

/-- The table of variables is the list of the first declarations, in the order in which they are
written: numbered by their places, no two of one name in one scope. Every declaration stands for the
variable of the first one of its name in its list, which belongs to the scope of the block around it
and has the type that the first one gives it, by its initial value in the final table if it names
none. All other declarations are errors, in order. -/
theorem resolve_declarations {tokens : List Token} {tree : Tree}
    (h : (parse tokens).tree = some tree) :
    let resolved := resolve (Surface.ofTree tree)
    let all := tree.programDeclarations
    let firsts := all.filter (·.isFirst)
    resolved.table.map Variable.declared = firsts.map (·.name) ∧
      firsts.map (·.index) = List.range resolved.table.length ∧
      resolved.table.map (·.order) = List.range resolved.table.length ∧
      (resolved.table.map fun v => (v.name, v.scope)).Nodup ∧
      List.Forall₂ (Declaration.Entered resolved.table) all resolved.program.introductions ∧
      Resolver.duplicates resolved.errors =
        (all.filter (!·.isFirst)).map Declaration.repeated := by
  intro resolved all firsts
  have hreads := Surface.parse_readsAll h
  have hagrees : Resolver.Agrees [] [] ⟨[], 0, [], []⟩ := ⟨.nil, rfl⟩
  have horderly : Resolver.Orderly ⟨[], 0, [], []⟩ :=
    ⟨nofun, nofun, .nil, ⟨nofun, nofun⟩, .nil, rfl⟩
  have henters := Resolver.block_enters (Resolver.statements_enter _ _ hreads) hagrees horderly
  have hfinal := Resolver.block_orderly (Surface.ofTree tree) horderly
  have htable : resolved.table.map Variable.declared = Tree.entriesIn [] tree.children :=
    (Resolver.block_agrees hreads hagrees).table
  have hindices : firsts.map (·.index) = List.range resolved.table.length := by
    rw [← List.length_map Variable.declared, htable]
    exact tree.indices_firsts
  exact ⟨htable.trans tree.names_firsts.symm, hindices, hfinal.orders, hfinal.keys,
    henters.entered _ (List.prefix_refl _), henters.errors⟩

/-- Two of the five declarations repeat a name. -/
def repeatedNamesSource : Source :=
  ⟨[], "var x = 1; \x7b var y = x; var x: float; var x = y; \x7d var x = true;".toList⟩

theorem resolve_declarations_repeating :
    ∃ tree, (parse (Lexer.start repeatedNamesSource).tokenize.tokens).tree = some tree ∧
      tree.programDeclarations.map (fun d => (d.isFirst, d.index)) =
        [(true, 0), (true, 1), (true, 2), (false, 2), (false, 0)] ∧
      (resolve (Surface.ofTree tree)).table.map (fun v => (v.name, v.scope, v.type)) =
        [(['x'], 0, .int), (['y'], 1, .int), (['x'], 1, .float)] ∧
      List.Forall₂ (Declaration.Entered (resolve (Surface.ofTree tree)).table)
        tree.programDeclarations (resolve (Surface.ofTree tree)).program.introductions := by
  have htokens : (Lexer.start repeatedNamesSource).tokens =
      ((Lexer.start repeatedNamesSource).advance 70).1 :=
    Lexer.tokens_eq_advance (by decide)
  have hread : (parse (Lexer.start repeatedNamesSource).tokenize.tokens).tree.map (fun tree =>
      (tree.programDeclarations.map (fun d => (d.isFirst, d.index)),
        (resolve (Surface.ofTree tree)).table.map (fun v => (v.name, v.scope, v.type)))) =
      some ([(true, 0), (true, 1), (true, 2), (false, 2), (false, 0)],
        [(['x'], 0, .int), (['y'], 1, .int), (['x'], 1, .float)]) := by
    rw [Lexer.tokenize, htokens]
    decide +kernel
  obtain ⟨tree, htree, heq⟩ := Option.map_eq_some_iff.mp hread
  obtain ⟨hdeclarations, htable⟩ := Prod.mk.inj heq
  obtain ⟨-, -, -, -, hentered, -⟩ := resolve_declarations htree
  exact ⟨tree, htree, hdeclarations, htable, hentered⟩

end ImpC
