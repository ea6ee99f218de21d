import ImpC.Proofs.Grammar.Isolation
import ImpC.Proofs.Surface.Written

/-!
# Expressions read back

An assignment written down is read, and resolved where its names are declared, without an error, and
its value is the expression that was written: operators bind and group as they do in the expression,
and a sign belongs to an integer exactly where it did.
-/
namespace ImpC

/-- Digits that were written are read back. -/
theorem Text.decimal_ofNat (n : Nat) : Text.decimal (Text.ofNat n) = n :=
  Nat.ofDigitChars_ten_toDigits

theorem Int32.ofSpelling?_digits {t : Text} (h : ∀ c ∈ t, c.isDigit = true) :
    Int32.ofSpelling? t =
      if -2147483648 ≤ (Text.decimal t : Int) ∧ (Text.decimal t : Int) ≤ 2147483647 then
        some (.ofInt (Text.decimal t : Int)) else none := by
  cases t with
  | nil => rfl
  | cons c t =>
    have hminus : c ≠ '-' := by
      rintro rfl
      exact absurd (h '-' List.mem_cons_self) (by decide)
    simp [Int32.ofSpelling?, hminus]

/-- An integer is read back from its spelling. -/
theorem Int32.ofSpelling?_ofInt (value : Int32) :
    Int32.ofSpelling? (Text.ofInt value.toInt) = some value := by
  have hlow := value.le_toInt
  have hhigh := value.toInt_lt
  have hvalue := value.ofInt_toInt
  cases hint : value.toInt with
  | ofNat n =>
    rw [hint, Int.ofNat_eq_natCast] at hlow hhigh hvalue
    have hdigits : ∀ c ∈ Text.ofNat n, c.isDigit = true := by
      intro c hc
      exact Nat.isDigit_of_mem_toDigits (by decide) (by decide) hc
    rw [Text.ofInt, Int32.ofSpelling?_digits hdigits, Text.decimal_ofNat, if_pos (by omega), hvalue]
  | negSucc n =>
    rw [hint] at hlow hhigh hvalue
    rw [Int.negSucc_eq] at hlow hhigh hvalue
    simp only [Text.ofInt, Int32.ofSpelling?, Text.decimal_ofNat, Int.natCast_add, Int.cast_ofNat_Int]
    rw [if_pos (by omega), hvalue]

mutual

def Expr.unplaced : Expr → Expr
  | .literal _ value => .literal nowhere value
  | .reference _ target => .reference nowhere target
  | .unary _ op operand => .unary nowhere op operand.unplaced
  | .binary _ op left right => .binary nowhere op left.unplaced right.unplaced
  | .call _ function arguments => .call nowhere function (Expr.unplacedAll arguments)

def Expr.unplacedAll : List Expr → List Expr
  | [] => []
  | e :: es => e.unplaced :: Expr.unplacedAll es

end

namespace Surface.Term

mutual

def resolved (index : Text → Option Nat) : Term → ImpC.Expr
  | .int value => .literal nowhere (.int value)
  | .float spelling => .literal nowhere (.float (.ofDecimal spelling))
  | .bool value => .literal nowhere (.bool value)
  | .str spelling => .literal nowhere (.str (Text.unescape (Text.unquote spelling)))
  | .name word => .reference nowhere ⟨word, index word⟩
  | .unary op operand => .unary nowhere op (operand.resolved index)
  | .binary op left right => .binary nowhere op (left.resolved index) (right.resolved index)
  | .call function arguments => .call nowhere function (resolvedAll index arguments)

def resolvedAll (index : Text → Option Nat) : List Term → List ImpC.Expr
  | [] => []
  | e :: es => e.resolved index :: resolvedAll index es

end

mutual

def names : Term → List Text
  | .int _ | .float _ | .bool _ | .str _ => []
  | .name word => [word]
  | .unary _ operand => operand.names
  | .binary _ left right => left.names ++ right.names
  | .call _ arguments => namesAll arguments

def namesAll : List Term → List Text
  | [] => []
  | e :: es => e.names ++ namesAll es

end

def declarationWords (name : Text) : List (Kind × Text) :=
  [(.keyword .var, []), (.ident, name), (.semicolon, [])]

def assignmentWords (target : Text) (e : Term) : List (Kind × Text) :=
  (.ident, target) :: (.op .assign, []) :: (e.words ++ [(.semicolon, [])])

end Surface.Term

namespace Resolver

section Expressions

variable (scopes : List Scope)

theorem literal_unplaced (place : Location) (value : Surface.Literal) :
    (literal place value).1 = (literal nowhere value).1 ∧
      (literal place value).2.map (·.value) = (literal nowhere value).2.map (·.value) := by
  cases value with
  | int spelling =>
    rw [literal, literal]
    cases Int32.ofSpelling? spelling with
    | none => exact ⟨rfl, rfl⟩
    | some n => exact ⟨rfl, rfl⟩
  | _ => exact ⟨rfl, rfl⟩

theorem reference_unplaced (place : Location) (name : Text) :
    (reference scopes place name).1 = (reference scopes nowhere name).1 ∧
      (reference scopes place name).2.map (·.value) =
        (reference scopes nowhere name).2.map (·.value) := by
  rw [reference, reference]
  cases lookup scopes name with
  | none => exact ⟨rfl, rfl⟩
  | some i => exact ⟨rfl, rfl⟩

mutual

/-- Resolving does not look at places. -/
theorem expression_unplaced (e : Surface.Expr) :
    (expression scopes e).1.unplaced = (expression scopes e.unplaced).1 ∧
      (expression scopes e).2.map (·.value) = (expression scopes e.unplaced).2.map (·.value) := by
  match e with
  | .literal place value =>
    obtain ⟨hvalue, herrors⟩ := literal_unplaced place value
    simp [expression, Expr.unplaced, Surface.Expr.unplaced, hvalue, herrors]
  | .name place name =>
    obtain ⟨htarget, herrors⟩ := reference_unplaced scopes place name
    simp [expression, Expr.unplaced, Surface.Expr.unplaced, htarget, herrors]
  | .unary place op operand =>
    obtain ⟨hoperand, herrors⟩ := expression_unplaced operand
    simp [expression, Expr.unplaced, Surface.Expr.unplaced, hoperand, herrors]
  | .binary place op left right =>
    obtain ⟨hleft, herrors⟩ := expression_unplaced left
    obtain ⟨hright, hmore⟩ := expression_unplaced right
    simp [expression, Expr.unplaced, Surface.Expr.unplaced, hleft, hright, herrors, hmore]
  | .call place function arguments =>
    obtain ⟨harguments, herrors⟩ := expressions_unplaced arguments
    simp [expression, Expr.unplaced, Surface.Expr.unplaced, harguments, herrors]

theorem expressions_unplaced (es : List Surface.Expr) :
    Expr.unplacedAll (expressions scopes es).1 =
        (expressions scopes (Surface.Expr.unplacedAll es)).1 ∧
      (expressions scopes es).2.map (·.value) =
        (expressions scopes (Surface.Expr.unplacedAll es)).2.map (·.value) := by
  match es with
  | [] => exact ⟨rfl, rfl⟩
  | e :: es =>
    obtain ⟨hfirst, herrors⟩ := expression_unplaced e
    obtain ⟨hrest, hmore⟩ := expressions_unplaced es
    simp [expressions, Expr.unplacedAll, Surface.Expr.unplacedAll, hfirst, hrest, herrors, hmore]

end

variable {scopes}

mutual

/-- Where all names are declared, terms are resolved without an error. -/
theorem expression_surface (e : Surface.Term)
    (hnames : ∀ n ∈ e.names, (lookup scopes n).isSome = true) :
    expression scopes e.surface = (e.resolved (lookup scopes), []) := by
  match e with
  | .int value =>
    simp [expression, literal, Surface.Term.surface, Surface.Term.resolved, Int32.ofSpelling?_ofInt]
  | .float _ | .bool _ | .str _ => rfl
  | .name word =>
    obtain ⟨i, hi⟩ := Option.isSome_iff_exists.mp (hnames word (by simp [Surface.Term.names]))
    simp [expression, reference, Surface.Term.surface, Surface.Term.resolved, hi]
  | .unary op operand =>
    rw [Surface.Term.names] at hnames
    simp [expression, Surface.Term.surface, Surface.Term.resolved, expression_surface operand hnames]
  | .binary op left right =>
    simp only [Surface.Term.names, List.mem_append] at hnames
    have hleft := expression_surface left fun n hn => hnames n (.inl hn)
    have hright := expression_surface right fun n hn => hnames n (.inr hn)
    simp [expression, Surface.Term.surface, Surface.Term.resolved, hleft, hright]
  | .call function arguments =>
    rw [Surface.Term.names] at hnames
    simp [expression, Surface.Term.surface, Surface.Term.resolved,
      expressions_surface arguments hnames]

theorem expressions_surface (es : List Surface.Term)
    (hnames : ∀ n ∈ Surface.Term.namesAll es, (lookup scopes n).isSome = true) :
    expressions scopes (Surface.Term.surfaces es) =
      (Surface.Term.resolvedAll (lookup scopes) es, []) := by
  match es with
  | [] => rfl
  | e :: es =>
    simp only [Surface.Term.namesAll, List.mem_append] at hnames
    have hfirst := expression_surface e fun n hn => hnames n (.inl hn)
    have hrest := expressions_surface es fun n hn => hnames n (.inr hn)
    simp [expressions, Surface.Term.surfaces, Surface.Term.resolvedAll, hfirst, hrest]

end

/-- Where its names are declared, a written expression is resolved without an error, at whatever
places it stands. -/
theorem expression_written {x : Surface.Expr} {e : Surface.Term} (hx : x.unplaced = e.surface)
    (hnames : ∀ n ∈ e.names, (lookup scopes n).isSome = true) :
    (expression scopes x).1.unplaced = e.resolved (lookup scopes) ∧ (expression scopes x).2 = [] := by
  obtain ⟨hvalue, herrors⟩ := expression_unplaced scopes x
  rw [hx, expression_surface e hnames] at hvalue herrors
  exact ⟨hvalue, List.map_eq_nil_iff.mp herrors⟩

end Expressions

theorem statement_written {place : Location} {target : Text} {x : Surface.Expr} {e : Surface.Term}
    (hx : x.unplaced = e.surface) (r : Resolver)
    (hnames : ∀ n ∈ target :: e.names, (lookup r.scopes n).isSome = true) :
    ∃ value, statement (.assignment ⟨place, target⟩ x) r =
        (.assignment ⟨⟨place, ⟨target, lookup r.scopes target⟩⟩, value⟩, r) ∧
      value.unplaced = e.resolved (lookup r.scopes) := by
  obtain ⟨i, hi⟩ := Option.isSome_iff_exists.mp (hnames target (by simp))
  obtain ⟨hvalue, herrors⟩ := expression_written hx fun n hn => hnames n (by simp [hn])
  refine ⟨(expression r.scopes x).1, ?_, hvalue⟩
  have htarget : reference r.scopes place target = (⟨target, some i⟩, []) := by
    rw [reference, hi]
  have hrun : statement (.assignment ⟨place, target⟩ x) r =
      (.assignment ⟨⟨place, (reference r.scopes place target).1⟩, (expression r.scopes x).1⟩,
        { r with errors := r.errors ++ (reference r.scopes place target).2 ++
          (expression r.scopes x).2 }) := by
    rw [statement]
    rfl
  rw [hrun, htarget, herrors, hi, List.append_nil, List.append_nil]

/-- The one open scope has declared these names, in this order. -/
structure Declared (names : List Text) (r : Resolver) : Prop where
  single : ∃ scope, r.scopes = [scope]
  lookup_eq : ∀ n, lookup r.scopes n = names.idxOf? n
  table : r.table.map (·.name) = names
  errors : r.errors = []

theorem lookup_single (scope : Scope) (n : Text) : lookup [scope] n = scope.names.lookup n := by
  cases h : scope.names.lookup n <;> simp [lookup, h]

/-- Places in the table follow the order of the declarations. -/
theorem idxOf?_concat {names : List Text} {name : Text} (hname : name ∉ names) (n : Text) :
    (names ++ [name]).idxOf? n = if name = n then some names.length else names.idxOf? n := by
  induction names with
  | nil => by_cases h : name = n <;> simp [List.idxOf?_cons, h]
  | cons first names ih =>
    rw [List.mem_cons, not_or] at hname
    rw [List.cons_append, List.idxOf?_cons, List.idxOf?_cons, ih hname.2]
    by_cases hfirst : first = n
    · rw [hfirst] at hname
      simp [hfirst, hname.1]
    · by_cases h : name = n <;> simp [hfirst, h]

/-- One declaration more, whose name is new. -/
theorem Declared.declaration {names : List Text} {r : Resolver} (h : Declared names r)
    {name : Located Text} (hname : name.value ∉ names) :
    ∃ r', statement (.declaration name none none) r = (.declaration names.length none, r') ∧
      Declared (names ++ [name.value]) r' := by
  obtain ⟨scope, hscope⟩ := h.single
  have hlookup : ∀ n, scope.names.lookup n = names.idxOf? n := by
    intro n
    rw [← h.lookup_eq n, hscope, lookup_single]
  have hlength : r.table.length = names.length := by
    rw [← h.table, List.length_map]
  have hnone : scope.names.lookup name.value = none := by
    rw [hlookup]
    exact List.idxOf?_eq_none_iff.mpr hname
  refine ⟨{ r with
    scopes := [{ scope with names := (name.value, names.length) :: scope.names }]
    table := r.table ++ [⟨name.value, .unknown, scope.number, names.length, name.location⟩] },
    ?_, ⟨_, rfl⟩, ?_, ?_, h.errors⟩
  · have hrun : statement (.declaration name none none) r =
        (.declaration (declare name .unknown r).1 none, (declare name .unknown r).2) := by
      rw [statement]
      rfl
    rw [hrun, declare_new hscope hnone, hlength]
  · intro n
    rw [lookup_single, idxOf?_concat hname, List.lookup_cons]
    by_cases hn : name.value = n
    · simp [hn]
    · have hne : (n == name.value) = false := by
        rw [beq_eq_false_iff_ne]
        exact Ne.symm hn
      rw [if_neg hn, hne]
      exact hlookup n
  · rw [List.map_append, h.table]
    rfl

/-- Declarations of different names, one after the other. -/
theorem Declared.declarations {names : List Text} {r : Resolver} (h : Declared names r)
    {placed : List (Located Text)} (hnodup : (names ++ placed.map (·.value)).Nodup) :
    ∃ r', statements (placed.map (.declaration · none none)) r =
        ((List.range' names.length placed.length).map (.declaration · none), r') ∧
      Declared (names ++ placed.map (·.value)) r' := by
  induction placed generalizing names r with
  | nil => exact ⟨r, rfl, by simpa using h⟩
  | cons name placed ih =>
    rw [List.map_cons, List.append_cons] at hnodup
    have hname : name.value ∉ names := by
      have hleft := (List.nodup_append.mp hnodup).1
      intro hmem
      exact (List.nodup_append.mp hleft).2.2 _ hmem _ (List.mem_singleton_self _) rfl
    obtain ⟨r₁, hstep, hdeclared⟩ := h.declaration hname
    obtain ⟨r₂, hrun, hdeclared'⟩ := ih hdeclared hnodup
    refine ⟨r₂, ?_, ?_⟩
    · rw [List.map_cons, statements_cons, hstep, hrun, List.length_append, List.length_singleton]
      rfl
    · rw [List.map_cons, List.append_cons]
      exact hdeclared'

/-- After declarations of all its names an assignment is resolved without an error. -/
theorem resolve_written {placed : List (Located Text)} {place : Location} {target : Text}
    {x : Surface.Expr} {e : Surface.Term} (hx : x.unplaced = e.surface)
    (hnodup : (placed.map (·.value)).Nodup)
    (hnames : ∀ n ∈ target :: e.names, n ∈ placed.map (·.value)) :
    ∃ value table,
      resolve (placed.map (.declaration · none none) ++ [.assignment ⟨place, target⟩ x]) =
        ⟨.mk 0 ((List.range placed.length).map (.declaration · none) ++
          [.assignment ⟨⟨place, ⟨target, (placed.map (·.value)).idxOf? target⟩⟩, value⟩]), table, []⟩ ∧
      table.map (·.name) = placed.map (·.value) ∧
      value.unplaced = e.resolved ((placed.map (·.value)).idxOf? ·) := by
  have hstart : Declared [] ⟨[⟨0, []⟩], 1, [], []⟩ := ⟨⟨_, rfl⟩, fun _ => rfl, rfl, rfl⟩
  obtain ⟨r, hrun, hdeclared⟩ := hstart.declarations hnodup
  rw [List.nil_append] at hdeclared
  have hlookup : lookup r.scopes = ((placed.map (·.value)).idxOf? ·) := by
    funext n
    exact hdeclared.lookup_eq n
  have hsome : ∀ n ∈ target :: e.names, (lookup r.scopes n).isSome = true := by
    intro n hn
    rw [hdeclared.lookup_eq, List.isSome_idxOf?]
    exact hnames n hn
  obtain ⟨value, hstatement, hvalue⟩ := @statement_written place target x e hx r hsome
  refine ⟨value, r.table, ?_, hdeclared.table, ?_⟩
  · have hlast : statements [.assignment ⟨place, target⟩ x] r =
        ([.assignment ⟨⟨place, ⟨target, lookup r.scopes target⟩⟩, value⟩], r) := by
      rw [statements_cons, hstatement]
      rfl
    rw [resolve, inScope]
    dsimp only
    rw [statements_append, hrun, hlast, hdeclared.lookup_eq, List.range_eq_range']
    simp [hdeclared.errors]
  · rw [hvalue, hlookup]

end Resolver

namespace Surface

open ImpC.Grammar ImpC.Parser

/-- Tokens that write declarations down are these declarations. -/
theorem declarations_written (names : List Text) {ts : List Token}
    (hts : ts.map Token.word = names.flatMap Term.declarationWords) :
    ∃ (trees : List Tree) (placed : List (Located Text)),
      (∀ t ∈ trees, IsA (fun _ => False) .statement t) ∧ Tree.leavesAll trees = ts ∧
      placed.map (·.value) = names ∧
      Statement.body trees = placed.map (.declaration · none none) := by
  induction names generalizing ts with
  | nil =>
    rw [List.flatMap_nil, List.map_eq_nil_iff] at hts
    exact ⟨[], [], by simp, hts.symm, rfl, rfl⟩
  | cons name names ih =>
    rw [List.flatMap_cons] at hts
    obtain ⟨own, rest, rfl, hown, hrest⟩ := List.map_eq_append_iff.mp hts
    obtain ⟨word, own, rfl, hword, hown⟩ := List.map_eq_cons_iff.mp hown
    obtain ⟨ident, own, rfl, hident, hown⟩ := List.map_eq_cons_iff.mp hown
    obtain ⟨stop, rfl, hstop⟩ := List.map_eq_singleton_iff.mp hown
    obtain ⟨trees, placed, htrees, hleaves, hnames, hbody⟩ := ih hrest
    have hdeclaration : IsA (fun _ => False) .declaration
        (.node .declaration (.leaf word) [.leaf ident, .leaf stop]) :=
      isA_declaration.mpr ⟨word, ident, [], [], stop, Token.kind_of_word hword,
        Token.kind_of_word hident, .inr rfl, .inr rfl, Token.kind_of_word hstop, rfl⟩
    refine ⟨.node .statement (.node .declaration (.leaf word) [.leaf ident, .leaf stop]) [] :: trees,
      ⟨ident.location, ident.text⟩ :: placed, ?_, ?_, ?_, ?_⟩
    · intro t ht
      cases ht with
      | head => exact isA_statement.mpr (.inl ⟨_, .inl hdeclaration, rfl⟩)
      | tail _ ht => exact htrees t ht
    · simp [Tree.leaves, Tree.leavesAll, hleaves]
    · rw [List.map_cons, hnames, Token.text_of_word hident rfl]
    · rw [Statement.body, hbody]
      rfl

/-- An assignment is read back from its words, whatever their places are. -/
theorem assignment_written {target : Text} {e : Term} {ts : List Token}
    (hts : ts.map Token.word = Term.assignmentWords target e) :
    ∃ tree place x, IsA (fun _ => False) .statement tree ∧ tree.leaves = ts ∧
      Statement.ofTree? tree = some (.assignment ⟨place, target⟩ x) ∧ x.unplaced = e.surface := by
  obtain ⟨name, rest, rfl, hname, hrest⟩ := List.map_eq_cons_iff.mp hts
  obtain ⟨sign, rest, rfl, hsign, hrest⟩ := List.map_eq_cons_iff.mp hrest
  obtain ⟨value, last, rfl, hvalue, hlast⟩ := List.map_eq_append_iff.mp hrest
  obtain ⟨stop, rfl, hstop⟩ := List.map_eq_singleton_iff.mp hlast
  obtain ⟨tree, x, htree, hleaves, hx, he⟩ := (e.builds value hvalue).expression e.tightness_le
  have hassignment : IsA (fun _ => False) .assignment
      (.node .assignment (.leaf name) [.leaf sign, tree, .leaf stop]) :=
    isA_assignment.mpr ⟨name, sign, tree, stop, Token.kind_of_word hname, Token.kind_of_word hsign,
      htree, Token.kind_of_word hstop, rfl⟩
  refine ⟨.node .statement (.node .assignment (.leaf name) [.leaf sign, tree, .leaf stop]) [],
    name.location, x, isA_statement.mpr (.inl ⟨_, .inr (.inl hassignment), rfl⟩), ?_, ?_, he⟩
  · simp [Tree.leaves, Tree.leavesAll, hleaves]
  · rw [Statement.ofTree?, Statement.inner?, hx, ← Token.text_of_word hname rfl]
    rfl

end Surface

open ImpC.Grammar ImpC.Parser

/-- Declarations of names and then an assignment, written down, are read without an error. The
assignment is resolved without an error wherever its names are declared, so after declarations of
them too, and its value is the expression that was written. -/
theorem assignment_read_back (e : Surface.Term) (target : Text) (names : List Text)
    (tokens : List Token)
    (htokens : (body tokens).map Token.word =
      names.flatMap Surface.Term.declarationWords ++ Surface.Term.assignmentWords target e) :
    ∃ tree before last, parse tokens = ⟨some tree, []⟩ ∧ Surface.ofTree tree = before ++ [last] ∧
      (∀ r : Resolver,
        (∀ n ∈ target :: e.names, (Resolver.lookup r.scopes n).isSome = true) →
        ∃ place value, Resolver.statement last r =
            (.assignment ⟨⟨place, ⟨target, Resolver.lookup r.scopes target⟩⟩, value⟩, r) ∧
          value.unplaced = e.resolved (Resolver.lookup r.scopes)) ∧
      (names.Nodup → (∀ n ∈ target :: e.names, n ∈ names) →
        ∃ place value table, resolve (Surface.ofTree tree) =
            ⟨.mk 0 ((List.range names.length).map (.declaration · none) ++
              [.assignment ⟨⟨place, ⟨target, names.idxOf? target⟩⟩, value⟩]), table, []⟩ ∧
          table.map (·.name) = names ∧ value.unplaced = e.resolved (names.idxOf? ·)) := by
  obtain ⟨first, second, hbody, hfirst, hsecond⟩ := List.map_eq_append_iff.mp htokens
  obtain ⟨trees, placed, htrees, hleaves, hnames, hdeclarations⟩ :=
    Surface.declarations_written names hfirst
  obtain ⟨tree, place, x, htree, hleaves', hassignment, hx⟩ := Surface.assignment_written hsecond
  obtain ⟨start, more, hcons⟩ : ∃ start more, trees ++ [tree] = start :: more := by
    cases trees with
    | nil => exact ⟨tree, [], rfl⟩
    | cons start more => exact ⟨start, more ++ [tree], rfl⟩
  have hall : ∀ t ∈ start :: more, IsA (fun _ => False) .statement t := by
    intro t ht
    rw [← hcons, List.mem_append, List.mem_singleton] at ht
    cases ht with
    | inl ht => exact htrees t ht
    | inr ht => exact ht ▸ htree
  have hparse : parse tokens =
      ⟨some (.node .program start (more ++ (ending? tokens).toList.map .leaf)), []⟩ := by
    apply parse_of_derivation (derives_statements.mpr ⟨start, more, rfl, hall⟩)
    rw [← hcons, hbody, ← hleaves, ← hleaves']
    simp [Tree.leavesAll]
  have hmeaning : Surface.ofTree (.node .program start (more ++ (ending? tokens).toList.map .leaf)) =
      placed.map (.declaration · none none) ++ [.assignment ⟨place, target⟩ x] := by
    rw [ofTree_program, ← hcons, body_append, hdeclarations]
    simp [Surface.Statement.body, hassignment]
  refine ⟨_, _, _, hparse, hmeaning, ?_, ?_⟩
  · intro r hdeclared
    exact ⟨place, Resolver.statement_written hx r hdeclared⟩
  · intro hnodup hmem
    rw [← hnames] at hnodup hmem ⊢
    obtain ⟨value, table, hresolve, htable, hvalue⟩ :=
      @Resolver.resolve_written placed place target x e hx hnodup hmem
    exact ⟨place, value, table, by rw [hmeaning, hresolve, List.length_map], htable, hvalue⟩

/-- `var x; var y; x = -(3) - (y - -2147483648);` -/
def signedAssignmentTokens : List Token :=
  let said (kind : Kind) (text : Text) : Token := ⟨kind, text, nowhere⟩
  [blank (.keyword .var), said .ident ['x'], blank .semicolon,
    blank (.keyword .var), said .ident ['y'], blank .semicolon,
    said .ident ['x'], blank (.op .assign), blank (.op .minus), blank .openParen, said .int ['3'],
    blank .closeParen, blank (.op .minus), blank .openParen, said .ident ['y'], blank (.op .minus),
    blank (.op .minus), said .int "2147483648".toList, blank .closeParen, blank .semicolon, blank .eof]

theorem assignment_read_back_signed :
    ∃ tree place value table, parse signedAssignmentTokens = ⟨some tree, []⟩ ∧
      resolve (Surface.ofTree tree) =
        ⟨.mk 0 [.declaration 0 none, .declaration 1 none,
          .assignment ⟨⟨place, ⟨['x'], some 0⟩⟩, value⟩], table, []⟩ ∧
      value.unplaced = .binary nowhere .sub (.unary nowhere .negate (.literal nowhere (.int 3)))
        (.binary nowhere .sub (.reference nowhere ⟨['y'], some 1⟩)
          (.literal nowhere (.int (-2147483648)))) := by
  obtain ⟨tree, _, _, hparse, -, -, hresolve⟩ := assignment_read_back
    (.binary .sub (.unary .negate (.int 3)) (.binary .sub (.name ['y']) (.int (-2147483648))))
    ['x'] [['x'], ['y']] signedAssignmentTokens (by decide)
  obtain ⟨place, value, table, hresolved, -, hvalue⟩ := hresolve (by decide) (by decide)
  exact ⟨tree, place, value, table, hparse, hresolved, hvalue⟩

end ImpC
