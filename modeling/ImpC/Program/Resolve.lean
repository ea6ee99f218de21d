import ImpC.Program.Basic
import ImpC.Surface

/-!
The values of literals. An integer must fit in 32 bits with its sign; a string's escapes are a
backslash and one character, of which `n`, `t`, `r` and `0` stand for controls and any other for
itself.

Resolving names. Scopes are numbered in the order in which they are entered, the program's own being
the first; variables are numbered in the order of their first declarations. A name refers to the
innermost scope that has declared it so far, and an initial value is read before its variable is
declared. Errors are collected and never stop the work.
-/

namespace ImpC

/-- The integer that digits, or a minus sign and digits, denote, if it fits in 32 bits. -/
def Int32.ofSpelling? (spelling : Text) : Option Int32 :=
  let value : Int :=
    match spelling with
    | '-' :: digits => -(Text.decimal digits : Int)
    | digits => (Text.decimal digits : Int)
  if -2147483648 ≤ value ∧ value ≤ 2147483647 then some (.ofInt value) else none

namespace Text

/-- The character that a backslash and `c` stand for. -/
def unescapeChar (c : Char) : Char :=
  if c = 'n' then '\n' else if c = 't' then '\t' else if c = 'r' then '\r'
  else if c = '0' then '\x00' else c

/-- A backslash takes the next character with it; at the end it stands for itself. -/
def unescape : Text → Text
  | [] => []
  | ['\\'] => ['\\']
  | '\\' :: c :: t => unescapeChar c :: unescape t
  | c :: t => c :: unescape t

/-- A text without the quotes around it, if it has both. -/
def unquote (t : Text) : Text :=
  match t with
  | '"' :: rest => if rest.getLast? = some '"' then rest.dropLast else t
  | _ => t

end Text

inductive SemanticError where
  | duplicateDeclaration (name : Text)
  | unresolvedReference (name : Text)
  | integerOverflow (spelling : Text)
  deriving DecidableEq

def SemanticError.message : SemanticError → Text
  | .duplicateDeclaration name =>
    "Variable `".toList ++ name ++ "` is already declared in this scope".toList
  | .unresolvedReference name => "Symbol `".toList ++ name ++ "` is undefined".toList
  | .integerOverflow spelling =>
    "Integer literal `".toList ++ spelling ++ "` does not fit in a C `int`".toList

/-- A scope that is open: its number and the variables declared in it so far. Numbers are not
bounded: a text of fewer than `2 ^ 32` bytes has fewer scopes than that. -/
structure Scope where
  number : Nat
  names : List (Text × Nat)

/-- The result of resolving a program: errors come in the order in which they were met. -/
structure Resolved where
  program : Block
  table : List Variable
  errors : List (Located SemanticError)

/-- The innermost scope comes first. -/
structure Resolver where
  scopes : List Scope
  nextScope : Nat
  table : List Variable
  errors : List (Located SemanticError)

namespace Resolver

abbrev Errors := List (Located SemanticError)

def lookup (scopes : List Scope) (name : Text) : Option Nat :=
  scopes.findSome? fun s => s.names.lookup name

def reference (scopes : List Scope) (location : Location) (name : Text) : Reference × Errors :=
  match lookup scopes name with
  | some i => (⟨name, some i⟩, [])
  | none => (⟨name, none⟩, [⟨location, .unresolvedReference name⟩])

/-- The value of a literal. An integer that does not fit counts as zero. -/
def literal (location : Location) : Surface.Literal → Literal × Errors
  | .int spelling =>
    match Int32.ofSpelling? spelling with
    | some value => (.int value, [])
    | none => (.int 0, [⟨location, .integerOverflow spelling⟩])
  | .float spelling => (.float (.ofDecimal spelling), [])
  | .bool value => (.bool value, [])
  | .str spelling => (.str (Text.unescape (Text.unquote spelling)), [])

mutual

def expression (scopes : List Scope) : Surface.Expr → Expr × Errors
  | .literal location value =>
    let (value, errors) := literal location value
    (.literal location value, errors)
  | .name location name =>
    let (target, errors) := reference scopes location name
    (.reference location target, errors)
  | .unary location op operand =>
    let (operand, errors) := expression scopes operand
    (.unary location op operand, errors)
  | .binary location op left right =>
    let (left, errors) := expression scopes left
    let (right, more) := expression scopes right
    (.binary location op left right, errors ++ more)
  | .call location function arguments =>
    let (arguments, errors) := expressions scopes arguments
    (.call location function arguments, errors)

def expressions (scopes : List Scope) : List Surface.Expr → List Expr × Errors
  | [] => ([], [])
  | e :: es =>
    let (e, errors) := expression scopes e
    let (es, more) := expressions scopes es
    (e :: es, errors ++ more)

end

/-- Adds a variable to the innermost scope. A name that the scope already has keeps its variable. -/
def declare (name : Located Text) (type : Ty) : StateM Resolver Nat := fun r =>
  match r.scopes with
  | [] => (0, r)
  | scope :: outer =>
    match scope.names.lookup name.value with
    | some i =>
      (i, { r with errors := r.errors ++ [⟨name.location, .duplicateDeclaration name.value⟩] })
    | none =>
      let i := r.table.length
      (i, { r with
        scopes := { scope with names := (name.value, i) :: scope.names } :: outer
        table := r.table ++ [⟨name.value, type, scope.number, i, name.location⟩] })

theorem declare_again {r : Resolver} {scope : Scope} {outer : List Scope}
    (hr : r.scopes = scope :: outer) {name : Located Text} {i : Nat}
    (hname : scope.names.lookup name.value = some i) (type : Ty) :
    declare name type r =
      (i, { r with errors := r.errors ++ [⟨name.location, .duplicateDeclaration name.value⟩] }) := by
  simp [declare, hr, hname]

theorem declare_new {r : Resolver} {scope : Scope} {outer : List Scope}
    (hr : r.scopes = scope :: outer) {name : Located Text}
    (hname : scope.names.lookup name.value = none) (type : Ty) :
    declare name type r =
      (r.table.length, { r with
        scopes := { scope with names := (name.value, r.table.length) :: scope.names } :: outer
        table := r.table ++ [⟨name.value, type, scope.number, r.table.length, name.location⟩] }) := by
  simp [declare, hr, hname]

/-- A part that declares nothing, read in the open scopes. -/
def reading {α : Type} (part : List Scope → α × Errors) : StateM Resolver α := fun r =>
  let (a, errors) := part r.scopes
  (a, { r with errors := r.errors ++ errors })

/-- The statements of a block in a scope of their own. -/
def inScope (body : StateM Resolver (List Statement)) : StateM Resolver Block := fun r =>
  let scope := r.nextScope
  let (statements, inner) :=
    body { r with scopes := ⟨scope, []⟩ :: r.scopes, nextScope := scope + 1 }
  (.mk scope statements, { inner with scopes := inner.scopes.tail })

/-- The type of a variable: as declared, else that of its initial value, else unknown. -/
def declaredType (table : List Variable) : Option Ty → Option Expr → Ty
  | some type, _ => type
  | none, some value => value.type table
  | none, none => .unknown

def declaration (name : Located Text) (type : Option Ty) (initial : Option Surface.Expr) :
    StateM Resolver Statement := do
  let initial ← match initial with
    | none => pure none
    | some value => some <$> reading (expression · value)
  let i ← declare name (declaredType (← get).table type initial)
  return .declaration i (initial.map fun value => ⟨⟨name.location, ⟨name.value, some i⟩⟩, value⟩)

mutual

def statement : Surface.Statement → StateM Resolver Statement
  | .declaration name type initial => declaration name type initial
  | .assignment target value => do
    let reference ← reading (reference · target.location target.value)
    let value ← reading (expression · value)
    return .assignment ⟨⟨target.location, reference⟩, value⟩
  | .conditional condition body rest => do
    let condition ← reading (expression · condition)
    let body ← inScope (statements body)
    let rest ← otherwise rest
    return .conditional condition body rest
  | .loop condition body => do
    let condition ← reading (expression · condition)
    let body ← inScope (statements body)
    return .loop condition body
  | .call location function arguments => do
    let arguments ← reading (expressions · arguments)
    return .call location function arguments
  | .block body => do
    let body ← inScope (statements body)
    return .block body

def otherwise : Surface.Otherwise → StateM Resolver Otherwise
  | .nothing => return .nothing
  | .block body => do
    let body ← inScope (statements body)
    return .block body
  | .conditional condition body rest => do
    let condition ← reading (expression · condition)
    let body ← inScope (statements body)
    let rest ← otherwise rest
    return .conditional condition body rest

def statements : List Surface.Statement → StateM Resolver (List Statement)
  | [] => return []
  | s :: ss => do
    let s ← statement s
    let ss ← statements ss
    return s :: ss

end

theorem statements_cons (s : Surface.Statement) (ss : List Surface.Statement) (r : Resolver) :
    statements (s :: ss) r =
      ((statement s r).1 :: (statements ss (statement s r).2).1,
        (statements ss (statement s r).2).2) := by
  rw [statements]
  rfl

theorem statements_append (ss ss' : List Surface.Statement) (r : Resolver) :
    statements (ss ++ ss') r =
      ((statements ss r).1 ++ (statements ss' (statements ss r).2).1,
        (statements ss' (statements ss r).2).2) := by
  induction ss generalizing r with
  | nil => rfl
  | cons s ss ih => rw [List.cons_append, statements_cons, statements_cons, ih, List.cons_append]

end Resolver

def resolve (body : List Surface.Statement) : Resolved :=
  let (program, r) := Resolver.inScope (Resolver.statements body) ⟨[], 0, [], []⟩
  ⟨program, r.table, r.errors⟩

end ImpC
