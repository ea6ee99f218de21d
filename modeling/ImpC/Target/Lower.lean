import ImpC.Target.Basic

/-!
From resolved programs to C: the names of variables, their declarators, and expressions.

All declarations of a block move to its head, so variables of different scopes may not share a name.
A variable keeps its own name unless that is reserved or already taken; then it gets the first free
suffix, which never makes the name of another variable. What has no counterpart in C is reported and
left out, and the rest is kept.
-/

namespace ImpC.Target

/-- The names that the emitted program may not redefine. -/
def reserved : List Text :=
  ["auto", "break", "case", "char", "const", "continue", "default", "do", "double", "else", "enum",
    "extern", "float", "for", "goto", "if", "inline", "int", "long", "register", "restrict",
    "return", "short", "signed", "sizeof", "static", "struct", "switch", "typedef", "union",
    "unsigned", "void", "volatile", "while", "_Alignas", "_Alignof", "_Atomic", "_Bool",
    "_Complex", "_Generic", "_Imaginary", "_Noreturn", "_Static_assert", "_Thread_local", "bool",
    "true", "false", "main", "printf", "NULL"].map String.toList

def suffixed (name : Text) (n : Nat) : Text := name ++ '_' :: Text.ofNat n

/-- The name for a variable called `name`, among variables called `sources`, when the names `taken`
are in use. The numbers tried are more than the names to avoid. -/
def chooseName (sources taken : List Text) (name : Text) : Text :=
  if name ∉ reserved ∧ name ∉ taken then name
  else
    let numbers := List.range' 1 (2 * sources.length + reserved.length + 1)
    let free (n : Nat) : Bool :=
      suffixed name n ∉ taken ∧ suffixed name n ∉ sources ∧ suffixed name n ∉ reserved
    match numbers.find? free with
    | some n => suffixed name n
    | none => []

/-- The names for the variables called `names`, in order. -/
def chooseNames (sources taken : List Text) : List Text → List Text
  | [] => []
  | name :: names =>
    let chosen := chooseName sources taken name
    chosen :: chooseNames sources (chosen :: taken) names

/-- A name for every variable of a table whose variables are called `sources`. -/
def assignNames (sources : List Text) : List Text := chooseNames sources [] sources

inductive EmissionError where
  | unsupportedType (type : Ty)
  | unprintable (type : Ty)
  deriving DecidableEq

def EmissionError.message : EmissionError → Text
  | .unsupportedType type => "Type `".toList ++ type.render ++ "` has no C equivalent".toList
  | .unprintable type => "Cannot print a value of type `".toList ++ type.render ++ "`".toList

abbrev Errors := List (Located EmissionError)

/-- The table of variables, and the name of each in C. -/
structure Context where
  table : List Variable
  names : List Text

def printName : Text := "print".toList

def Context.nameOf (k : Context) (r : Reference) : Text :=
  match r.referent.bind (k.names[·]?) with
  | some name => name
  | none => r.name

/-- A value of a given type as an argument to print. -/
def Argument.ofTy? (value : Expr) : Ty → Option Argument
  | .int => some (.int value)
  | .float => some (.float value)
  | .bool => some (.bool value)
  | .string => some (.str value)
  | .named _ | .unknown => none

mutual

def lower (k : Context) : ImpC.Expr → Expr × Errors
  | .literal _ value => (.literal value, [])
  | .reference _ target => (.name (k.nameOf target), [])
  | .unary _ op operand =>
    let (operand, errors) := lower k operand
    (.unary op operand, errors)
  | .binary _ op left right =>
    let (left, errors) := lower k left
    let (right, more) := lower k right
    (.binary op left right, errors ++ more)
  | .call _ function arguments =>
    if function = printName then
      let (arguments, errors) := lowerPrinted k arguments
      (.printf arguments, errors)
    else
      let (arguments, errors) := lowerAll k arguments
      (.call function arguments, errors)

def lowerAll (k : Context) : List ImpC.Expr → List Expr × Errors
  | [] => ([], [])
  | e :: es =>
    let (e, errors) := lower k e
    let (es, more) := lowerAll k es
    (e :: es, errors ++ more)

/-- Arguments to print. One whose type has no conversion is reported and left out. -/
def lowerPrinted (k : Context) : List ImpC.Expr → List Argument × Errors
  | [] => ([], [])
  | e :: es =>
    let type := e.type k.table
    let (value, errors) := lower k e
    let (arguments, more) := lowerPrinted k es
    match Argument.ofTy? value type with
    | some argument => (argument :: arguments, errors ++ more)
    | none => (arguments, errors ++ ⟨e.location, .unprintable type⟩ :: more)

end

/-- A variable with its name in C, declared or reported. -/
def declarator (v : Variable) (name : Text) : Option Declarator × Errors :=
  match CType.ofTy? v.type with
  | some type => (some ⟨type, name⟩, [])
  | none => (none, [⟨v.location, .unsupportedType v.type⟩])

end ImpC.Target
