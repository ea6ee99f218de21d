import ImpC.Tree.Expression

/-!
Statements, and going on after a malformed one. A statement that cannot be read is stepped over up
to a place where the next one may start, and its tokens are kept in a node of their own. Where the
tokens end inside a statement nothing is left to step over, and reading fails.

Whole programs. Any list of tokens may be given: what follows the first end-of-text token is never
looked at, and a list without one ends after its last token.
-/

namespace ImpC

/-- The outcome of reading with steps over malformed statements: the places where reading got stuck
on the way, in order, and the result. -/
structure Reading (α : Type) where
  mistakes : List Stuck
  result : Except Stuck (α × List Token)

namespace Reading

variable {α β : Type}

def of (result : Except Stuck (α × List Token)) : Reading α := ⟨[], result⟩

def done (a : α) (ts : List Token) : Reading α := of (.ok (a, ts))

def andThen (r : Reading α) (next : α → List Token → Reading β) : Reading β :=
  match r.result with
  | .error stuck => ⟨r.mistakes, .error stuck⟩
  | .ok (a, ts) =>
    let q := next a ts
    ⟨r.mistakes ++ q.mistakes, q.result⟩

end Reading

namespace Parser

/-- Drops tokens up to and including a semicolon, or up to a closing brace or the keyword of
another statement. -/
def skip : List Token → List Token
  | [] => []
  | t :: ts =>
    match t.kind with
    | .closeCurly | .keyword .var | .keyword .if_ | .keyword .while_ => t :: ts
    | .semicolon => ts
    | _ => skip ts

/-- Where to go on after a statement that starts at `start` got stuck at `stuck`. At least one token
is dropped. -/
def resume (start stuck : List Token) : List Token :=
  if stuck.length = start.length then
    match stuck with
    | [] => []
    | t :: ts => if t.kind = .semicolon ∨ t.kind = .closeCurly then ts else skip ts
  else skip stuck

/-- A statement, or the tokens stepped over in place of one. -/
def recovering (statement : List Token → Reading Tree) : List Token → Reading Tree
  | [] => statement []
  | t :: ts =>
    let r := statement (t :: ts)
    match r.result with
    | .ok _ => r
    | .error stuck =>
      if stuck.rest.isEmpty then r
      else
        let rest := resume (t :: ts) stuck.rest
        let skipped := ts.take (ts.length - rest.length)
        ⟨r.mistakes ++ [stuck], .ok (.node .error (.leaf t) (skipped.map .leaf), rest)⟩

/-- Statements up to the end or to a token that `stops`. At most `bound` of them are read. -/
def statements (statement : List Token → Reading Tree) (stops : Kind → Bool) :
    Nat → List Token → Reading (List Tree)
  | 0, ts => .done [] ts
  | _ + 1, [] => .done [] []
  | bound + 1, t :: ts =>
    if stops t.kind then .done [] (t :: ts)
    else
      (recovering statement (t :: ts)).andThen fun first ts =>
      (statements statement stops bound ts).andThen fun more ts =>
      .done (first :: more) ts

def isTypeName : Kind → Bool
  | .keyword .int | .keyword .float | .keyword .bool | .keyword .string | .ident => true
  | _ => false

def typeClause : Parser Tree := fun ts => do
  let (colon, ts) ← exactly .colon ts
  let (type, ts) ← token .type isTypeName ts
  return (.node .typeClause colon [type], ts)

/-- What `p` reads if the next token has the kind `kind`, else nothing. -/
def optional (kind : Kind) (p : Parser (List Tree)) : Parser (List Tree) := fun ts =>
  if startsWith kind ts then p ts else .ok ([], ts)

def initializer (expression : Parser Tree) : Parser (List Tree) := fun ts => do
  let (sign, ts) ← exactly (.op .assign) ts
  let (value, ts) ← expression ts
  return ([sign, value], ts)

def declaration (expression : Parser Tree) : Parser Tree := fun ts => do
  let (word, ts) ← exactly (.keyword .var) ts
  let (name, ts) ← identifier ts
  let (type, ts) ← optional .colon
    (fun ts => do let (type, ts) ← typeClause ts; return ([type], ts)) ts
  let (value, ts) ← optional (.op .assign) (initializer expression) ts
  let (stop, ts) ← exactly .semicolon ts
  return (.node .declaration word (name :: type ++ value ++ [stop]), ts)

def assignment (expression : Parser Tree) : Parser Tree := fun ts => do
  let (target, ts) ← identifier ts
  let (sign, ts) ← exactly (.op .assign) ts
  let (value, ts) ← expression ts
  let (stop, ts) ← exactly .semicolon ts
  return (.node .assignment target [sign, value, stop], ts)

def callStatement (bound : Nat) (expression : Parser Tree) : Parser Tree := fun ts => do
  let (call, ts) ← call bound expression ts
  let (stop, ts) ← exactly .semicolon ts
  return (.node .callStatement call [stop], ts)

def block (bound : Nat) (statement : List Token → Reading Tree) (ts : List Token) :
    Reading Tree :=
  (Reading.of (exactly .openCurly ts)).andThen fun opening ts =>
  (statements statement (· = .closeCurly) bound ts).andThen fun body ts =>
  (Reading.of (exactly .closeCurly ts)).andThen fun closing ts =>
  .done (.node .block opening (body ++ [closing])) ts

/-- A keyword, a condition between parentheses and a block. -/
def guarded (word : Keyword) (expression : Parser Tree) (block : List Token → Reading Tree)
    (ts : List Token) : Reading (Tree × List Tree) :=
  (Reading.of (exactly (.keyword word) ts)).andThen fun word ts =>
  (Reading.of (parenthesized expression ts)).andThen fun (opening, condition, closing) ts =>
  (block ts).andThen fun body ts =>
  .done (word, [opening, condition, closing, body]) ts

def loop (expression : Parser Tree) (block : List Token → Reading Tree) (ts : List Token) :
    Reading Tree :=
  (guarded .while_ expression block ts).andThen fun (word, parts) ts =>
  .done (.node .loop word parts) ts

/-- A conditional with its chain of alternatives, of which at most `bound` are read. -/
def conditional (expression : Parser Tree) (block : List Token → Reading Tree) :
    Nat → List Token → Reading Tree
  | 0, ts => .of (.error ⟨.statement, ts⟩)
  | bound + 1, ts =>
    (guarded .if_ expression block ts).andThen fun (word, parts) ts =>
    match ts with
    | [] => .done (.node .conditional word parts) []
    | t :: ts =>
      if t.kind = .keyword .else_ then
        (if startsWith (.keyword .if_) ts then conditional expression block bound ts
          else block ts).andThen fun body ts =>
        .done (.node .conditional word (parts ++ [.node .alternative (.leaf t) [body]])) ts
      else .done (.node .conditional word parts) (t :: ts)

/-- The statement that the next tokens announce. -/
def statement : Nat → List Token → Reading Tree
  | 0, ts => .of (.error ⟨.statement, ts⟩)
  | _ + 1, [] => .of (.error ⟨.statement, []⟩)
  | bound + 1, t :: ts =>
    let inner : Reading Tree :=
      match t.kind with
      | .keyword .var => .of (declaration (expression bound) (t :: ts))
      | .keyword .if_ =>
        conditional (expression bound) (block bound (statement bound)) bound (t :: ts)
      | .keyword .while_ =>
        loop (expression bound) (block bound (statement bound)) (t :: ts)
      | .openCurly => block bound (statement bound) (t :: ts)
      | .ident =>
        if startsWith .openParen ts then .of (callStatement bound (expression bound) (t :: ts))
        else .of (assignment (expression bound) (t :: ts))
      | _ => .of (.error ⟨.statement, t :: ts⟩)
    inner.andThen fun inner ts => .done (.node .statement inner []) ts

end Parser

inductive SyntaxError where
  | unexpectedToken (expected : Expected) (found : Kind)
  | unexpectedEnd (expected : Expected)
  | emptyProgram
  deriving DecidableEq

def SyntaxError.message : SyntaxError → Text
  | .unexpectedToken expected found =>
    "Expected ".toList ++ expected.describe ++ ", found ".toList ++ found.describe ++
      " instead".toList
  | .unexpectedEnd expected =>
    "Expected ".toList ++ expected.describe ++ ", none was found instead".toList
  | .emptyProgram => "Program is empty, at least one statement is required".toList

/-- The result of reading a program. Without a tree the last error is the one that ended it; all
other errors were stepped over. -/
structure Parsed where
  tree : Option Tree
  errors : List (Located SyntaxError)

/-- The error of getting stuck, in a token list that ends at `ending`. -/
def Stuck.error (ending : Location) (s : Stuck) : Located SyntaxError :=
  match s.rest with
  | [] => ⟨ending, .unexpectedEnd s.expected⟩
  | t :: _ => ⟨t.location, .unexpectedToken s.expected t.kind⟩

namespace Parser

/-- The tokens before the first end-of-text token. -/
def body (tokens : List Token) : List Token := tokens.takeWhile (·.kind ≠ .eof)

/-- The first end-of-text token. -/
def ending? (tokens : List Token) : Option Token := tokens.find? (·.kind = .eof)

/-- The place of the end of a token list: its end-of-text token, or its last token, or the start of
an empty source. -/
def endLocation (tokens : List Token) : Location :=
  match (ending? tokens).or tokens.getLast? with
  | some t => t.location
  | none => (⟨"<empty>".toList, []⟩ : Source).start

/-- One or more statements, and then `ending` as the last leaf. -/
def program (bound : Nat) (ending : Option Token) (ts : List Token) : Reading Tree :=
  (recovering (statement bound) ts).andThen fun first ts =>
  (statements (statement bound) (fun _ => false) bound ts).andThen fun more ts =>
  .done (.node .program first (more ++ ending.toList.map .leaf)) ts

end Parser

/-- The tree of a program, and what is wrong with it. -/
def parse (tokens : List Token) : Parsed :=
  let body := Parser.body tokens
  let ending := Parser.endLocation tokens
  if body.isEmpty then ⟨none, [⟨ending, .emptyProgram⟩]⟩
  else
    let r := Parser.program (body.length + 1) (Parser.ending? tokens) body
    match r.result with
    | .ok (tree, _) => ⟨some tree, r.mistakes.map (·.error ending)⟩
    | .error stuck => ⟨none, (r.mistakes ++ [stuck]).map (·.error ending)⟩

end ImpC
