import ImpC.Token.Lexer
import ImpC.Tree.Program
import ImpC.Program.Resolve
import ImpC.Target.Emit

/-!
Diagnostics: what was found wrong, at which stage and where.

Reports of diagnostics. Each is shown with the lines of source that it covers and with carets under
the place: from the first column to the last one on a single line, and from the start of the last
line if there are several.
-/

namespace ImpC

inductive Stage where
  | lexer
  | parser
  | semantic
  | codegen
  deriving DecidableEq

inductive Problem where
  | lexical (error : LexicalError)
  | syntactic (error : SyntaxError)
  | semantic (error : SemanticError)
  | emission (error : Target.EmissionError)
  deriving DecidableEq

structure Diagnostic where
  stage : Stage
  problem : Problem
  location : Location
  deriving DecidableEq

namespace Stage

def all : List Stage := [.lexer, .parser, .semantic, .codegen]

def name : Stage → Text
  | .lexer => "Lexer".toList
  | .parser => "Parser".toList
  | .semantic => "Semantic".toList
  | .codegen => "Codegen".toList

/-- How the problems of a stage are announced. -/
def label : Stage → Text
  | .lexer => "Lexical error".toList
  | .parser => "Syntax error".toList
  | .semantic => "Semantic error".toList
  | .codegen => "Emission error".toList

end Stage

def Problem.message : Problem → Text
  | .lexical e => e.message
  | .syntactic e => e.message
  | .semantic e => e.message
  | .emission e => e.message

namespace Diagnostic

def message (d : Diagnostic) : Text := d.problem.message

def count (stage : Stage) (ds : List Diagnostic) : Nat := ds.countP (·.stage = stage)

def ofLexical (e : Located LexicalError) : Diagnostic := ⟨.lexer, .lexical e.value, e.location⟩

def ofSyntactic (e : Located SyntaxError) : Diagnostic := ⟨.parser, .syntactic e.value, e.location⟩

def ofSemantic (e : Located SemanticError) : Diagnostic :=
  ⟨.semantic, .semantic e.value, e.location⟩

def ofEmission (e : Located Target.EmissionError) : Diagnostic :=
  ⟨.codegen, .emission e.value, e.location⟩

end Diagnostic

/-- The lines of an excerpt with their numbers, and the carets under the last line. -/
structure Excerpt where
  lines : List (Nat × Text)
  width : Nat
  indent : Nat
  carets : Nat

namespace Location

def excerpt (l : Location) : Excerpt :=
  let numbers := List.range' l.first.line (l.last.line + 1 - l.first.line)
  let start := if l.first.line = l.last.line then l.first.column else 1
  let stop := l.last.column
  { lines := numbers.map fun n => (n, (l.source.line? n).getD [])
    width := (Text.ofNat l.last.line).length
    indent := min start stop - 1
    carets := max start stop - min start stop + 1 }

end Location

/-- A text with blanks in front, so that it is at least `width` long. -/
def Text.padLeft (width : Nat) (t : Text) : Text := Text.blanks (width - t.length) ++ t

namespace Excerpt

def lineText (e : Excerpt) (gutter line : Text) : Text :=
  Text.padLeft e.width gutter ++ " |".toList ++ line ++ ['\n']

def render (e : Excerpt) : Text :=
  e.lineText [] [] ++
    e.lines.flatMap (fun (n, line) => e.lineText (Text.ofNat n) (' ' :: line)) ++
    e.lineText [] (' ' :: Text.blanks e.indent ++ List.replicate e.carets '^')

end Excerpt

namespace Diagnostic

def render (d : Diagnostic) : Text :=
  d.stage.label ++ ": ".toList ++ d.message ++ "\n --> ".toList ++ d.location.render ++ '\n' ::
    d.location.excerpt.render ++ ['\n']

def report : List Diagnostic → Text
  | [] => "No errors were reported\n".toList
  | ds =>
    ds.flatMap render ++ "Build failed with ".toList ++ Text.ofNat ds.length ++
      (if ds.length = 1 then " error\n" else " errors\n").toList

/-- All diagnostics on one line. -/
def summary (ds : List Diagnostic) : Text :=
  let one (d : Diagnostic) : Text :=
    '(' :: d.stage.name ++ ", ".toList ++ Text.quote d.message ++ ", ".toList ++
      d.location.render ++ [')']
  '[' :: List.intercalate ", ".toList (ds.map one) ++ [']']

end Diagnostic

end ImpC
