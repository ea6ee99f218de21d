import ImpC.Diagnostic
import ImpC.Surface
import ImpC.Dump

/-!
A whole compilation. Every stage runs even if the one before reported errors, except that nothing
can follow when there is no tree. Whether C is given in spite of errors is up to the caller.
-/

namespace ImpC

inductive LogLevel where
  | debug
  | info
  | warn
  deriving DecidableEq

structure LogEntry where
  level : LogLevel
  origin : Text
  message : Text
  deriving DecidableEq

structure Compilation where
  tokens : List Token
  tree : Option Tree
  program : Option Block
  table : List Variable
  c : Option Text
  diagnostics : List Diagnostic
  lexerErrors : Nat
  parserErrors : Nat
  log : List LogEntry

/-- A level is shown from a certain verbosity on. -/
def LogLevel.verbosity : LogLevel → Nat
  | .warn => 0
  | .info => 1
  | .debug => 2

def LogLevel.label : LogLevel → Text
  | .warn => "WARN ".toList
  | .info => "INFO ".toList
  | .debug => "DEBUG".toList

namespace LogEntry

def lexed (l : Lexed) : LogEntry :=
  ⟨.debug, "esper::lex".toList, "Lexed ".toList ++ Text.ofNat l.tokens.length ++
    " significant tokens with ".toList ++ Text.ofNat l.errors.length ++ " errors".toList⟩

def recovering (e : Located SyntaxError) : LogEntry :=
  ⟨.debug, "esper::parse".toList,
    "Recovering from syntax error at ".toList ++ e.location.render⟩

/-- The errors that were stepped over, and then the outcome. -/
def parsed (tokens : List Token) (p : Parsed) : List LogEntry :=
  let recovered := if p.tree.isSome then p.errors else p.errors.dropLast
  recovered.map recovering ++
    [⟨.debug, "esper::parse".toList, "Parsed ".toList ++ Text.ofNat tokens.length ++
      " tokens with ".toList ++ Text.ofNat p.errors.length ++ " errors, tree ".toList ++
      (if p.tree.isSome then "built" else "discarded").toList⟩]

def resolved (r : Resolved) : LogEntry :=
  ⟨.debug, "esper::semantic".toList, "Normalized tree with ".toList ++
    Text.ofNat r.table.length ++ " variables and ".toList ++ Text.ofNat r.errors.length ++
    " errors".toList⟩

def generated (g : Target.Generated) : LogEntry :=
  ⟨.debug, "esper::codegen".toList,
    "Emitted C with ".toList ++ Text.ofNat g.errors.length ++ " errors".toList⟩

/-- An entry of the compilation itself, about the source called `name`. -/
def about (level : LogLevel) (name message : Text) : LogEntry :=
  ⟨level, "esper::pipeline".toList, name ++ ": ".toList ++ message⟩

end LogEntry

/-- Compiles a text. If `strict`, no C is given when there are errors. -/
def compile (name text : Text) (strict : Bool) : Compilation :=
  let lexed := (Lexer.start ⟨name, text⟩).tokenize
  let parsed := parse lexed.tokens
  let front := lexed.errors.map .ofLexical ++ parsed.errors.map .ofSyntactic
  let log := LogEntry.lexed lexed :: LogEntry.parsed lexed.tokens parsed
  let base : Compilation :=
    { tokens := lexed.tokens, tree := parsed.tree, program := none, table := [], c := none
      diagnostics := front, lexerErrors := lexed.errors.length
      parserErrors := parsed.errors.length, log }
  match parsed.tree with
  | none => { base with log := log ++ [.about .warn name "no syntax tree could be built".toList] }
  | some tree =>
    let resolved := resolve (Surface.ofTree tree)
    let generated := Target.generate resolved.program resolved.table
    let diagnostics :=
      front ++ resolved.errors.map .ofSemantic ++ generated.errors.map .ofEmission
    let errors := diagnostics.length
    let withheld := strict && errors ≠ 0
    let warning : List LogEntry :=
      if withheld then
        [.about .warn name ("withholding C output due to ".toList ++ Text.ofNat errors ++
          " errors".toList)]
      else if errors ≠ 0 then
        [.about .warn name ("emitting C despite ".toList ++ Text.ofNat errors ++ " errors".toList)]
      else []
    let summary := LogEntry.about .info name
      (Text.ofNat base.lexerErrors ++ " lexer errors, ".toList ++ Text.ofNat base.parserErrors ++
        " parser errors, ".toList ++ Text.ofNat errors ++ " total".toList)
    { base with
      program := some resolved.program
      table := resolved.table
      c := if withheld then none else some generated.text
      diagnostics
      log := log ++ [.resolved resolved, .generated generated] ++ warning ++ [summary] }

namespace Compilation

def ran (k : Compilation) : Stage → Bool
  | .lexer => true
  | .parser => k.tree.isSome
  | .semantic => k.program.isSome
  | .codegen => k.c.isSome

/-- A stage has run and found no error. -/
def succeeded (k : Compilation) (stage : Stage) : Bool :=
  k.ran stage && Diagnostic.count stage k.diagnostics = 0

/-- There is C and no diagnostic. -/
def isClean (k : Compilation) : Bool := k.c.isSome && k.diagnostics.isEmpty

end Compilation

inductive DumpStage where
  | tokens
  | tree
  | program
  deriving DecidableEq

/-- The stage that a dump is asked for by name. -/
def DumpStage.ofText? (t : Text) : Option DumpStage :=
  if t = "tokens".toList then some .tokens
  else if t = "cst".toList then some .tree
  else if t = "ast".toList then some .program
  else none

namespace Compilation

/-- What writes the dump of a stage, if the compilation got there. -/
def dumper? {σ : Type} [Output σ] (k : Compilation) : DumpStage → Option (σ → Except σ σ)
  | .tokens => some (Dump.writeTokens k.tokens)
  | .tree => k.tree.map (Dump.writeTree 1)
  | .program => k.program.map (Dump.writeProgram · k.table)

/-- The dump of a stage in pieces. -/
def dump? (k : Compilation) (stage : DumpStage) : Option (List Text) :=
  (k.dumper? stage).map Dump.pieces

/-- The outcome of writing the dump of a stage into a sink. -/
def writeDump? (k : Compilation) (s : Sink) (stage : DumpStage) : Option (Except Sink Sink) :=
  (k.dumper? stage).map fun write => write s

end Compilation

end ImpC
