import ImpC.CommandLine.Arguments
import ImpC.CommandLine.Files

/-!
A run of the command line: the source is read and compiled, C or a dump is written, and messages
follow on the standard error: first the log, then the diagnostics, then why the run failed.
-/

namespace ImpC.CommandLine

structure Outcome where
  code : Nat
  stdout : Text
  stderr : Text

def versionText : Text := "Esper compiler 1.0.0\n".toList

def helpText : Text :=
  versionText ++
    ("Translates Esper programs into C\n" ++
    "\n" ++
    "USAGE:\n" ++
    "    esperc [OPTIONS] <INPUT>\n" ++
    "\n" ++
    "ARGS:\n" ++
    "    <INPUT>    Source file ('-' for stdin)\n" ++
    "\n" ++
    "OPTIONS:\n" ++
    "        --dump <STAGE>     Print a debug dump instead of C [possible values: tokens, cst, " ++
    "ast]\n" ++
    "    -h, --help             Print help information\n" ++
    "    -o, --output <FILE>    Output file ('-' for stdout) [default: -]\n" ++
    "        --strict           Refuse to emit C if any error is reported\n" ++
    "    -v                     Increase logging verbosity\n" ++
    "    -V, --version          Print version information\n").toList

/-- A text whose lines are indented, but for the first one. -/
def hanging (t : Text) : Text := t.flatMap fun c => if c = '\n' then c :: Text.blanks 4 else [c]

def logLine (e : LogEntry) : Text :=
  '[' :: e.level.label ++ ' ' :: e.origin ++ "] ".toList ++ hanging e.message ++ ['\n']

def logText (verbosity : Nat) (log : List LogEntry) : Text :=
  (log.filter (·.level.verbosity ≤ verbosity)).flatMap logLine

/-- The end of a run that failed to read or write. -/
def failureText (context : Text) (f : Failure) : Text :=
  "Error: ".toList ++ context ++ "\n\nCaused by:\n    ".toList ++ f.message ++ ['\n']

/-- The name that stands for a standard stream. -/
def dash : Text := ['-']

def sourceName (input : Text) : Text := if input = dash then "<stdin>".toList else input

def readContext (input : Text) : Text :=
  if input = dash then "Failed to read from stdin".toList
  else "Failed to open for reading: ".toList ++ input

/-- What a compilation writes to the standard output, and what to the output file. -/
def results (s : Settings) (k : Compilation) : Text × Option Text :=
  match s.dump with
  | some stage => (((k.dump? stage).getD []).flatten, none)
  | none => if s.output = dash then (k.c.getD [], none) else ([], k.c)

/-- The end of a run whose results are written. -/
def conclusion (name : Text) (verbosity : Nat) (k : Compilation) : Nat × Text :=
  let shown := if k.diagnostics.isEmpty then [] else Diagnostic.report k.diagnostics
  if k.isClean then
    (0, logText verbosity
      [⟨.info, "esperc".toList, name ++ ": compiled successfully".toList⟩])
  else
    (1, shown ++ "Error: Compilation of ".toList ++ name ++ " failed (".toList ++
      Text.ofNat k.lexerErrors ++ " lexical, ".toList ++ Text.ofNat k.parserErrors ++
      " syntax, ".toList ++ Text.ofNat k.diagnostics.length ++ " total)\n".toList)

variable {m : Type → Type} [Monad m]

def compileWith (files : Files m) (s : Settings) : m Outcome := do
  match ← (if s.input = dash then files.standardInput else files.read s.input) with
  | .error f => return ⟨1, [], failureText (readContext s.input) f⟩
  | .ok text =>
    let name := sourceName s.input
    let k := compile name text s.strict
    let log := logText s.verbosity k.log
    let (stdout, file) := results s k
    let written ← match file with
      | none => pure (.ok ())
      | some c => files.write s.output c
    match written with
    | .error f =>
      return ⟨1, stdout, log ++ failureText ("Failed to emit to file: ".toList ++ s.output) f⟩
    | .ok () =>
      let (code, messages) := conclusion name s.verbosity k
      return ⟨code, stdout, log ++ messages⟩

/-- Runs a command line. Arguments that are not in order have no outcome. -/
def run (files : Files m) (arguments : List Text) : m (Option Outcome) :=
  match request? arguments with
  | none => return none
  | some .help => return some ⟨0, helpText, []⟩
  | some .version => return some ⟨0, versionText, []⟩
  | some (.compile s) => some <$> compileWith files s

/-- Shows every stage of the front end for a text, without emitting C. -/
def inspect (text : Text) : Outcome :=
  let lexed := (Lexer.start ⟨sourceName dash, text⟩).tokenize
  let parsed := parse lexed.tokens
  let front := lexed.errors.map Diagnostic.ofLexical ++ parsed.errors.map .ofSyntactic
  let shown := "Lexer output:\n".toList ++ (Dump.tokens lexed.tokens).flatten
  match parsed.tree with
  | none => ⟨0, shown, Diagnostic.report front⟩
  | some tree =>
    let resolved := resolve (Surface.ofTree tree)
    ⟨0, shown ++ "Parser output:\n".toList ++ (Dump.tree tree).flatten ++
      "Normalized:\n".toList ++ (Dump.program resolved.program resolved.table).flatten,
      Diagnostic.report (front ++ resolved.errors.map .ofSemantic)⟩

def inspectInput (input : Except Failure Text) : Outcome :=
  match input with
  | .ok text => inspect text
  | .error f =>
    ⟨1, [], "Error: Error \x7b kind: InvalidData, message: ".toList ++ f.message.quote ++
      " \x7d\n".toList⟩

end ImpC.CommandLine
