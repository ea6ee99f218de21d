import ImpC.Compilation

/-!
The arguments of the command line. They are read from left to right; a request for help or for the
version ends the reading at once, and so does an argument that fits nowhere. A missing value, an
option given twice and a missing input are only found at the end.
-/

namespace ImpC.CommandLine

/-- What to compile and how. The name `-` stands for the standard streams. -/
structure Settings where
  input : Text
  output : Text
  dump : Option DumpStage
  strict : Bool
  verbosity : Nat

inductive Request where
  | help
  | version
  | compile (settings : Settings)

inductive Valued where
  | output
  | dump
  deriving DecidableEq

/-- The arguments read so far. -/
structure Draft where
  inputs : List Text := []
  outputs : List Text := []
  dumps : List DumpStage := []
  strict : Bool := false
  verbosity : Nat := 0
  lacksValue : Bool := false

/-- What one argument leads to. -/
inductive Step where
  | next (draft : Draft)
  | value (option : Valued) (draft : Draft)
  | done (request : Request)
  | refused

namespace Draft

def assign? (d : Draft) (value : Text) : Valued → Option Draft
  | .output => some { d with outputs := value :: d.outputs }
  | .dump => (DumpStage.ofText? value).map fun stage => { d with dumps := stage :: d.dumps }

def assign (d : Draft) (option : Valued) (value : Text) : Step :=
  match d.assign? value option with
  | some d => .next d
  | none => .refused

/-- There is one input at most. -/
def addInput (d : Draft) (t : Text) : Step :=
  if d.inputs.isEmpty then .next { d with inputs := [t] } else .refused

/-- The settings of a complete command line. -/
def complete? (d : Draft) : Option Request :=
  match d.inputs, d.outputs, d.dumps, d.lacksValue with
  | [input], outputs, dumps, false =>
    if outputs.length ≤ 1 ∧ dumps.length ≤ 1 then
      some (.compile ⟨input, outputs.headD ['-'], dumps.head?, d.strict, d.verbosity⟩)
    else none
  | _, _, _, _ => none

/-- An option by its long name, with the value written after an equals sign. -/
def long (d : Draft) (name : Text) (value : Option Text) : Step :=
  match String.ofList name, value with
  | "output", some v => d.assign .output v
  | "output", none => .value .output d
  | "dump", some v => d.assign .dump v
  | "dump", none => .value .dump d
  | "strict", none => .next { d with strict := true }
  | "help", none => .done .help
  | "version", none => .done .version
  | _, _ => .refused

/-- Options by their letters. A letter with a value takes the rest of the argument as its value, but
for an equals sign in front. -/
def letters (d : Draft) : Text → Step
  | [] => .next d
  | 'v' :: rest => letters { d with verbosity := d.verbosity + 1 } rest
  | 'h' :: _ => .done .help
  | 'V' :: _ => .done .version
  | ['o'] => .value .output d
  | 'o' :: '=' :: rest => d.assign .output rest
  | 'o' :: rest => d.assign .output rest
  | _ => .refused

/-- One argument before the mark that ends the options. -/
def argument (d : Draft) : Text → Step
  | '-' :: '-' :: rest =>
    match rest.dropWhile (· ≠ '=') with
    | _ :: value => d.long (rest.takeWhile (· ≠ '=')) (some value)
    | [] => d.long rest none
  | '-' :: c :: rest => d.letters (c :: rest)
  | t => d.addInput t

end Draft

/-- The mark after which all arguments are inputs. -/
def endOfOptions : Text := "--".toList

/-- An argument can be the value of an option before it. -/
def isValue : Text → Bool
  | '-' :: _ :: _ => false
  | _ => true

/-- Arguments after the mark that ends the options. -/
def inputs (d : Draft) : List Text → Option Request
  | [] => d.complete?
  | t :: ts =>
    match d.addInput t with
    | .next d => inputs d ts
    | _ => none

/-- The request that some arguments make, if they are in order. -/
def read (d : Draft) : List Text → Option Request
  | [] => d.complete?
  | t :: ts =>
    if t = endOfOptions then inputs d ts
    else
      match d.argument t with
      | .next d => read d ts
      | .done request => some request
      | .refused => none
      | .value option d =>
        match ts with
        | [] => none
        | v :: rest =>
          if isValue v then
            match d.assign? v option with
            | some d => read d rest
            | none => none
          else read { d with lacksValue := true } (v :: rest)

def request? (arguments : List Text) : Option Request := read {} arguments

end ImpC.CommandLine
