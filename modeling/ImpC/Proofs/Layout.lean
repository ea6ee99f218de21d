import ImpC.Compilation
import ImpC.Proofs.Program.Unplaced
import ImpC.Proofs.Surface.Words
import ImpC.Proofs.Target.Emission

/-!
# Compiling apart from layout

Places reach the diagnostics and nothing else: texts whose tokens agree in kind and text, whatever
stands between them, are compiled alike.
-/
namespace ImpC

namespace Target

/-- The same context, with variables declared nowhere. -/
def Context.unplaced (k : Context) : Context := ⟨k.table.map Variable.unplaced, k.names⟩

/-- Two parts give the same, with errors that differ in places only. -/
structure Agree {α : Type} (part part' : α × Errors) : Prop where
  value : part'.1 = part.1
  errors : part'.2.map (·.value) = part.2.map (·.value)

mutual

/-- Places are in reports only, not in what is lowered. -/
theorem lower_unplaced (k : Context) :
    ∀ e : ImpC.Expr, Agree (lower k e) (lower k.unplaced e.unplaced)
  | .literal _ _ | .reference _ _ => ⟨rfl, rfl⟩
  | .unary _ _ operand => by
    obtain ⟨hvalue, herrors⟩ := lower_unplaced k operand
    exact ⟨by simp only [ImpC.Expr.unplaced, lower, hvalue], herrors⟩
  | .binary _ _ left right => by
    obtain ⟨hleft, herrors⟩ := lower_unplaced k left
    obtain ⟨hright, hmore⟩ := lower_unplaced k right
    constructor <;> simp [ImpC.Expr.unplaced, lower, hleft, hright, herrors, hmore]
  | .call _ function arguments => by
    rw [ImpC.Expr.unplaced, lower, lower]
    split
    · obtain ⟨harguments, herrors⟩ := lowerPrinted_unplaced k arguments
      exact ⟨by simp only [harguments], herrors⟩
    · obtain ⟨harguments, herrors⟩ := lowerAll_unplaced k arguments
      exact ⟨by simp only [harguments], herrors⟩

theorem lowerAll_unplaced (k : Context) :
    ∀ es : List ImpC.Expr, Agree (lowerAll k es) (lowerAll k.unplaced (ImpC.Expr.unplacedAll es))
  | [] => ⟨rfl, rfl⟩
  | e :: es => by
    obtain ⟨hfirst, herrors⟩ := lower_unplaced k e
    obtain ⟨hrest, hmore⟩ := lowerAll_unplaced k es
    constructor <;> simp [ImpC.Expr.unplacedAll, lowerAll, hfirst, hrest, herrors, hmore]

theorem lowerPrinted_unplaced (k : Context) :
    ∀ es : List ImpC.Expr,
      Agree (lowerPrinted k es) (lowerPrinted k.unplaced (ImpC.Expr.unplacedAll es))
  | [] => ⟨rfl, rfl⟩
  | e :: es => by
    obtain ⟨hfirst, herrors⟩ := lower_unplaced k e
    obtain ⟨hrest, hmore⟩ := lowerPrinted_unplaced k es
    have htype : e.unplaced.type k.unplaced.table = e.type k.table := e.type_unplaced k.table
    simp only [ImpC.Expr.unplacedAll, lowerPrinted, htype, hfirst]
    cases Argument.ofTy? (lower k e).1 (e.type k.table) <;>
      constructor <;> simp [hrest, herrors, hmore]

end

theorem declarator_unplaced (v : Variable) (name : Text) :
    Agree (declarator v name) (declarator v.unplaced name) := by
  have htype : v.unplaced.type = v.type := rfl
  simp only [declarator, htype]
  cases CType.ofTy? v.type <;> exact ⟨rfl, rfl⟩

section Steps

variable (k : Context)

theorem own_unplaced (scope : Nat) :
    k.unplaced.own scope = (k.own scope).map (Prod.map Variable.unplaced id) := by
  rw [Context.own, Context.own, Context.unplaced, List.zip_map_left, List.filter_map]
  rfl

theorem declarators_unplaced (scope : Nat) : k.unplaced.declarators scope = k.declarators scope := by
  rw [Context.declarators, own_unplaced, List.filterMap_map]
  exact List.filterMap_congr fun p _ => (declarator_unplaced p.1 p.2).value

theorem undeclared_unplaced (scope : Nat) :
    (k.unplaced.undeclared scope).map (·.value) = (k.undeclared scope).map (·.value) := by
  rw [Context.undeclared, own_unplaced, List.flatMap_map, Context.undeclared, List.map_flatMap,
    List.map_flatMap]
  exact List.flatMap_congr fun p _ => (declarator_unplaced p.1 p.2).errors

/-- What a step emits does not depend on places. -/
theorem row_unplaced (opened : List Nat) (s : Step) :
    k.unplaced.row? opened s.unplaced = k.row? opened s := by
  have hassignment (a : Assignment) : Row.assignment (k.unplaced.nameOf a.target.value)
      (lower k.unplaced a.value.unplaced).1 =
      .assignment (k.nameOf a.target.value) (lower k a.value).1 := by
    rw [(lower_unplaced k a.value).value]
    rfl
  cases s with
  | enter opening scope =>
    have hopening : (opening.map Expr.unplaced).map (fun e => (lower k.unplaced e).1) =
        opening.map fun e => (lower k e).1 := by
      cases opening <;> simp [Opening.map, (lower_unplaced k _).value]
    rw [Step.unplaced, Context.row?, Context.row?, hopening, declarators_unplaced]
  | declaration i initial =>
    cases initial with
    | none => rfl
    | some a => exact congrArg some (hassignment a)
  | assignment a => exact congrArg some (hassignment a)
  | call location function arguments =>
    exact congrArg (some ∘ Row.evaluation) (lower_unplaced k (.call location function arguments)).value
  | leave => rfl

theorem step_unplaced (s : Step) :
    s.unplaced.value? = s.value?.map Expr.unplaced ∧ s.unplaced.scope? = s.scope? := by
  cases s with
  | enter opening scope => exact ⟨Opening.condition?_map _ opening, rfl⟩
  | declaration i initial => cases initial <;> exact ⟨rfl, rfl⟩
  | assignment | call | leave => exact ⟨rfl, rfl⟩

theorem reports_unplaced (opened : List Nat) (s : Step) :
    (k.unplaced.reports opened s.unplaced).map (·.value) = (k.reports opened s).map (·.value) := by
  obtain ⟨hvalue, hscope⟩ := step_unplaced s
  rw [Context.reports, Context.reports, hvalue, hscope, List.map_append, List.map_append]
  congr 1
  · cases s.value? with
    | none => rfl
    | some e => simpa using (lower_unplaced k e).errors
  · cases s.scope? with
    | none => rfl
    | some scope =>
      simp only [Option.toList_some, List.flatMap_singleton]
      split
      · rfl
      · exact undeclared_unplaced k scope

theorem openedAfter_unplaced (opened : List Nat) (s : Step) :
    openedAfter opened s.unplaced = openedAfter opened s := by
  rw [openedAfter, openedAfter, (step_unplaced s).2]

/-- The rows of a program without places are those of the program. -/
theorem rows_unplaced (opened : List Nat) (steps : List Step) :
    k.unplaced.rows opened (steps.map Step.unplaced) = k.rows opened steps := by
  induction steps generalizing opened with
  | nil => rfl
  | cons s steps ih =>
    rw [List.map_cons, Context.rows, row_unplaced, openedAfter_unplaced, ih, Context.rows]

/-- The same errors are reported, each without its place. -/
theorem reportsAll_unplaced (opened : List Nat) (steps : List Step) :
    (k.unplaced.reportsAll opened (steps.map Step.unplaced)).map (·.value) =
      (k.reportsAll opened steps).map (·.value) := by
  induction steps generalizing opened with
  | nil => rfl
  | cons s steps ih =>
    rw [List.map_cons, Context.reportsAll, List.map_append, reports_unplaced, openedAfter_unplaced,
      ih, ← List.map_append, Context.reportsAll]

end Steps

/-- Without places a program gives the same C and the same errors. -/
theorem generate_unplaced (program : ImpC.Block) (table : List Variable) :
    (generate program.unplaced (table.map Variable.unplaced)).text = (generate program table).text ∧
      (generate program.unplaced (table.map Variable.unplaced)).errors.map (·.value) =
        (generate program table).errors.map (·.value) := by
  let k : Context := ⟨table, assignNames (table.map (·.name))⟩
  have hnames : (table.map Variable.unplaced).map (·.name) = table.map (·.name) := by
    rw [List.map_map]
    rfl
  have hsteps : program.unplaced.steps .main = (program.steps .main).map Step.unplaced :=
    (program.steps_unplaced .main).symm
  have hrows : programRows program.unplaced (table.map Variable.unplaced) =
      programRows program table := by
    rw [programRows, hnames, hsteps]
    exact rows_unplaced k [] _
  rw [generate_eq, generate_eq, programLines, hrows, programReports, hnames, hsteps]
  exact ⟨rfl, reportsAll_unplaced k [] _⟩

/-- Programs that agree but for places give the same C and the same errors. -/
theorem generate_alike {program program' : ImpC.Block} {table table' : List Variable}
    (hprogram : program.unplaced = program'.unplaced)
    (htable : table.map Variable.unplaced = table'.map Variable.unplaced) :
    (generate program table).text = (generate program' table').text ∧
      (generate program table).errors.map (·.value) =
        (generate program' table').errors.map (·.value) := by
  obtain ⟨htext, herrors⟩ := generate_unplaced program table
  obtain ⟨htext', herrors'⟩ := generate_unplaced program' table'
  rw [hprogram, htable] at htext herrors
  exact ⟨htext.symm.trans htext', herrors.symm.trans herrors'⟩

end Target

/-- Trees whose tokens agree but for places have programs that agree but for places. -/
theorem resolve_alike {tree tree' : Tree}
    (h : tree.mapTokens Token.unplaced = tree'.mapTokens Token.unplaced) :
    (resolve (Surface.ofTree tree)).program.unplaced =
        (resolve (Surface.ofTree tree')).program.unplaced ∧
      (resolve (Surface.ofTree tree)).table.map Variable.unplaced =
        (resolve (Surface.ofTree tree')).table.map Variable.unplaced ∧
      (resolve (Surface.ofTree tree)).errors.map (·.value) =
        (resolve (Surface.ofTree tree')).errors.map (·.value) := by
  have hmeaning : Surface.Statement.unplacedAll (Surface.ofTree tree) =
      Surface.Statement.unplacedAll (Surface.ofTree tree') := by
    rw [← Surface.ofTree_unplaced, ← Surface.ofTree_unplaced, h]
  obtain ⟨hprogram, htable, herrors⟩ := resolve_unplaced (Surface.ofTree tree)
  obtain ⟨hprogram', htable', herrors'⟩ := resolve_unplaced (Surface.ofTree tree')
  rw [hmeaning] at hprogram htable herrors
  exact ⟨hprogram.symm.trans hprogram', htable.symm.trans htable', herrors.symm.trans herrors'⟩

/-- The same diagnostic at no place. It has the stage and the problem, and so the message. -/
def Diagnostic.unplaced (d : Diagnostic) : Diagnostic := { d with location := nowhere }

/-- Compilations that give the same but for places. -/
structure Compilation.Alike (k k' : Compilation) : Prop where
  tree : k.tree.map (Tree.mapTokens Token.unplaced) = k'.tree.map (Tree.mapTokens Token.unplaced)
  program : k.program.map Block.unplaced = k'.program.map Block.unplaced
  table : k.table.map Variable.unplaced = k'.table.map Variable.unplaced
  c : k.c = k'.c
  diagnostics : k.diagnostics.map Diagnostic.unplaced = k'.diagnostics.map Diagnostic.unplaced

/-- A stage whose errors agree but for places has diagnostics that agree but for places. -/
theorem Diagnostic.alike {α : Type} {es es' : List (Located α)}
    (h : es.map (·.value) = es'.map (·.value)) (of : Located α → Diagnostic)
    (hof : ∀ e, (of e).unplaced = of ⟨nowhere, e.value⟩) :
    (es.map of).map Diagnostic.unplaced = (es'.map of).map Diagnostic.unplaced := by
  have hvalue : Diagnostic.unplaced ∘ of = (fun value => of ⟨nowhere, value⟩) ∘ (·.value) := by
    funext e
    exact hof e
  rw [List.map_map, List.map_map, hvalue, ← List.map_map, ← List.map_map, h]

theorem Token.unplaced_of_words {tokens tokens' : List Token}
    (h : tokens.map (fun t => (t.kind, t.text)) = tokens'.map (fun t => (t.kind, t.text))) :
    tokens.map Token.unplaced = tokens'.map Token.unplaced := by
  have hword : Token.unplaced = (fun p => ⟨p.1, p.2, nowhere⟩) ∘ fun t => (t.kind, t.text) := rfl
  rw [hword, ← List.map_map, ← List.map_map, h]

theorem Lexer.fault?_unplaced (t : Token) :
    (fault? t.unplaced).map (·.value) = (fault? t).map (·.value) := by
  obtain ⟨kind, text, place⟩ := t
  simp only [Token.unplaced, fault?]
  split <;> rfl

theorem Lexer.faults_alike {tokens tokens' : List Token}
    (h : tokens.map Token.unplaced = tokens'.map Token.unplaced) :
    (tokens.filterMap fault?).map (·.value) = (tokens'.filterMap fault?).map (·.value) := by
  have hvalues (ts : List Token) : (ts.filterMap fault?).map (·.value) =
      (ts.map Token.unplaced).filterMap fun t => (fault? t).map (·.value) := by
    simp only [List.map_filterMap, List.filterMap_map, Function.comp_def, fault?_unplaced]
  rw [hvalues, hvalues, h]

/-- Tokens that differ in their places only give trees that differ in places only, and the same
errors. -/
theorem parse_alike {tokens tokens' : List Token}
    (h : tokens.map Token.unplaced = tokens'.map Token.unplaced) :
    (parse tokens).tree.map (Tree.mapTokens Token.unplaced) =
        (parse tokens').tree.map (Tree.mapTokens Token.unplaced) ∧
      (parse tokens).errors.map (·.value) = (parse tokens').errors.map (·.value) := by
  have hkind (t : Token) : t.unplaced.kind = t.kind := rfl
  obtain ⟨htree, herrors⟩ := parse_map hkind tokens
  obtain ⟨htree', herrors'⟩ := parse_map hkind tokens'
  rw [h] at htree herrors
  exact ⟨htree.symm.trans htree', herrors.symm.trans herrors'⟩

/-- The parts of a compilation of a text that has no tree. -/
theorem compile_of_none {source : Source} {strict : Bool}
    (h : (parse (Lexer.start source).tokenize.tokens).tree = none) :
    let k := compile source.name source.text strict
    k.tree = none ∧ k.program = none ∧ k.table = [] ∧ k.c = none ∧
      k.diagnostics = (Lexer.start source).tokenize.errors.map .ofLexical ++
        (parse (Lexer.start source).tokenize.tokens).errors.map .ofSyntactic := by
  rw [compile]
  simp only [h, and_self]

/-- The parts of a compilation of a text that has a tree. -/
theorem compile_of_tree {source : Source} {strict : Bool} {tree : Tree}
    (h : (parse (Lexer.start source).tokenize.tokens).tree = some tree) :
    let k := compile source.name source.text strict
    let resolved := resolve (Surface.ofTree tree)
    let generated := Target.generate resolved.program resolved.table
    k.tree = some tree ∧ k.program = some resolved.program ∧ k.table = resolved.table ∧
      k.c = (if strict && k.diagnostics.length ≠ 0 then none else some generated.text) ∧
      k.diagnostics = (Lexer.start source).tokenize.errors.map .ofLexical ++
        (parse (Lexer.start source).tokenize.tokens).errors.map .ofSyntactic ++
        resolved.errors.map .ofSemantic ++ generated.errors.map .ofEmission := by
  rw [compile]
  simp only [h, and_self]

/-- Texts whose tokens agree in kind and text are compiled alike, whatever they are called and
whatever layout is between their tokens. -/
theorem compile_alike (source source' : Source) (strict : Bool)
    (h : (Lexer.start source).tokenize.tokens.map (fun t => (t.kind, t.text)) =
      (Lexer.start source').tokenize.tokens.map (fun t => (t.kind, t.text))) :
    (compile source.name source.text strict).Alike (compile source'.name source'.text strict) := by
  have htokens := Token.unplaced_of_words h
  obtain ⟨hparse, hsyntax⟩ := parse_alike htokens
  have hfaults : (Lexer.start source).tokenize.errors.map (·.value) =
      (Lexer.start source').tokenize.errors.map (·.value) := Lexer.faults_alike htokens
  have hlexical := Diagnostic.alike hfaults .ofLexical fun _ => rfl
  have hsyntactic := Diagnostic.alike hsyntax .ofSyntactic fun _ => rfl
  cases hread : (parse (Lexer.start source).tokenize.tokens).tree with
  | none =>
    rw [hread, Option.map_none, eq_comm, Option.map_eq_none_iff] at hparse
    obtain ⟨htree, hprogram, htable, hc, hdiagnostics⟩ := @compile_of_none source strict hread
    obtain ⟨htree', hprogram', htable', hc', hdiagnostics'⟩ :=
      @compile_of_none source' strict hparse
    refine ⟨by rw [htree, htree'], by rw [hprogram, hprogram'], by rw [htable, htable'],
      by rw [hc, hc'], ?_⟩
    rw [hdiagnostics, hdiagnostics', List.map_append, List.map_append, hlexical, hsyntactic]
  | some tree =>
    rw [hread, Option.map_some, eq_comm, Option.map_eq_some_iff] at hparse
    obtain ⟨tree', hsome, hshape⟩ := hparse
    obtain ⟨hblock, hvariables, hresolved⟩ := resolve_alike hshape.symm
    obtain ⟨htext, hgenerated⟩ := Target.generate_alike hblock hvariables
    have hsemantic := Diagnostic.alike hresolved .ofSemantic fun _ => rfl
    have hemission := Diagnostic.alike hgenerated .ofEmission fun _ => rfl
    obtain ⟨htree, hprogram, htable, hc, hdiagnostics⟩ := @compile_of_tree source strict tree hread
    obtain ⟨htree', hprogram', htable', hc', hdiagnostics'⟩ :=
      @compile_of_tree source' strict tree' hsome
    have hreports : (compile source.name source.text strict).diagnostics.map Diagnostic.unplaced =
        (compile source'.name source'.text strict).diagnostics.map Diagnostic.unplaced := by
      rw [hdiagnostics, hdiagnostics']
      simp only [List.map_append, hlexical, hsyntactic, hsemantic, hemission]
    -- whether C is withheld depends on the number of diagnostics only
    have hcount : (compile source.name source.text strict).diagnostics.length =
        (compile source'.name source'.text strict).diagnostics.length := by
      simpa only [List.length_map] using congrArg List.length hreports
    refine ⟨?_, ?_, ?_, ?_, hreports⟩
    · rw [htree, htree', Option.map_some, Option.map_some, hshape]
    · rw [hprogram, hprogram', Option.map_some, Option.map_some, hblock]
    · rw [htable, htable', hvariables]
    · rw [hc, hc', hcount, htext]

/-- A character that starts no token, in a statement of its own, and a name that is not declared and
cannot be printed, with a comment and line breaks. -/
def spacedOutSource : Source :=
  ⟨"spaced".toList, "var x: int = - 2; // at first\n\n@\nx = 3;\n  print(x, y);\n".toList⟩

def unspacedSource : Source := ⟨"unspaced".toList, "var x:int=-2;@x=3;print(x,y);".toList⟩

theorem compile_alike_spread :
    (compile spacedOutSource.name spacedOutSource.text false).Alike
        (compile unspacedSource.name unspacedSource.text false) ∧
      (compile unspacedSource.name unspacedSource.text false).diagnostics.map (·.stage) =
        [.lexer, .parser, .semantic, .codegen] := by
  have hspread : (Lexer.start spacedOutSource).tokens =
      ((Lexer.start spacedOutSource).advance 60).1 :=
    Lexer.tokens_eq_advance (by decide)
  have hdense : (Lexer.start unspacedSource).tokens = ((Lexer.start unspacedSource).advance 60).1 :=
    Lexer.tokens_eq_advance (by decide)
  refine ⟨compile_alike spacedOutSource unspacedSource false ?_, ?_⟩
  · rw [Lexer.tokenize, Lexer.tokenize, hspread, hdense]
    decide +kernel
  · have hdense' : (Lexer.start ⟨unspacedSource.name, unspacedSource.text⟩).tokens = _ := hdense
    rw [compile, Lexer.tokenize, hdense']
    decide +kernel

end ImpC
