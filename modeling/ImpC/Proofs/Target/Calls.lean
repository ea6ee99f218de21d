import ImpC.Proofs.C.Call
import ImpC.Proofs.Target.Binding
import ImpC.Proofs.Target.Declaring
import ImpC.Proofs.Layout
import ImpC.Proofs.Grammar.ErrorNodes

/-!
# Calls in C

Functions keep their names in C, where variables and functions share one space of names. The calls
in the emitted text are those of the program, one by one, each inside the blocks of the same scopes.
A call reaches a function from outside unless a variable around it has the name of the function in
C, be it its own or one that a suffix has made of it.
-/
namespace ImpC

/-- The function that is called in C for one of the program. -/
def Target.calleeOf (function : Text) : Text :=
  if function = "print".toList then "printf".toList else function

/-- A call and the scopes around it, innermost first. -/
structure Call where
  function : Text
  path : List Nat
  deriving DecidableEq

def Call.callee (c : Call) : Text := Target.calleeOf c.function

mutual

/-- The functions that an expression calls, in the order in which they are written. -/
def Expr.functions : Expr → List Text
  | .literal _ _ | .reference _ _ => []
  | .unary _ _ operand => operand.functions
  | .binary _ _ left right => left.functions ++ right.functions
  | .call _ function arguments => function :: Expr.functionsAll arguments

def Expr.functionsAll : List Expr → List Text
  | [] => []
  | e :: es => e.functions ++ Expr.functionsAll es

end

/-- The calls in an expression inside the scopes `path`. -/
def Expr.calls (path : List Nat) (e : Expr) : List Call := e.functions.map (⟨·, path⟩)

/-- The calls in some steps inside the scopes `path`, in order. -/
def Step.calls (path : List Nat) (steps : List Step) : List Call :=
  (Step.placed path steps).flatMap fun (path, s) => s.value?.toList.flatMap (Expr.calls path)

def Block.calls (program : Block) : List Call := Step.calls [] (program.steps .main)

namespace Target

open ImpC.C

/-- How a call is read in C. -/
def Context.call (k : Context) (c : Call) : Use := C.use (c.path.map k.frame) c.callee

/-- How calls are read in C. Words that C reserves call nothing. -/
def Context.called (k : Context) (cs : List Call) : List Use :=
  (cs.filter (isFunction ·.callee)).map k.call

theorem called_flatMap {α : Type} (k : Context) (l : List α) (calls : α → List Call) :
    k.called (l.flatMap calls) = l.flatMap fun a => k.called (calls a) := by
  simp [Context.called, List.filter_flatMap, List.map_flatMap]

theorem callsOf_calleeOf (k : Context) (path : List Nat) (e : ImpC.Expr) :
    callsOf (path.map k.frame) (e.functions.map calleeOf) = k.called (e.calls path) := by
  rw [callsOf, Context.called, Expr.calls, List.filter_map, List.filter_map, List.map_map,
    List.map_map]
  rfl

/-- All arguments to print in an expression have types with a counterpart in C. -/
def Printable (table : List Variable) (e : ImpC.Expr) : Prop :=
  ∀ a ∈ e.printed, printReport? table a = none

/-- An argument with a type that has a counterpart is not left out. -/
theorem exists_argument {table : List Variable} {e : ImpC.Expr} (h : printReport? table e = none)
    (value : Expr) :
    ∃ a, Argument.ofTy? value (e.type table) = some a ∧ a.callees = value.callees := by
  rw [printReport?] at h
  cases htype : e.type table with
  | int | float | bool | string => exact ⟨_, rfl, rfl⟩
  | named | unknown =>
    rw [htype] at h
    cases h

mutual

/-- Where everything can be printed, lowering keeps all calls in their order. -/
theorem lower_callees (k : Context) : ∀ e : ImpC.Expr,
    (∀ a ∈ e.printed, printReport? k.table a = none) →
    (lower k e).1.callees = e.functions.map calleeOf
  | .literal _ _, _ => rfl
  | .reference _ _, _ => rfl
  | .unary _ _ operand, h => lower_callees k operand h
  | .binary _ _ left right, h => by
    rw [Expr.printed, List.forall_mem_append] at h
    rw [Expr.functions, List.map_append, ← lower_callees k left h.1, ← lower_callees k right h.2]
    rfl
  | .call _ function arguments, h => by
    rw [Expr.printed] at h
    rw [lower, printName, Expr.functions, List.map_cons, calleeOf]
    split
    · rename_i hprint
      rw [if_pos hprint] at h
      exact congrArg (_ :: ·) (lowerPrinted_callees k arguments h)
    · rename_i hcall
      rw [if_neg hcall] at h
      exact congrArg (_ :: ·) (lowerAll_callees k arguments h)

theorem lowerAll_callees (k : Context) : ∀ es : List ImpC.Expr,
    (∀ a ∈ Expr.printedAll es, printReport? k.table a = none) →
    (Expr.calleesAll (lowerAll k es).1).flatten = (Expr.functionsAll es).map calleeOf
  | [], _ => rfl
  | e :: es, h => by
    rw [Expr.printedAll, List.forall_mem_append] at h
    rw [Expr.functionsAll, List.map_append, ← lower_callees k e h.1, ← lowerAll_callees k es h.2]
    rfl

theorem lowerPrinted_callees (k : Context) : ∀ es : List ImpC.Expr,
    (∀ a ∈ Expr.printedArguments es, printReport? k.table a = none) →
    (Argument.calleesAll (lowerPrinted k es).1).flatten = (Expr.functionsAll es).map calleeOf
  | [], _ => rfl
  | e :: es, h => by
    rw [Expr.printedArguments, List.forall_mem_append, List.forall_mem_cons] at h
    obtain ⟨a, ha, hcallees⟩ := exists_argument h.2.1 (lower k e).1
    rw [Expr.functionsAll, List.map_append, ← lower_callees k e h.1,
      ← lowerPrinted_callees k es h.2.2, lowerPrinted, ← hcallees]
    dsimp only
    rw [ha]
    rfl

end

theorem lower_calls {k : Context} {e : ImpC.Expr} (h : Printable k.table e) (path : List Nat) :
    callsOf (path.map k.frame) (lower k e).1.callees = k.called (e.calls path) := by
  rw [lower_callees k e h, callsOf_calleeOf]

/-- The calls in the row of a step. -/
theorem row_calls {k : Context} (path : List Nat) {s : Step} (hinner : s.isInner = true)
    (h : ∀ e ∈ s.value?, Printable k.table e) :
    (k.row? [] s).elim [] (·.calls (path.map k.frame)) =
      k.called (s.value?.toList.flatMap (Expr.calls (s.outer path))) := by
  have hvalue (path : List Nat) {e : ImpC.Expr} (he : e ∈ s.value?) :
      callsOf (path.map k.frame) (lower k e).1.callees = k.called ([e].flatMap (Expr.calls path)) := by
    rw [lower_calls (h e he), List.flatMap_singleton]
  cases s with
  | enter opening scope =>
    cases opening with
    | main => cases hinner
    | plain => rfl
    | conditional condition | loop condition => exact hvalue path rfl
    | otherwise => rfl
    | alternative condition =>
      have hcondition := hvalue path.tail rfl
      rw [List.map_tail] at hcondition
      exact hcondition
  | declaration i initial =>
    cases initial with
    | none => rfl
    | some a => exact hvalue path rfl
  | assignment a => exact hvalue path rfl
  | call location function arguments => exact hvalue path rfl
  | leave => rfl

/-- The calls in the rows of a program are the definition of `main` and the calls of the program. -/
theorem rows_calls {k : Context} {program : ImpC.Block} {n : Nat}
    (hscopes : program.scopes = List.range n)
    (hprintable : ∀ e ∈ program.values, Printable k.table e) :
    Row.readAll Row.calls [] 0 ((program.steps .main).filterMap (k.row? [])) =
      C.use [] "main".toList :: k.called program.calls := by
  obtain ⟨scope, statements⟩ := program
  rw [List.range_eq_range'] at hscopes
  cases n with
  | zero => cases hscopes
  | succ n =>
    obtain ⟨rfl, hmore⟩ := List.cons.inj hscopes
    have hinner := Statement.inner_stepsAll statements
    rw [Block.calls, Step.calls, called_flatMap]
    have hrest := rows_read k Row.calls
      (fun p => k.called (p.2.value?.toList.flatMap (Expr.calls p.1))) [0]
      (fun s hs path => row_calls path (hinner s hs) fun e he =>
        hprintable e (List.mem_filterMap.mpr ⟨s, List.mem_cons_of_mem _ hs, he⟩)) hmore
    exact congrArg (_ :: ·) hrest

/-- The calls in emitted C are those in the rows, if all that is to be printed can be. -/
theorem generate_calls {body : List Surface.Statement} (h : Surface.Statement.WordsAll body)
    (hprintable : ∀ e ∈ (resolve body).program.values, Printable (resolve body).table e) :
    let resolved := resolve body
    C.callsIn (generate resolved.program resolved.table).text = C.use [] "main".toList ::
      Context.called ⟨resolved.table, assignNames (resolved.table.map (·.name))⟩
        resolved.program.calls := by
  obtain ⟨n, hscopes, -⟩ := resolve_scopes body
  intro resolved
  rw [generate_eq, programLines, program_calls (programRows_legible h), programRows_resolve]
  exact rows_calls hscopes hprintable

/-- Without reports everything is printable. -/
theorem printable_of_clean {program : ImpC.Block} {table : List Variable}
    (h : (generate program table).errors = []) : ∀ e ∈ program.values, Printable table e := by
  have hprints := (program_accounts program table).prints
  rw [h, List.filter_nil, eq_comm, List.filterMap_eq_nil_iff] at hprints
  intro e he a ha
  obtain ⟨s, hs, hvalue⟩ := List.mem_filterMap.mp he
  refine hprints a (List.mem_filterMap.mpr ⟨.argument a, List.mem_flatMap.mpr ⟨s, hs, ?_⟩, rfl⟩)
  have hsite : Site.argument a ∈ e.sites := List.mem_map_of_mem ha
  exact List.mem_append_left _ (List.mem_flatMap.mpr ⟨e, Option.mem_toList.mpr hvalue, hsite⟩)

/-- Without reports all types of variables that belong to a block have a counterpart. -/
theorem declared_of_clean {program : ImpC.Block} {table : List Variable}
    (h : (generate program table).errors = []) :
    ∀ v ∈ table, v.scope ∈ program.scopes → ∃ type, CType.ofTy? v.type = some type := by
  have haccounts := program_accounts program table
  have htypes := haccounts.types
  rw [h, List.filter_nil, eq_comm, List.filterMap_eq_nil_iff] at htypes
  intro v hv hscope
  obtain ⟨i, hi⟩ := List.mem_iff_getElem?.mp hv
  have hreport := htypes i ((haccounts.once.2 i).mpr ⟨v, hi, hscope⟩)
  rw [typeReport?, hi, Option.bind_some, unsupported?] at hreport
  cases htype : v.type with
  | int | float | bool | string => exact ⟨_, rfl⟩
  | named | unknown => simp [htype] at hreport

/-- No block around a call declares its function exactly if none of their variables has its name. -/
theorem call_found {k : Context} (hk : k.Proper)
    (htypes : ∀ v ∈ k.table, ∃ type, CType.ofTy? v.type = some type) (c : Call) :
    (k.call c).found = none ↔ ∀ (i : Nat) v, k.table[i]? = some v → v.scope ∈ c.path →
      k.names[i]? ≠ some c.callee := by
  have hcall : (k.call c).found = find? (c.path.map k.frame) c.callee := rfl
  rw [hcall]
  constructor
  · intro hnone i v hv hscope hname
    obtain ⟨type, htype⟩ := htypes v (List.mem_of_getElem? hv)
    rw [find?_frames hk hv hname hscope, htype] at hnone
    cases hnone
  · intro h
    rw [find?, List.findSome?_map, List.findSome?_eq_none_iff]
    intro scope hscope
    rw [Function.comp_apply, Option.map_eq_none_iff, List.find?_eq_none]
    intro d hd hname
    obtain ⟨i, v, hv, hn, rfl, -⟩ := mem_declarators.mp hd
    rw [of_decide_eq_true hname] at hn
    exact h i v hv hscope hn

/-- How a call is read in C: under the name of its function, inside the blocks of the scopes around
it. The function is one from outside exactly if no variable of these blocks has its name in C. -/
structure Reaches (k : Context) (c : Call) (u : Use) : Prop where
  name : u.name = c.callee
  path : u.path = c.path
  outside : u.found = none ↔ ∀ (i : Nat) v, k.table[i]? = some v → v.scope ∈ c.path →
    k.names[i]? ≠ some c.callee

/-- A function of the library is hidden by a variable of its name only. -/
theorem call_reaches {k : Context} (hk : k.Proper)
    (htypes : ∀ v ∈ k.table, ∃ type, CType.ofTy? v.type = some type) (c : Call) :
    Reaches k c (k.call c) where
  name := rfl
  path := by simp [Context.call, C.use, Context.frame, Function.comp_def]
  outside := call_found hk htypes c

end Target

/-- What a compilation without diagnostics gives. -/
theorem compile_clean {name text : Text} {strict : Bool}
    (h : (compile name text strict).diagnostics = []) :
    ∃ tree, (parse (Lexer.start ⟨name, text⟩).tokenize.tokens).tree = some tree ∧
      let resolved := resolve (Surface.ofTree tree)
      let generated := Target.generate resolved.program resolved.table
      (compile name text strict).program = some resolved.program ∧
        (compile name text strict).table = resolved.table ∧
        (compile name text strict).c = some generated.text ∧ generated.errors = [] := by
  cases htree : (parse (Lexer.start ⟨name, text⟩).tokenize.tokens).tree with
  | none =>
    obtain ⟨-, -, -, -, hdiagnostics⟩ := @compile_of_none ⟨name, text⟩ strict htree
    rw [h, eq_comm, List.append_eq_nil_iff, List.map_eq_nil_iff, List.map_eq_nil_iff]
      at hdiagnostics
    obtain ⟨tree, hsome⟩ := Grammar.exists_tree hdiagnostics.2
    cases htree.symm.trans hsome
  | some tree =>
    obtain ⟨-, hprogram, htable, hc, hdiagnostics⟩ :=
      @compile_of_tree ⟨name, text⟩ strict tree htree
    have hemission := (List.append_eq_nil_iff.mp (hdiagnostics.symm.trans h)).2
    refine ⟨tree, rfl, hprogram, htable, ?_, List.map_eq_nil_iff.mp hemission⟩
    rw [hc, h, List.length_nil, if_neg (by simp)]

namespace Target

open ImpC.C

/-- In a compilation without diagnostics every call whose function C does not reserve is emitted as
a call of this function, in order and in its place, and `print` as one of `printf`. The call reaches
a function from outside exactly if no variable of the blocks around it has its name in C. -/
theorem calls_reach_functions {name text : Text} {strict : Bool}
    (h : (compile name text strict).diagnostics = []) :
    ∃ program c, (compile name text strict).program = some program ∧
      (compile name text strict).c = some c ∧
      let table := (compile name text strict).table
      let k : Context := ⟨table, assignNames (table.map (·.name))⟩
      ∃ uses, C.callsIn c = ⟨"main".toList, [], none⟩ :: uses ∧
        List.Forall₂ (Reaches k) (program.calls.filter (isFunction ·.callee)) uses := by
  obtain ⟨tree, htree, hprogram, htable, hc, hclean⟩ := compile_clean h
  have hbody := Surface.words_ofTree htree
  obtain ⟨-, hwords⟩ := resolve_scoped hbody
  obtain ⟨m, hscopes, hbelong⟩ := resolve_scopes (Surface.ofTree tree)
  have htypes : ∀ v ∈ (resolve (Surface.ofTree tree)).table,
      ∃ type, CType.ofTy? v.type = some type := by
    intro v hv
    refine declared_of_clean hclean v hv ?_
    rw [hscopes, List.mem_range]
    exact hbelong v hv
  refine ⟨_, _, hprogram, hc, _, generate_calls hbody (printable_of_clean hclean), ?_⟩
  rw [htable, Context.called, List.forall₂_map_right_iff, List.forall₂_same]
  exact fun c _ => call_reaches (assignNames_proper hwords) htypes c

/-- Two variables of one name, and calls of functions that have other names, one with a suffix. -/
def outsideCallsText : Text :=
  "var x = 1; f(x, g(2)); \x7b var x = 2; print(x); x_7(x); \x7d".toList

theorem calls_reach_functions_external :
    (compile [] outsideCallsText false).diagnostics = [] ∧
      ∃ program c, (compile [] outsideCallsText false).program = some program ∧
        (compile [] outsideCallsText false).c = some c ∧
        program.calls = [⟨['f'], [0]⟩, ⟨['g'], [0]⟩, ⟨"print".toList, [1, 0]⟩,
          ⟨"x_7".toList, [1, 0]⟩] ∧
        ∃ uses, C.callsIn c = ⟨"main".toList, [], none⟩ :: uses ∧
          List.Forall₂ (fun call u => u = ⟨call.callee, call.path, none⟩) program.calls
            uses := by
  have htokens : (Lexer.start ⟨[], outsideCallsText⟩).tokens =
      ((Lexer.start ⟨[], outsideCallsText⟩).advance 60).1 :=
    Lexer.tokens_eq_advance (by decide)
  have hrun : (compile [] outsideCallsText false).diagnostics = [] ∧
      (compile [] outsideCallsText false).program.map Block.calls =
        some [⟨['f'], [0]⟩, ⟨['g'], [0]⟩, ⟨"print".toList, [1, 0]⟩, ⟨"x_7".toList, [1, 0]⟩] ∧
      assignNames ((compile [] outsideCallsText false).table.map (·.name)) =
        [['x'], "x_1".toList] := by
    rw [compile, Lexer.tokenize, htokens]
    decide +kernel
  obtain ⟨hclean, hread, hnames⟩ := hrun
  obtain ⟨program, c, hprogram, hc, uses, huses, hreaches⟩ := calls_reach_functions hclean
  rw [hprogram, Option.map_some, Option.some.injEq] at hread
  have hother : ∀ call ∈ program.calls, call.callee ∉ [['x'], "x_1".toList] := by
    rw [hread]
    decide
  have hall : program.calls.filter (isFunction ·.callee) = program.calls := by
    rw [hread]
    decide
  rw [hall] at hreaches
  refine ⟨hclean, program, c, hprogram, hc, hread, uses, huses, ?_⟩
  refine ((List.forall₂_and_left _ _).mpr ⟨hother, hreaches⟩).imp fun call u h => ?_
  have hfound := h.2.outside.mpr fun i _ _ _ hname => by
    rw [hnames] at hname
    exact h.1 (List.mem_of_getElem? hname)
  rw [← h.2.name, ← h.2.path, ← hfound]

/-- The first call meets the variable that it is called like, the second a word that C reserves, and
the third the name that a suffix makes of the inner variable. -/
def capturedCallsText : Text := "var f = 1; f(f); return(f); \x7b var f = 2; f_1(f); \x7d".toList

theorem calls_captured :
    (compile [] capturedCallsText false).diagnostics = [] ∧
      ∃ program, (compile [] capturedCallsText false).program = some program ∧
        program.calls.length = 3 ∧
        let table := (compile [] capturedCallsText false).table
        ∀ c ∈ program.calls, c.function ≠ "print".toList ∧
          ¬ (isFunction c.function = true ∧ ∀ (i : Nat) v, table[i]? = some v → v.scope ∈ c.path →
            (assignNames (table.map (·.name)))[i]? ≠ some c.function) := by
  have htokens : (Lexer.start ⟨[], capturedCallsText⟩).tokens =
      ((Lexer.start ⟨[], capturedCallsText⟩).advance 60).1 :=
    Lexer.tokens_eq_advance (by decide)
  have hrun : (compile [] capturedCallsText false).diagnostics = [] ∧
      (compile [] capturedCallsText false).program.map Block.calls =
        some [⟨"f".toList, [0]⟩, ⟨"return".toList, [0]⟩, ⟨"f_1".toList, [1, 0]⟩] ∧
      (compile [] capturedCallsText false).table.map (fun v => (v.name, v.scope)) =
        [(['f'], 0), (['f'], 1)] := by
    rw [compile, Lexer.tokenize, htokens]
    decide +kernel
  obtain ⟨hclean, hread, htable⟩ := hrun
  have hnames : assignNames ((compile [] capturedCallsText false).table.map (·.name)) =
      ["f".toList, "f_1".toList] := by
    have hsources := congrArg (List.map Prod.fst) htable
    rw [List.map_map] at hsources
    exact (congrArg assignNames hsources).trans (by decide)
  obtain ⟨program, hprogram, hcalls⟩ := Option.map_eq_some_iff.mp hread
  obtain ⟨v, _, heq, hv, hmore⟩ := List.map_eq_cons_iff.mp htable
  obtain ⟨w, _, rfl, hw, hnil⟩ := List.map_eq_cons_iff.mp hmore
  refine ⟨hclean, program, hprogram, by rw [hcalls]; rfl, ?_⟩
  dsimp only
  rw [hcalls, hnames, heq, List.forall_mem_cons, List.forall_mem_cons, List.forall_mem_singleton]
  refine ⟨⟨by decide, fun h => h.2 0 v rfl ?_ rfl⟩, ⟨by decide, fun h => absurd h.1 (by decide)⟩,
    by decide, fun h => h.2 1 w rfl ?_ rfl⟩
  · simp [(Prod.mk.inj hv).2]
  · simp [(Prod.mk.inj hw).2]

end Target

end ImpC
