import Mathlib.Data.List.Basic
import ImpC.Proofs.Text.Sink
import ImpC.Proofs.Program.Steps
import ImpC.Target.Emit

/-!
# Emission line by line

Every step of a program is emitted as lines that depend on the step alone, on the number of blocks
around it and on the scopes that have been opened. What is said of emitted programs is said of these
lines: a text and an output that may fail take them piece by piece in the same order.
-/
namespace ImpC.Target

/-- A line inside `depth` blocks, by the texts that are written on it one after the other. -/
structure Line where
  depth : Nat
  parts : List Text

namespace Line

def text (l : Line) : Text := l.parts.flatten

/-- What is written for a line. -/
def pieces (l : Line) : List Text := Text.blanks (4 * l.depth) :: l.parts ++ [['\n']]

end Line

/-- What a step is emitted as. -/
inductive Row where
  | enter (opening : Opening Expr) (declarators : List Declarator)
  | assignment (target : Text) (value : Expr)
  | evaluation (value : Expr)
  | leave

/-- The lines before the body of the program. -/
def prologue : List Line :=
  [⟨0, ["#include <stdbool.h>".toList]⟩, ⟨0, ["#include <stdio.h>".toList]⟩, ⟨0, []⟩,
    ⟨0, ["int main(void) \x7b".toList]⟩]

/-- The lines after the body of the program. -/
def epilogue : List Line := [⟨1, ["return 0;".toList]⟩, ⟨0, [['\x7d']]⟩]

/-- The lines up to the brace that opens a block. -/
def openingLines (depth : Nat) : Opening Expr → List Line
  | .main => prologue
  | .plain => [⟨depth, [['\x7b']]⟩]
  | .conditional condition => [⟨depth, ["if (".toList, condition.render, ") \x7b".toList]⟩]
  | .loop condition => [⟨depth, ["while (".toList, condition.render, ") \x7b".toList]⟩]
  | .otherwise => [⟨depth, ["\x7d else \x7b".toList]⟩]
  | .alternative condition => [⟨depth, ["\x7d else if (".toList, condition.render, ") \x7b".toList]⟩]

def declaratorLines (depth : Nat) (declarators : List Declarator) : List Line :=
  declarators.map fun d => ⟨depth, [d.render, [';']]⟩

namespace Row

/-- The number of blocks around the lines of a row, where `depth` are around the place before it. -/
def around (depth : Nat) : Row → Nat
  | .enter opening _ => if opening.closes then depth - 1 else depth
  | .assignment _ _ | .evaluation _ => depth
  | .leave => depth - 1

/-- The number of blocks around the place after a row. -/
def after (depth : Nat) (r : Row) : Nat :=
  match r with
  | .enter _ _ => r.around depth + 1
  | .assignment _ _ | .evaluation _ | .leave => r.around depth

/-- The lines of a row inside `depth` blocks. -/
def lines (depth : Nat) : Row → List Line
  | .enter opening declarators =>
    openingLines depth opening ++ declaratorLines (depth + 1) declarators
  | .assignment target value => [⟨depth, [target, " = ".toList, value.render, [';']]⟩]
  | .evaluation value => [⟨depth, [value.render, [';']]⟩]
  | .leave => [⟨depth, [['\x7d']]⟩]

def value? : Row → Option Expr
  | .enter opening _ => opening.condition?
  | .assignment _ value | .evaluation value => some value
  | .leave => none

def linesAll : Nat → List Row → List Line
  | _, [] => []
  | depth, r :: rows => r.lines (r.around depth) ++ linesAll (r.after depth) rows

end Row

namespace Context

/-- The variables of a scope with their names, in the order of the table. -/
def own (k : Context) (scope : Nat) : List (Variable × Text) :=
  (k.table.zip k.names).filter (·.1.scope = scope)

def declarators (k : Context) (scope : Nat) : List Declarator :=
  (k.own scope).filterMap fun (v, name) => (declarator v name).1

/-- What is reported of the variables of a scope. -/
def undeclared (k : Context) (scope : Nat) : Errors :=
  (k.own scope).flatMap fun (v, name) => (declarator v name).2

/-- The row of a step, where the variables of the scopes `opened` are declared already. -/
def row? (k : Context) (opened : List Nat) : Step → Option Row
  | .enter opening scope =>
    some (.enter (opening.map fun e => (lower k e).1)
      (if scope ∈ opened then [] else k.declarators scope))
  | .declaration _ none => none
  | .declaration _ (some a) | .assignment a =>
    some (.assignment (k.nameOf a.target.value) (lower k a.value).1)
  | .call location function arguments =>
    some (.evaluation (lower k (.call location function arguments)).1)
  | .leave => some .leave

/-- What is reported of a step: arguments to print in what it evaluates, and variables. -/
def reports (k : Context) (opened : List Nat) (s : Step) : Errors :=
  s.value?.toList.flatMap (fun e => (lower k e).2) ++
    s.scope?.toList.flatMap fun scope => if scope ∈ opened then [] else k.undeclared scope

end Context

/-- The scopes that are opened after a step. -/
def openedAfter (opened : List Nat) (s : Step) : List Nat :=
  match s.scope? with
  | some scope => opened.insert scope
  | none => opened

namespace Context

def rows (k : Context) : List Nat → List Step → List Row
  | _, [] => []
  | opened, s :: steps => (k.row? opened s).toList ++ k.rows (openedAfter opened s) steps

def reportsAll (k : Context) : List Nat → List Step → Errors
  | _, [] => []
  | opened, s :: steps => k.reports opened s ++ k.reportsAll (openedAfter opened s) steps

end Context

theorem row_value? (k : Context) (opened : List Nat) (s : Step) :
    (k.row? opened s).bind Row.value? = s.value?.map fun e => (lower k e).1 := by
  cases s with
  | enter opening scope => exact Opening.condition?_map _ opening
  | declaration i initial => cases initial <;> rfl
  | assignment | call | leave => rfl

/-- The expressions that are emitted are those of the program. -/
theorem rows_values (k : Context) (opened : List Nat) (steps : List Step) :
    (k.rows opened steps).filterMap Row.value? =
      (steps.filterMap Step.value?).map fun e => (lower k e).1 := by
  induction steps generalizing opened with
  | nil => rfl
  | cons s steps ih =>
    have hvalue := row_value? k opened s
    rw [Context.rows, List.filterMap_append, ih]
    cases hrow : k.row? opened s <;> cases hs : s.value? <;> simp_all

/-- The first block of a scope has all its declarators. -/
theorem row?_of_new {k : Context} {opened : List Nat} {s : Step}
    (h : ∀ scope ∈ s.scope?, scope ∉ opened) : k.row? opened s = k.row? [] s := by
  cases s with
  | enter opening scope =>
    have hnew : scope ∉ opened := h scope rfl
    simp [Context.row?, hnew]
  | declaration i initial => cases initial <;> rfl
  | assignment | call | leave => rfl

/-- Where every scope has one block, this block declares its variables. -/
theorem rows_of_nodup {k : Context} {opened : List Nat} {steps : List Step}
    (hnodup : (steps.filterMap Step.scope?).Nodup)
    (hnew : ∀ scope ∈ steps.filterMap Step.scope?, scope ∉ opened) :
    k.rows opened steps = steps.filterMap (k.row? []) := by
  induction steps generalizing opened with
  | nil => rfl
  | cons s steps ih =>
    have hcons {α : Type} (f : Step → Option α) :
        (s :: steps).filterMap f = (f s).toList ++ steps.filterMap f := by
      cases hs : f s <;> simp [hs]
    rw [hcons, List.nodup_append] at hnodup
    rw [hcons, List.forall_mem_append] at hnew
    have hrow : k.row? opened s = k.row? [] s :=
      row?_of_new fun scope hscope => hnew.1 scope (Option.mem_toList.mpr hscope)
    have hmore : ∀ scope ∈ steps.filterMap Step.scope?, scope ∉ openedAfter opened s := by
      intro scope hscope
      unfold openedAfter
      split
      · rename_i first hfirst
        rw [List.mem_insert_iff, not_or]
        refine ⟨fun heq => ?_, hnew.2 scope hscope⟩
        exact hnodup.2.2 first (by simp [hfirst]) scope hscope heq.symm
      · exact hnew.2 scope hscope
    rw [Context.rows, hrow, ih hnodup.2.1 hmore, hcons]

section Emission

variable {σ : Type} [Output σ]

/-- Writes some lines and reports some errors, with the scopes `opened` afterwards. -/
def Emitter.advance (lines : List Line) (opened : List Nat) (errors : Errors) (m : Emitter σ) :
    Except σ (Emitter σ) :=
  (Output.writeAll m.output (lines.flatMap Line.pieces)).map fun output =>
    ⟨output, opened, m.errors ++ errors⟩

namespace Emitter

theorem advance_nil (m : Emitter σ) : m.advance [] m.opened [] = .ok m := by
  show Except.ok _ = _
  rw [List.append_nil]

/-- Lines that are written in two parts are written as one row of lines. -/
theorem advance_bind {m : Emitter σ} {f : Emitter σ → Except σ (Emitter σ)} {ls ms : List Line}
    {opened opened' : List Nat} {errors more : Errors}
    (h : ∀ m' : Emitter σ, m'.opened = opened → f m' = m'.advance ms opened' more) :
    m.advance ls opened errors >>= f = m.advance (ls ++ ms) opened' (errors ++ more) := by
  unfold advance
  rw [List.flatMap_append, Output.writeAll_append]
  cases hwrite : Output.writeAll m.output (ls.flatMap Line.pieces) with
  | error s => rfl
  | ok s =>
    show f ⟨s, opened, m.errors ++ errors⟩ = (Output.writeAll s (ms.flatMap Line.pieces)).map _
    rw [h _ rfl, advance, List.append_assoc]

theorem line_report (m : Emitter σ) (depth : Nat) (parts : List Text) (errors : Errors) :
    (m.report errors).line depth parts = m.advance [⟨depth, parts⟩] m.opened errors := by
  have hpieces : [(⟨depth, parts⟩ : Line)].flatMap Line.pieces =
      Text.blanks (4 * depth) :: parts ++ [['\n']] := List.flatMap_singleton _ _
  rw [line, advance, hpieces]
  rfl

theorem line_eq (m : Emitter σ) (depth : Nat) (parts : List Text) :
    m.line depth parts = m.advance [⟨depth, parts⟩] m.opened [] := by
  rw [← line_report, report, List.append_nil]

/-- A line and what is emitted behind it. -/
theorem line_bind {m : Emitter σ} {f : Emitter σ → Except σ (Emitter σ)} {depth : Nat}
    {parts : List Text} {ls : List Line} {opened : List Nat} {errors : Errors}
    (h : ∀ m' : Emitter σ, m'.opened = m.opened → f m' = m'.advance ls opened errors) :
    m.line depth parts >>= f = m.advance (⟨depth, parts⟩ :: ls) opened errors := by
  rw [line_eq]
  exact advance_bind h

end Emitter

/-- Each variable is declared on a line of its own or reported. -/
theorem emitDeclarators_eq (depth : Nat) (own : List (Variable × Text)) (m : Emitter σ) :
    emitDeclarators depth own m =
      m.advance (declaratorLines depth (own.filterMap fun (v, name) => (declarator v name).1))
        m.opened (own.flatMap fun (v, name) => (declarator v name).2) := by
  induction own generalizing m with
  | nil => exact m.advance_nil.symm
  | cons pair more ih =>
    obtain ⟨v, name⟩ := pair
    rw [emitDeclarators, declarator]
    cases htype : CType.ofTy? v.type with
    | some type =>
      dsimp only
      rw [Emitter.line_bind fun m' hm' => by rw [ih, hm']]
      simp [declarator, htype, declaratorLines]
    | none =>
      dsimp only
      rw [ih]
      simp [declarator, htype, Emitter.advance, Emitter.report]

variable (k : Context)

/-- Declarators are written the first time a scope is opened, and not again. -/
theorem emitScope_eq (depth scope : Nat) (m : Emitter σ) :
    emitScope k depth scope m =
      m.advance (declaratorLines depth (if scope ∈ m.opened then [] else k.declarators scope))
        (m.opened.insert scope) (if scope ∈ m.opened then [] else k.undeclared scope) := by
  rw [emitScope]
  by_cases h : scope ∈ m.opened
  · rw [if_pos h, if_pos h, if_pos h, List.insert_of_mem h]
    exact m.advance_nil.symm
  · rw [if_neg h, if_neg h, if_neg h, List.insert_of_not_mem h, emitDeclarators_eq]
    rfl

/-- The lines up to the brace that opens a block. -/
def emitOpening (depth : Nat) : Opening ImpC.Expr → Emitter σ → Except σ (Emitter σ)
  | .main, m => do
    let m ← m.line 0 ["#include <stdbool.h>".toList]
    let m ← m.line 0 ["#include <stdio.h>".toList]
    let m ← m.line 0 []
    m.line 0 ["int main(void) \x7b".toList]
  | .plain, m => m.line depth [['\x7b']]
  | .conditional condition, m => emitGuard k depth "if (".toList condition m
  | .loop condition, m => emitGuard k depth "while (".toList condition m
  | .otherwise, m => m.line depth ["\x7d else \x7b".toList]
  | .alternative condition, m => emitGuard k depth "\x7d else if (".toList condition m

/-- The emission of a step inside of the scopes `path`. -/
def emitStep (path : List Nat) : Step → Emitter σ → Except σ (Emitter σ)
  | .enter opening scope, m => do
    let m ← emitOpening k (opening.outer path).length opening m
    emitScope k ((opening.outer path).length + 1) scope m
  | .declaration _ none, m => .ok m
  | .declaration _ (some a), m | .assignment a, m => emitAssignment k path.length a m
  | .call location function arguments, m =>
    let (value, errors) := lower k (.call location function arguments)
    (m.report errors).line path.length [value.render, [';']]
  | .leave, m => m.line path.tail.length [['\x7d']]

def emitSteps : List Nat → List Step → Emitter σ → Except σ (Emitter σ)
  | _, [], m => .ok m
  | path, s :: steps, m => do
    let m ← emitStep k path s m
    emitSteps (s.after path) steps m

theorem emitSteps_append (path : List Nat) (steps more : List Step) (m : Emitter σ) :
    emitSteps k path (steps ++ more) m =
      emitSteps k path steps m >>= emitSteps k (Step.afterAll path steps) more := by
  induction steps generalizing path m with
  | nil => rfl
  | cons s steps ih =>
    rw [List.cons_append, emitSteps, emitSteps, bind_assoc]
    exact bind_congr fun m => ih (s.after path) m

theorem emitSteps_single (path : List Nat) (s : Step) (m : Emitter σ) :
    emitSteps k path [s] m = emitStep k path s m := by
  rw [emitSteps]
  exact bind_pure _

section Walk

variable {k : Context}

mutual

/-- The emission of a program goes through its steps. -/
theorem emitStatement_steps (path : List Nat) : ∀ (s : Statement) (m : Emitter σ),
    emitSteps k path s.steps m = emitStatement k path.length s m
  | .declaration _ none, m | .declaration _ (some _), m | .assignment _, m | .call _ _ _, m =>
    emitSteps_single k path _ m
  | .conditional condition body rest, m => by
    rw [Statement.steps, emitSteps_append, emitBlock_steps, Block.after_steps, bind_assoc]
    exact bind_congr fun m => bind_congr fun m => emitOtherwise_steps _ rest m
  | .loop condition body, m => by
    rw [Statement.steps, emitSteps_append, emitBlock_steps, Block.after_steps, bind_assoc]
    exact bind_congr fun m => bind_congr fun m => emitSteps_single k _ _ m
  | .block body, m => by
    rw [Statement.steps, emitSteps_append, emitBlock_steps, Block.after_steps, bind_assoc]
    exact bind_congr fun m => bind_congr fun m => emitSteps_single k _ _ m

theorem emitOtherwise_steps (path : List Nat) : ∀ (o : Otherwise) (m : Emitter σ),
    emitSteps k path o.steps m = emitOtherwise k path.tail.length o m
  | .nothing, m => emitSteps_single k path _ m
  | .block body, m => by
    rw [Otherwise.steps, emitSteps_append, emitBlock_steps, Block.after_steps, bind_assoc]
    exact bind_congr fun m => bind_congr fun m => emitSteps_single k _ _ m
  | .conditional condition body rest, m => by
    rw [Otherwise.steps, emitSteps_append, emitBlock_steps, Block.after_steps, bind_assoc]
    exact bind_congr fun m => bind_congr fun m => emitOtherwise_steps _ rest m

/-- The block is one deeper than the line that opens it. -/
theorem emitBlock_steps (path : List Nat) (opening : Opening ImpC.Expr) :
    ∀ (b : Block) (m : Emitter σ), emitSteps k path (b.steps opening) m =
      emitOpening k (opening.outer path).length opening m >>=
        emitBlock k ((opening.outer path).length + 1) b
  | .mk scope statements, m => by
    rw [Block.steps, emitSteps, emitStep, bind_assoc]
    exact bind_congr fun m => bind_congr fun m => emitStatements_steps _ statements m

theorem emitStatements_steps (path : List Nat) : ∀ (ss : List Statement) (m : Emitter σ),
    emitSteps k path (Statement.stepsAll ss) m = emitStatements k path.length ss m
  | [], _ => rfl
  | s :: ss, m => by
    rw [Statement.stepsAll, emitSteps_append, emitStatement_steps, Statement.after_steps]
    exact bind_congr fun m => emitStatements_steps path ss m

end

end Walk

theorem emitGuard_eq (depth : Nat) (opening : Text) (condition : ImpC.Expr) (m : Emitter σ) :
    emitGuard k depth opening condition m =
      m.advance [⟨depth, [opening, (lower k condition).1.render, ") \x7b".toList]⟩] m.opened
        (lower k condition).2 :=
  m.line_report _ _ _

theorem emitOpening_eq (depth : Nat) (opening : Opening ImpC.Expr) (m : Emitter σ) :
    emitOpening k depth opening m =
      m.advance (openingLines depth (opening.map fun e => (lower k e).1)) m.opened
        (opening.condition?.toList.flatMap fun e => (lower k e).2) := by
  have hguard (text : Text) (condition : ImpC.Expr) : emitGuard k depth text condition m =
      m.advance [⟨depth, [text, (lower k condition).1.render, ") \x7b".toList]⟩] m.opened
        ((some condition).toList.flatMap fun e => (lower k e).2) := by
    rw [emitGuard_eq]
    simp
  cases opening with
  | main =>
    refine Emitter.line_bind fun m₁ h₁ => Emitter.line_bind fun m₂ h₂ =>
      Emitter.line_bind fun m₃ h₃ => ?_
    rw [← h₁, ← h₂, ← h₃]
    exact m₃.line_eq 0 _
  | plain | otherwise => exact m.line_eq depth _
  | conditional condition => exact hguard _ condition
  | loop condition => exact hguard _ condition
  | alternative condition => exact hguard _ condition

theorem length_outer (opening : Opening ImpC.Expr) (path : List Nat) :
    (opening.outer path).length = if opening.closes then path.length - 1 else path.length := by
  rw [Opening.outer]
  split
  · exact List.length_tail
  · rfl

/-- What the emission of a step does. -/
theorem emitStep_eq (path : List Nat) (s : Step) (m : Emitter σ) :
    emitStep k path s m =
      m.advance ((k.row? m.opened s).toList.flatMap fun r => r.lines (r.around path.length))
        (openedAfter m.opened s) (k.reports m.opened s) := by
  have hline (depth : Nat) (parts : List Text) (e : ImpC.Expr) :
      (m.report (lower k e).2).line depth parts =
        m.advance ([⟨depth, parts⟩] ++ []) m.opened ([e].flatMap (fun e => (lower k e).2) ++ []) := by
    rw [Emitter.line_report, List.append_nil, List.append_nil, List.flatMap_singleton]
  cases s with
  | enter opening scope =>
    rw [emitStep, emitOpening_eq, Emitter.advance_bind fun m' h' => by rw [emitScope_eq, h']]
    simp [Context.row?, Row.lines, Row.around, Context.reports, openedAfter, Step.scope?, Step.value?,
      length_outer]
  | declaration i initial =>
    cases initial with
    | none => exact m.advance_nil.symm
    | some a => exact hline _ [k.nameOf a.target.value, " = ".toList, _, [';']] a.value
  | assignment a => exact hline _ [k.nameOf a.target.value, " = ".toList, _, [';']] a.value
  | call location function arguments => exact hline _ [_, [';']] (.call location function arguments)
  | leave =>
    rw [emitStep, Emitter.line_eq]
    simp [Context.row?, Row.lines, Row.around, Context.reports, openedAfter, Step.scope?,
      Step.value?]

/-- Rows are as deep as the scopes that are open. -/
theorem row_after (opened path : List Nat) (s : Step) :
    (k.row? opened s).elim path.length (·.after path.length) = (s.after path).length := by
  cases s with
  | enter opening scope => simp [Context.row?, Row.after, Row.around, Step.after, length_outer]
  | declaration i initial => cases initial <;> rfl
  | assignment | call => rfl
  | leave => simp [Context.row?, Row.after, Row.around, Step.after]

/-- What the emission of some steps does. -/
theorem emitSteps_eq (path : List Nat) (steps : List Step) (m : Emitter σ) :
    emitSteps k path steps m =
      m.advance (Row.linesAll path.length (k.rows m.opened steps))
        (steps.foldl openedAfter m.opened) (k.reportsAll m.opened steps) := by
  induction steps generalizing path m with
  | nil => exact m.advance_nil.symm
  | cons s steps ih =>
    rw [emitSteps, emitStep_eq, Emitter.advance_bind fun m' h' => by rw [ih, h'],
      ← row_after k m.opened path s]
    cases hrow : k.row? m.opened s <;>
      simp [Context.rows, Context.reportsAll, Row.linesAll, hrow]

end Emission

section Program

def programRows (program : Block) (table : List Variable) : List Row :=
  Context.rows ⟨table, assignNames (table.map (·.name))⟩ [] (program.steps .main)

def programLines (program : Block) (table : List Variable) : List Line :=
  Row.linesAll 0 (programRows program table) ++ epilogue

def programReports (program : Block) (table : List Variable) : Errors :=
  Context.reportsAll ⟨table, assignNames (table.map (·.name))⟩ [] (program.steps .main)

/-- Emission writes the lines of the program to any output, as long as the output takes them. -/
theorem emitTo_eq {σ : Type} [Output σ] (program : Block) (table : List Variable) (s : σ) :
    emitTo program table s =
      (Output.writeAll s ((programLines program table).flatMap Line.pieces)).map
        (·, programReports program table) := by
  let k : Context := ⟨table, assignNames (table.map (·.name))⟩
  let opened := (program.steps .main).foldl openedAfter []
  have hprogram (m : Emitter σ) : emitProgram k program m =
      emitSteps k [] (program.steps .main) m >>= fun m =>
        m.line 1 ["return 0;".toList] >>= fun m => m.line 0 [['\x7d']] := by
    rw [emitBlock_steps, emitProgram, emitOpening]
    simp only [bind_assoc]
    rfl
  have hepilogue (m : Emitter σ) (h : m.opened = opened) :
      (m.line 1 ["return 0;".toList] >>= fun m => m.line 0 [['\x7d']]) =
        m.advance epilogue opened [] := by
    refine Emitter.line_bind fun m' h' => ?_
    rw [← h, ← h']
    exact m'.line_eq 0 _
  have hemission : emitProgram k program ⟨s, [], []⟩ =
      Emitter.advance (programLines program table) opened (programReports program table)
        ⟨s, [], []⟩ := by
    rw [hprogram, emitSteps_eq, Emitter.advance_bind hepilogue, List.append_nil]
    rfl
  rw [emitTo, hemission, Emitter.advance]
  cases Output.writeAll s ((programLines program table).flatMap Line.pieces) <;> rfl

/-- The text of an emitted program consists of its lines. -/
theorem generate_eq (program : Block) (table : List Variable) :
    generate program table =
      ⟨((programLines program table).flatMap Line.pieces).flatten, programReports program table⟩ := by
  rw [generate, emitTo_eq, Draft.writeAll_empty]
  exact congrArg (Generated.mk · _) (congrArg List.flatten (List.reverse_reverse _))

/-- Emitting into a sink writes the generated text, and reports what generating reports. -/
theorem emit_eq_write (program : Block) (table : List Variable) (s : Sink) :
    emit program table s =
      (s.write (generate program table).text.utf8).map (·, (generate program table).errors) := by
  rw [emit, emitTo_eq, Sink.writeAll_eq_write, generate_eq]

end Program

end ImpC.Target
