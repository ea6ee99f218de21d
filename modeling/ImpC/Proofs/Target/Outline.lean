import ImpC.Proofs.Target.Lines
import ImpC.Proofs.Target.Binding

/-!
# Emitted programs are read back

The lines of an emitted program are read as the statements of the program that was emitted, in order
and in their blocks. A declaration without a value has no line, and the variables of a scope are
declared at the head of its block.
-/
namespace ImpC

open ImpC.C ImpC.Target

namespace Target

/-- The function and the arguments of a call as they are written. -/
def Expr.called : Expr → Text × Text
  | .call function arguments => (function, commaSeparated (Expr.renderAll arguments))
  | .printf arguments =>
    ("printf".toList, commaSeparated (format arguments :: Argument.renderAll arguments))
  | _ => ([], [])

end Target

mutual

/-- What the statement is emitted as: nothing, if it is a declaration without a value. -/
def Statement.outline (k : Context) : Statement → List Clause
  | .declaration _ none => []
  | .declaration _ (some a) | .assignment a =>
    [.assignment (k.nameOf a.target.value) (lower k a.value).1.render]
  | .conditional condition body rest =>
    [.conditional (lower k condition).1.render (body.outline k) (rest.outline k)]
  | .loop condition body => [.loop (lower k condition).1.render (body.outline k)]
  | .call location function arguments =>
    let value := (lower k (.call location function arguments)).1
    [.call value.called.1 value.called.2]
  | .block body => [.block (body.outline k)]

def Otherwise.outline (k : Context) : Otherwise → Hanging
  | .nothing => .nothing
  | .block body => .block (body.outline k)
  | .conditional condition body rest =>
    .conditional (lower k condition).1.render (body.outline k) (rest.outline k)

/-- A block declares the variables of its scope and then has its statements. -/
def Block.outline (k : Context) : Block → Body
  | .mk scope statements => .mk (k.declarators scope) (Statement.outlineAll k statements)

def Statement.outlineAll (k : Context) : List Statement → List Clause
  | [] => []
  | s :: ss => s.outline k ++ Statement.outlineAll k ss

end

namespace Target

/-- The lines are written one after the other, each inside of its blocks, and are read as what leads
from `o` to `o'`. -/
structure Written (least d e : Nat) (ls : List Line) (o o' : Outlining) : Prop where
  unbroken : ∀ l ∈ ls, Unbroken l.text
  walk : Walk least d ls e
  read : o.lines? (ls.map Line.shown) = some o'

namespace Written

variable {least d e : Nat} {ls ms : List Line} {o o' : Outlining}

theorem nil : Written least d d [] o o := ⟨by simp, .nil d, rfl⟩

/-- What is written in two parts is outlined in two parts. -/
theorem append {m : Nat} {o'' : Outlining} (h : Written least d m ls o o')
    (h' : Written least m e ms o' o'') : Written least d e (ls ++ ms) o o'' := by
  refine ⟨List.forall_mem_append.mpr ⟨h.unbroken, h'.unbroken⟩, h.walk.append h'.walk, ?_⟩
  rw [List.map_append, Outlining.lines?_append, h.read, Option.bind_some, h'.read]

/-- One line, if it is read as the kind it was written as. -/
theorem line {n : Nat} {parts : List Text} {t : Text} {closing opening : Bool} {kind : LineKind}
    (htext : parts.flatten = t) (hbraced : Braced closing opening t) (hunbroken : Unbroken t)
    (hkind : lineKind? t = some kind) (hstep : o.step? kind = some o')
    (hleast : least ≤ n + opening.toNat) :
    Written least (n + closing.toNat) (n + opening.toNat) [⟨n, parts⟩] o o' := by
  subst htext
  have hline : Braced closing opening (Line.mk n parts).text := hbraced
  refine ⟨List.forall_mem_singleton.mpr hunbroken, .single hline hleast, ?_⟩
  rw [List.map_singleton, Outlining.lines?_cons, Outlining.line?, hline.dropWhile_shown, Line.text,
    hkind, Option.bind_some, hstep]
  rfl

end Written

section Lines

variable {least depth : Nat}

/-- A line that starts with a word, by the character that it ends with. -/
theorem braced_word {w : Text} (hw : isWord w = true) (rest : Text) (c : Char) :
    Braced false (c = '\x7b') (w ++ (rest ++ [c])) := by
  obtain ⟨b, u, rfl, -⟩ := isWord_head hw
  have hb : Pattern.inWord b = true := inWord_of_isWord hw b List.mem_cons_self
  have hother {d : Char} (hd : Pattern.inWord d = false) : b ≠ d := by
    rintro rfl
    simp [hb] at hd
  refine ⟨⟨b, rfl, hother (by decide), ?_⟩, ?_⟩
  · simp [hother (d := '\x7d') (by decide)]
  · rw [← List.append_assoc, List.getLast?_concat]
    simp

theorem written_assignment {target value : Text} (htarget : isWord target = true)
    (hvalue : Unbroken value) (hleast : least ≤ depth) (o : Outlining) :
    Written least depth depth [⟨depth, [target, " = ".toList, value, [';']]⟩] o
      (o.add [.assignment target value]) := by
  have hbraced := braced_word htarget (" = ".toList ++ value) ';'
  rw [← List.append_assoc, ← List.append_assoc] at hbraced
  have hunbroken : Unbroken (target ++ " = ".toList ++ value ++ [';']) := by
    simp [unbroken_word htarget, hvalue]
  exact .line (by simp) hbraced hunbroken (lineKind?_assignment htarget value) rfl hleast

theorem written_call {function arguments : Text} (hfunction : isWord function = true)
    (harguments : Unbroken arguments) (hleast : least ≤ depth) (o : Outlining) :
    Written least depth depth [⟨depth, [function ++ '(' :: arguments ++ [')'], [';']]⟩] o
      (o.add [.call function arguments]) := by
  have hbraced := braced_word hfunction ('(' :: arguments ++ [')']) ';'
  rw [← List.append_assoc, ← List.append_assoc] at hbraced
  have hunbroken : Unbroken (function ++ '(' :: arguments ++ [')'] ++ [';']) := by
    simp [unbroken_word hfunction, harguments]
  exact .line (by simp) hbraced hunbroken (lineKind?_call hfunction arguments) rfl hleast

theorem braced_declarator {d : Declarator} : Braced false false (d.render ++ [';']) := by
  have hword (type : CType) (rest : Text) (htype : isWord type.render = true) :
      Braced false false (type.render ++ rest ++ [';']) := by
    rw [List.append_assoc]
    exact braced_word htype rest ';'
  obtain ⟨type, name⟩ := d
  cases type with
  | int => exact hword .int (' ' :: name) (by decide)
  | double => exact hword .double (' ' :: name) (by decide)
  | bool => exact hword .bool (' ' :: name) (by decide)
  | text =>
    have hconst := braced_word (w := "const".toList) (by decide) (" char *".toList ++ name) ';'
    rwa [← List.append_assoc, ← List.append_assoc] at hconst

theorem unbroken_declarator {d : Declarator} (hd : isWord d.name = true) :
    Unbroken (d.render ++ [';']) := by
  have hname : Unbroken d.name := unbroken_word hd
  obtain ⟨type, name⟩ := d
  have hspaced (type : CType) (htype : Unbroken type.render) :
      Unbroken (type.render ++ ' ' :: name ++ [';']) := by
    rw [unbroken_append, unbroken_append, unbroken_cons]
    exact ⟨⟨htype, by decide, hname⟩, by decide⟩
  cases type with
  | int => exact hspaced .int (by decide)
  | double => exact hspaced .double (by decide)
  | bool => exact hspaced .bool (by decide)
  | text =>
    have htype : Unbroken CType.text.render := by decide
    exact unbroken_append.mpr ⟨unbroken_append.mpr ⟨htype, hname⟩, by decide⟩

/-- The declarations at the start of a block. -/
theorem written_declarators {ds : List Declarator} (hds : ∀ d ∈ ds, isWord d.name = true)
    (hleast : least ≤ depth) (before : List Declarator) (around : List (Setting × Body)) :
    Written least depth depth (declaratorLines depth ds) ⟨.mk before [], around⟩
      ⟨.mk (before ++ ds) [], around⟩ := by
  induction ds generalizing before with
  | nil =>
    rw [List.append_nil]
    exact .nil
  | cons d ds ih =>
    rw [List.forall_mem_cons] at hds
    have hfirst : Written least depth depth [⟨depth, [d.render, [';']]⟩] ⟨.mk before [], around⟩
        ⟨.mk (before ++ [d]) [], around⟩ :=
      .line (by simp) braced_declarator (unbroken_declarator hds.1) (lineKind?_declarator hds.1) rfl
        hleast
    have hall := hfirst.append (ih hds.2 (before ++ [d]))
    rw [List.append_assoc] at hall
    exact hall

/-- A line that enters a block behind a condition. -/
theorem written_guard {w condition : Text} {kind : LineKind} {o o' : Outlining}
    (hw : isWord w = true) (hcondition : Unbroken condition)
    (hkind : lineKind? (w ++ " (".toList ++ condition ++ ") \x7b".toList) = some kind)
    (hstep : o.step? kind = some o') (hleast : least ≤ depth + 1) :
    Written least depth (depth + 1)
      [⟨depth, [w ++ " (".toList, condition, ") \x7b".toList]⟩] o o' := by
  have hbraced := braced_word hw (" (".toList ++ condition ++ ") ".toList) '\x7b'
  have htext : w ++ (" (".toList ++ condition ++ ") ".toList ++ ['\x7b']) =
      w ++ " (".toList ++ condition ++ ") \x7b".toList := by simp
  have hunbroken : Unbroken (w ++ " (".toList ++ condition ++ ") \x7b".toList) := by
    simp [unbroken_word hw, hcondition]
  have hparts : [w ++ " (".toList, condition, ") \x7b".toList].flatten =
      w ++ " (".toList ++ condition ++ ") \x7b".toList := by simp
  exact .line hparts (htext ▸ hbraced) hunbroken hkind hstep hleast

theorem written_opening (hleast : least ≤ depth + 1) (o : Outlining) :
    Written least depth (depth + 1) [⟨depth, [['\x7b']]⟩] o (o.enter (.whole .block)) := by
  have hbraced : Braced false true ['\x7b'] := ⟨⟨'\x7b', rfl, by decide, by decide⟩, by decide⟩
  have hkind : lineKind? ['\x7b'] = some .opening := by decide
  exact .line (List.append_nil _) hbraced (by decide) hkind rfl hleast

/-- The line that closes a block, by what the block is part of. -/
theorem written_closing {o o' : Outlining} (hstep : o.step? .closing = some o')
    (hleast : least ≤ depth) : Written least (depth + 1) depth [⟨depth, [['\x7d']]⟩] o o' := by
  have hbraced : Braced true false ['\x7d'] := ⟨⟨'\x7d', rfl, by decide, by decide⟩, by decide⟩
  exact .line (List.append_nil _) hbraced (by decide) (by decide) hstep hleast

theorem written_otherwise {o o' : Outlining} (hstep : o.step? .otherwise = some o')
    (hleast : least ≤ depth + 1) :
    Written least (depth + 1) (depth + 1) [⟨depth, ["\x7d else \x7b".toList]⟩] o o' := by
  have hbraced : Braced true true "\x7d else \x7b".toList :=
    ⟨⟨'\x7d', rfl, by decide, by decide⟩, by decide⟩
  exact .line (List.append_nil _) hbraced (by decide) (by decide) hstep hleast

theorem written_alternative {condition : Text} {o o' : Outlining} (hcondition : Unbroken condition)
    (hstep : o.step? (.alternative condition) = some o') (hleast : least ≤ depth + 1) :
    Written least (depth + 1) (depth + 1)
      [⟨depth, ["\x7d else if (".toList, condition, ") \x7b".toList]⟩] o o' := by
  have hbraced : Braced true true ("\x7d else if (".toList ++ condition ++ ") \x7b".toList) := by
    refine ⟨⟨'\x7d', rfl, by decide, by decide⟩, ?_⟩
    rw [List.getLast?_append]
    simp
  have hunbroken : Unbroken ("\x7d else if (".toList ++ condition ++ ") \x7b".toList) := by
    simp [hcondition]
  exact .line (by simp) hbraced hunbroken (lineKind?_alternative condition) hstep hleast

/-- A call as it is written. -/
theorem Expr.render_called {e : Expr} (hcall : e.isCall = true) (h : e.Legible) :
    isWord e.called.1 = true ∧ Unbroken e.called.2 ∧
      e.render = e.called.1 ++ '(' :: e.called.2 ++ [')'] := by
  have hcommas : Unbroken ", ".toList := by decide
  cases e with
  | literal | name | unary | binary => cases hcall
  | call function arguments =>
    exact ⟨h.1, unbroken_intercalate hcommas (Expr.unbrokenAll arguments h.2), rfl⟩
  | printf arguments =>
    have hall := List.forall_mem_cons.mpr ⟨unbroken_format arguments, Argument.unbrokenAll arguments h⟩
    have hword : isWord "printf".toList = true := by decide
    exact ⟨hword, unbroken_intercalate hcommas hall, rfl⟩

end Lines

/-- The rows of some steps whose scopes are new. -/
def Context.rowsOf (k : Context) (steps : List Step) : List Row := steps.filterMap (k.row? [])

theorem rowsOf_append (k : Context) (steps more : List Step) :
    k.rowsOf (steps ++ more) = k.rowsOf steps ++ k.rowsOf more := List.filterMap_append

/-- Where the lines of some rows end. -/
theorem linesAll_rowsOf_append (k : Context) (path : List Nat) (steps : List Step) (more : List Row) :
    Row.linesAll path.length (k.rowsOf steps ++ more) =
      Row.linesAll path.length (k.rowsOf steps) ++
        Row.linesAll (Step.afterAll path steps).length more := by
  induction steps generalizing path with
  | nil => rfl
  | cons s steps ih =>
    have hafter := row_after k [] path s
    have hrest := ih (s.after path)
    cases hrow : k.row? [] s with
    | none =>
      rw [hrow] at hafter
      have hrows : k.rowsOf (s :: steps) = k.rowsOf steps := List.filterMap_cons_none hrow
      rw [← hafter] at hrest
      rw [hrows]
      exact hrest
    | some r =>
      rw [hrow] at hafter
      have hrows : k.rowsOf (s :: steps) = r :: k.rowsOf steps := List.filterMap_cons_some hrow
      rw [← hafter] at hrest
      rw [hrows, List.cons_append, Row.linesAll, Row.linesAll, List.append_assoc]
      exact congrArg (_ ++ ·) hrest

section Rows

variable {k : Context} {least : Nat}

/-- Steps one after the other. -/
theorem Written.steps {path : List Nat} {steps : List Step} {m e : Nat} {o o' o'' : Outlining}
    (h : Written least path.length m (Row.linesAll path.length (k.rowsOf steps)) o o')
    (more : List Step) (hm : (Step.afterAll path steps).length = m)
    (h' : Written least m e (Row.linesAll m (k.rowsOf more)) o' o'') :
    Written least path.length e (Row.linesAll path.length (k.rowsOf (steps ++ more))) o o'' := by
  rw [rowsOf_append, linesAll_rowsOf_append, hm]
  exact h.append h'

/-- The condition of a block that is legible. -/
theorem condition_legible {opening : Opening ImpC.Expr} {b : Block}
    (h : ∀ r ∈ k.rowsOf (b.steps opening), r.Legible) :
    ∀ e ∈ opening.condition?, (lower k e).1.Legible := by
  intro e he
  obtain ⟨scope, statements⟩ := b
  have hrow : (Row.enter (opening.map fun e => (lower k e).1) (k.declarators scope)).Legible :=
    h _ List.mem_cons_self
  refine hrow.1 _ ?_
  rw [Opening.condition?_map, he]
  rfl

mutual

/-- The lines of a statement are outlined as this statement. -/
theorem statement_written (path : List Nat) (hleast : least ≤ path.length) :
    ∀ s : Statement, (∀ r ∈ k.rowsOf s.steps, r.Legible) → ∀ o : Outlining,
      Written least path.length path.length (Row.linesAll path.length (k.rowsOf s.steps)) o
        (o.add (s.outline k))
  | .declaration _ none, _, o => by
    have hnone : o.add [] = o := by simp [Outlining.add]
    rw [Statement.outline, hnone]
    exact .nil
  | .declaration _ (some a), h, o | .assignment a, h, o => by
    obtain ⟨htarget, hvalue⟩ := List.forall_mem_singleton.mp h
    exact written_assignment htarget (Expr.unbroken _ hvalue) hleast o
  | .call location function arguments, h, o => by
    obtain ⟨hcall, hvalue⟩ := List.forall_mem_singleton.mp h
    obtain ⟨hfunction, harguments, hrender⟩ := Expr.render_called hcall hvalue
    have hwritten := written_call hfunction harguments hleast o
    rw [← hrender] at hwritten
    exact hwritten
  | .conditional condition body rest, h, o => by
    rw [Statement.steps, rowsOf_append, List.forall_mem_append] at h
    have hguard := written_guard (w := "if".toList) (o := o) (by decide)
      (Expr.unbroken _ (condition_legible h.1 condition rfl)) (lineKind?_guard (by decide) _) rfl
      (Nat.le_succ_of_le hleast)
    have hbody := block_written path (.conditional condition) (Nat.le_succ_of_le hleast) hguard body
      h.1
    have hrest := otherwise_written path hleast rest h.2 (.conditional (lower k condition).1.render)
      (body.outline k) o.current o.around
    exact hbody.steps rest.steps (congrArg List.length (Block.after_steps path _ body)) hrest
  | .loop condition body, h, o => by
    rw [Statement.steps, rowsOf_append, List.forall_mem_append] at h
    have hguard := written_guard (w := "while".toList) (o := o) (by decide)
      (Expr.unbroken _ (condition_legible h.1 condition rfl)) (lineKind?_guard (by decide) _) rfl
      (Nat.le_succ_of_le hleast)
    have hbody := block_written path (.loop condition) (Nat.le_succ_of_le hleast) hguard body h.1
    exact hbody.steps [.leave] (congrArg List.length (Block.after_steps path _ body))
      (written_closing rfl hleast)
  | .block body, h, o => by
    rw [Statement.steps, rowsOf_append, List.forall_mem_append] at h
    have hbody := block_written path .plain (Nat.le_succ_of_le hleast)
      (written_opening (Nat.le_succ_of_le hleast) o) body h.1
    exact hbody.steps [.leave] (congrArg List.length (Block.after_steps path _ body))
      (written_closing rfl hleast)

theorem otherwise_written (path : List Nat) (hleast : least ≤ path.length) :
    ∀ r : Otherwise, (∀ row ∈ k.rowsOf r.steps, row.Legible) →
      ∀ (finish : Body → Hanging → Clause) (body outer : Body) (around : List (Setting × Body)),
        Written least (path.length + 1) path.length
          (Row.linesAll (path.length + 1) (k.rowsOf r.steps))
          ⟨body, (.conditional finish, outer) :: around⟩
          ⟨outer.add [finish body (r.outline k)], around⟩
  | .nothing, _, finish, body, outer, around => written_closing rfl hleast
  | .block alternative, h, finish, body, outer, around => by
    rw [Otherwise.steps, rowsOf_append, List.forall_mem_append] at h
    have hopening := written_otherwise (o := ⟨body, (.conditional finish, outer) :: around⟩) rfl
      (Nat.le_succ_of_le hleast)
    have hbody := block_written (0 :: path) .otherwise (Nat.le_succ_of_le hleast) hopening alternative h.1
    exact hbody.steps [.leave]
      (congrArg List.length (Block.after_steps (0 :: path) _ alternative)) (written_closing rfl hleast)
  | .conditional condition alternative rest, h, finish, body, outer, around => by
    rw [Otherwise.steps, rowsOf_append, List.forall_mem_append] at h
    have hguard := written_alternative
      (Expr.unbroken _ (condition_legible h.1 condition rfl))
      (o := ⟨body, (.conditional finish, outer) :: around⟩) rfl (Nat.le_succ_of_le hleast)
    have hbody := block_written (0 :: path) (.alternative condition)
      (Nat.le_succ_of_le hleast) hguard alternative h.1
    have hrest := otherwise_written path hleast rest h.2
      (fun inner rest => finish body (.conditional (lower k condition).1.render inner rest))
      (alternative.outline k) outer around
    exact hbody.steps rest.steps
      (congrArg List.length (Block.after_steps (0 :: path) _ alternative)) hrest

/-- A block behind the line that opens it. -/
theorem block_written (path : List Nat) (opening : Opening ImpC.Expr) {o : Outlining}
    {around : List (Setting × Body)} (hleast : least ≤ (opening.outer path).length + 1)
    (hopening : Written least path.length ((opening.outer path).length + 1)
      (openingLines (opening.outer path).length (opening.map fun e => (lower k e).1)) o
      ⟨.empty, around⟩) :
    ∀ b : Block, (∀ r ∈ k.rowsOf (b.steps opening), r.Legible) →
      Written least path.length ((opening.outer path).length + 1)
        (Row.linesAll path.length (k.rowsOf (b.steps opening))) o ⟨b.outline k, around⟩
  | .mk scope statements, h => by
    let row := Row.enter (opening.map fun e => (lower k e).1) (k.declarators scope)
    have hrows : k.rowsOf ((Block.mk scope statements).steps opening) =
        row :: k.rowsOf (Statement.stepsAll statements) := rfl
    have haround : row.around path.length = (opening.outer path).length := by
      simp [row, Row.around, length_outer]
    rw [hrows, List.forall_mem_cons] at h
    have hdeclarators := written_declarators (fun d hd => (h.1.2 d hd).1) hleast [] around
    have hstatements := statements_written (scope :: opening.outer path) hleast statements
      h.2 ⟨.mk (k.declarators scope) [], around⟩
    rw [hrows, Row.linesAll, Row.after, haround, Row.lines, List.append_assoc]
    exact hopening.append (hdeclarators.append hstatements)

theorem statements_written (path : List Nat) (hleast : least ≤ path.length) :
    ∀ ss : List Statement, (∀ r ∈ k.rowsOf (Statement.stepsAll ss), r.Legible) → ∀ o : Outlining,
      Written least path.length path.length
        (Row.linesAll path.length (k.rowsOf (Statement.stepsAll ss))) o
        (o.add (Statement.outlineAll k ss))
  | [], _, o => by
    have hnone : o.add [] = o := by simp [Outlining.add]
    rw [Statement.outlineAll, hnone]
    exact .nil
  | s :: ss, h, o => by
    rw [Statement.stepsAll, rowsOf_append, List.forall_mem_append] at h
    have hmore := statements_written path hleast ss h.2 (o.add (s.outline k))
    have hadd : (o.add (s.outline k)).add (Statement.outlineAll k ss) =
        o.add (Statement.outlineAll k (s :: ss)) := by
      simp [Outlining.add, Body.add_add, Statement.outlineAll]
    rw [hadd] at hmore
    have hafter := congrArg List.length (Statement.after_steps path s)
    exact (statement_written path hleast s h.1 o).steps _ hafter hmore

end

end Rows

/-- The text of the lines that are written. -/
theorem lines_pieces {ls : List Line} (h : ∀ l ∈ ls, Unbroken l.text) :
    Text.lines (ls.flatMap Line.pieces).flatten = ls.map Line.shown := by
  have hline (l : Line) : l.pieces.flatten = l.shown ++ ['\n'] := by
    simp [Line.pieces, Line.shown, Line.text]
  have htext : (ls.flatMap Line.pieces).flatten = (ls.map Line.shown).flatMap (· ++ ['\n']) := by
    rw [flatten_pieces hline, List.flatMap_map]
  rw [htext]
  refine Text.lines_terminated fun t ht => ?_
  obtain ⟨l, hl, rfl⟩ := List.mem_map.mp ht
  have hblanks : Unbroken (Text.blanks (4 * l.depth)) := by
    intro c hc
    rw [List.eq_of_mem_replicate hc]
    decide
  have hshown : Unbroken l.shown := unbroken_append.mpr ⟨hblanks, h l hl⟩
  exact ⟨fun hmem => (hshown _ hmem).1 rfl, fun hlast => (hshown _ (List.mem_of_getLast? hlast)).2 rfl⟩

/-- The lines of a program are those before its body and some that are read as the body. -/
theorem main_written {k : Context} {b : Block} (h : ∀ r ∈ k.rowsOf (b.steps .main), r.Legible) :
    ∃ ls, Row.linesAll 0 (k.rowsOf (b.steps .main)) = prologue ++ ls ∧
      Written 1 1 1 ls ⟨.empty, []⟩ ⟨b.outline k, []⟩ := by
  obtain ⟨scope, statements⟩ := b
  have hrows : k.rowsOf ((Block.mk scope statements).steps .main) =
      .enter .main (k.declarators scope) :: k.rowsOf (Statement.stepsAll statements) := rfl
  rw [hrows, List.forall_mem_cons] at h
  have hdeclarators := written_declarators (fun d hd => (h.1.2 d hd).1) (Nat.le_refl 1) [] []
  have hstatements := statements_written [scope] (Nat.le_refl 1) statements h.2
    ⟨.mk (k.declarators scope) [], []⟩
  refine ⟨_, ?_, hdeclarators.append hstatements⟩
  rw [hrows, Row.linesAll, Row.lines, List.append_assoc]
  rfl

section Program

variable {body : Body} {ls : List Line}

theorem walk_main (h : Written 1 1 1 ls ⟨.empty, []⟩ ⟨body, []⟩) :
    Walk 1 1 (ls ++ epilogue.take 1) 1 := by
  have hreturn : Braced false false (Line.mk 1 ["return 0;".toList]).text :=
    ⟨⟨'r', rfl, by decide, by decide⟩, by decide⟩
  exact h.walk.append (.single hreturn (Nat.le_refl 1))

theorem unbroken_program (h : Written 1 1 1 ls ⟨.empty, []⟩ ⟨body, []⟩) :
    ∀ l ∈ prologue ++ (ls ++ epilogue), Unbroken l.text := by
  rw [List.forall_mem_append, List.forall_mem_append]
  exact ⟨by decide, h.unbroken, by decide⟩

theorem indented_prologue {lines : List Text} (h : Indented 1 lines) :
    Indented 0 (prologue.map Line.shown ++ lines) := by
  apply @indented_cons 0 0 _ _ (by decide) (fun _ => by decide)
  apply @indented_cons 0 0 _ _ (by decide) (fun _ => by decide)
  apply @indented_cons 0 0 _ _ (by decide) (fun _ => by decide)
  exact @indented_cons 0 0 _ _ (by decide) (fun _ => by decide) h

/-- Between the braces of `main` the lines are nested. -/
theorem nested_program (h : Written 1 1 1 ls ⟨.empty, []⟩ ⟨body, []⟩) :
    Nested prologue.length ((prologue ++ (ls ++ epilogue)).map Line.shown) := by
  have hclosing : Braced true false (Line.mk 0 [['\x7d']]).text :=
    ⟨⟨'\x7d', rfl, by decide, by decide⟩, by decide⟩
  let inner : List Line := ls ++ epilogue.take 1
  have hinner : ls ++ epilogue = inner ++ [⟨0, [['\x7d']]⟩] := by simp [inner, epilogue]
  have hmain : Walk 0 1 (inner ++ [⟨0, [['\x7d']]⟩]) 0 :=
    (walk_main h).zero.append (.single hclosing (Nat.zero_le _))
  have hhead : C.depth? 0 (prologue.map Line.shown) = some 1 := by decide
  rw [hinner, List.map_append]
  refine ⟨?_, fun n hn hlt => ?_, indented_prologue hmain.indented⟩
  · rw [depth?_append, hhead, Option.bind_some, hmain.depth?]
  · -- what is read of the lines inside is followed by the last line at least
    rw [List.length_append, List.length_map, List.length_map, List.length_append] at hlt
    have hin : n - prologue.length ≤ (inner.map Line.shown).length := by
      rw [List.length_map]
      simp only [List.length_singleton] at hlt
      omega
    obtain ⟨m, hm, hdepth⟩ := (walk_main h).depth?_take (Nat.le_refl 1) (n - prologue.length)
    have htake : (prologue.map Line.shown ++
        (inner ++ [(⟨0, [['\x7d']]⟩ : Line)]).map Line.shown).take n =
        prologue.map Line.shown ++ (inner.map Line.shown).take (n - prologue.length) := by
      rw [List.take_append, List.length_map, List.take_of_length_le (by simpa using hn),
        List.map_append, List.take_append_of_le_length hin]
    refine ⟨m - 1, ?_⟩
    rw [htake, depth?_append, hhead, Option.bind_some, hdepth, Nat.sub_add_cancel hm]

/-- The lines of a program are outlined as its statements. -/
theorem outline?_main (h : Written 1 1 1 ls ⟨.empty, []⟩ ⟨body, []⟩) :
    outline? ((ls ++ epilogue).map Line.shown) = some body := by
  have hlines : (ls ++ epilogue).map Line.shown =
      ls.map Line.shown ++ ["    return 0;".toList, ['\x7d']] := by
    rw [List.map_append]
    rfl
  have hlength : (ls.map Line.shown ++ ["    return 0;".toList, ['\x7d']]).length - 2 =
      (ls.map Line.shown).length := by simp
  rw [hlines, outline?, hlength, List.drop_left, List.take_left, if_pos rfl, h.read]

end Program

/-- The lines of an emitted program are those that were written, their blocks are nested as they are
indented, and they are read as the program that was emitted. -/
theorem emitted_lines_mirror {ts : List Token} {tree : Tree}
    (hts : ∀ t ∈ ts, ∃ source, t ∈ (Lexer.start source).tokenize.tokens)
    (h : (parse ts).tree = some tree) :
    let resolved := resolve (Surface.ofTree tree)
    let k : Context := ⟨resolved.table, assignNames (resolved.table.map (·.name))⟩
    let text := (generate resolved.program resolved.table).text
    let written := programLines resolved.program resolved.table
    text = (written.flatMap Line.pieces).flatten ∧ (∀ l ∈ written, Unbroken l.text) ∧
      text.lines = written.map Line.shown ∧ Nested prologue.length text.lines ∧
      ∃ lines, text.lines = prologue.map Line.shown ++ lines ∧
        outline? lines = some (resolved.program.outline k) := by
  have hwords : ∀ t ∈ ts, t.kind = .ident → isWord t.text = true := by
    intro t ht
    obtain ⟨source, hsource⟩ := hts t ht
    exact Lexer.tokenize_ident _ t hsource
  have hlegible := programRows_legible (Surface.words_of_parse hwords h)
  intro resolved k text written
  have hrows : programRows resolved.program resolved.table =
      k.rowsOf (resolved.program.steps .main) := programRows_resolve _
  rw [hrows] at hlegible
  obtain ⟨ls, hls, hbody⟩ := main_written hlegible
  have hwritten : written = prologue ++ (ls ++ epilogue) := by
    show Row.linesAll 0 (programRows resolved.program resolved.table) ++ epilogue = _
    rw [hrows, hls, List.append_assoc]
  have hunbroken : ∀ l ∈ written, Unbroken l.text := by
    rw [hwritten]
    exact unbroken_program hbody
  have htext : text = (written.flatMap Line.pieces).flatten :=
    congrArg Generated.text (generate_eq resolved.program resolved.table)
  have hlines : text.lines = written.map Line.shown := by
    rw [htext]
    exact lines_pieces hunbroken
  refine ⟨htext, hunbroken, hlines, ?_, (ls ++ epilogue).map Line.shown, ?_, outline?_main hbody⟩
  · rw [hlines, hwritten]
    exact nested_program hbody
  · rw [hlines, hwritten, List.map_append]

/-- Blocks of all sorts, a declaration without a value, and a call that looks like a return. -/
def branchingText : Text :=
  ("var x: int; if (x) \x7b var y = true; \x7d else if (true) \x7b \x7d " ++
    "else \x7b while (x) \x7b \x7b return(0); \x7d \x7d \x7d").toList

def branchingLines : List Text :=
  ["    int x;".toList, "    if (x) \x7b".toList, "        bool y;".toList,
    "        y = true;".toList, "    \x7d else if (true) \x7b".toList,
    "    \x7d else \x7b".toList, "        while (x) \x7b".toList,
    "            \x7b".toList, "                return(0);".toList,
    "            \x7d".toList, "        \x7d".toList, "    \x7d".toList,
    "    return 0;".toList, ['\x7d']]

theorem emitted_lines_mirror_branching :
    ∃ tree, (parse (Lexer.start ⟨[], branchingText⟩).tokenize.tokens).tree = some tree ∧
      let resolved := resolve (Surface.ofTree tree)
      let k : Context := ⟨resolved.table, assignNames (resolved.table.map (·.name))⟩
      (generate resolved.program resolved.table).text.lines =
          prologue.map Line.shown ++ branchingLines ∧
        Nested prologue.length (prologue.map Line.shown ++ branchingLines) ∧
        outline? branchingLines = some (resolved.program.outline k) := by
  have htokens : (Lexer.start ⟨[], branchingText⟩).tokens =
      ((Lexer.start ⟨[], branchingText⟩).advance 110).1 :=
    Lexer.tokens_eq_advance (by decide)
  have hrun : (parse (Lexer.start ⟨[], branchingText⟩).tokenize.tokens).tree.map (fun tree =>
      let resolved := resolve (Surface.ofTree tree)
      (generate resolved.program resolved.table).text.lines) =
        some (prologue.map Line.shown ++ branchingLines) := by
    rw [Lexer.tokenize, htokens]
    decide +kernel
  obtain ⟨tree, htree, htext⟩ := Option.map_eq_some_iff.mp hrun
  obtain ⟨-, -, -, hnested, lines, hlines, houtline⟩ :=
    emitted_lines_mirror (fun _ ht => ⟨_, ht⟩) htree
  rw [htext] at hnested
  refine ⟨tree, htree, htext, hnested, ?_⟩
  rw [List.append_cancel_left (hlines.symm.trans htext)] at houtline
  exact houtline

end Target

end ImpC
