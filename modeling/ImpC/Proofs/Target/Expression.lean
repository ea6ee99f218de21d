import ImpC.Proofs.C.Expression
import ImpC.Proofs.Target.Binding

/-!
# Emitted expressions are read as they are meant

What an expression of the program means in C is said on the expression itself: operations and calls
stay as they are, a reference is the name of its variable, a negative integer is a minus sign before a
constant, and a call that prints is one of `printf` with a conversion for every argument whose type
has one. The text that is emitted for the expression is read as this and nothing else.
-/
namespace ImpC

/-- A literal in C. The least integer is a difference, since no constant has its absolute value. -/
def Literal.inC : Literal → C.Expr
  | .int n =>
    if n.toInt = -2147483648 then
      .binary ['-'] (.unary ['-'] (.integer 2147483647)) (.integer 1)
    else if n.toInt < 0 then .unary ['-'] (.integer n.toInt.natAbs)
    else .integer n.toInt.natAbs
  | .float x => .constant (Target.floating x)
  | .bool true => .name "true".toList
  | .bool false => .name "false".toList
  | .str t => .string (Target.escape t)

/-- The operator of C for an operation on one operand. -/
def UnaryOp.inC : UnaryOp → Text
  | .negate => "-".toList
  | .not => "!".toList

/-- The operator of C for an operation on two operands. -/
def BinaryOp.inC : BinaryOp → Text
  | .add => "+".toList
  | .sub => "-".toList
  | .mul => "*".toList
  | .div => "/".toList
  | .mod => "%".toList
  | .equal => "==".toList
  | .notEqual => "!=".toList
  | .less => "<".toList
  | .lessOrEqual => "<=".toList
  | .greater => ">".toList
  | .greaterOrEqual => ">=".toList
  | .and => "&&".toList
  | .or => "||".toList

theorem UnaryOp.symbol_eq_inC (op : UnaryOp) : op.symbol = op.inC := by
  cases op <;> rfl

theorem BinaryOp.symbol_eq_inC (op : BinaryOp) : op.symbol = op.inC := by
  cases op <;> rfl

/-- The conversion that prints a value of a type. -/
def Ty.conversion? : Ty → Option Text
  | .int => some "%d".toList
  | .float => some "%g".toList
  | .bool | .string => some "%s".toList
  | .named _ | .unknown => none

/-- The format that prints some arguments on one line, as a string literal of C. -/
def Expr.printFormat (table : List Variable) (arguments : List Expr) : Text :=
  '"' :: List.intercalate [' '] (arguments.filterMap fun e => (e.type table).conversion?) ++
    "\\n\"".toList

mutual

def Expr.inC (k : Target.Context) : Expr → C.Expr
  | .literal _ value => value.inC
  | .reference _ target => .name (k.nameOf target)
  | .unary _ op operand => .unary op.inC (operand.inC k)
  | .binary _ op left right => .binary op.inC (left.inC k) (right.inC k)
  | .call _ function arguments =>
    if function = "print".toList then
      .call (.name "printf".toList)
        (.string (Expr.printFormat k.table arguments) :: Expr.printedInC k arguments)
    else .call (.name function) (Expr.allInC k arguments)

def Expr.allInC (k : Target.Context) : List Expr → List C.Expr
  | [] => []
  | e :: es => e.inC k :: Expr.allInC k es

/-- The arguments that are printed. A truth value is printed as a word. -/
def Expr.printedInC (k : Target.Context) : List Expr → List C.Expr
  | [] => []
  | e :: es =>
    match e.type k.table with
    | .int | .float | .string => e.inC k :: Expr.printedInC k es
    | .bool =>
      .conditional (e.inC k) (.string "\"true\"".toList) (.string "\"false\"".toList) ::
        Expr.printedInC k es
    | .named _ | .unknown => Expr.printedInC k es

end

mutual

/-- The expression and all expressions inside it. -/
def Expr.parts : Expr → List Expr
  | .literal location value => [.literal location value]
  | .reference location target => [.reference location target]
  | .unary location op operand => .unary location op operand :: operand.parts
  | .binary location op left right => .binary location op left right :: (left.parts ++ right.parts)
  | .call location function arguments =>
    .call location function arguments :: Expr.partsAll arguments

def Expr.partsAll : List Expr → List Expr
  | [] => []
  | e :: es => e.parts ++ Expr.partsAll es

end

/-- All expressions of a program, at any depth. -/
def Block.expressions (program : Block) : List Expr := program.values.flatMap Expr.parts

section Scoped

variable {table : List Variable}

/-- The expression stands inside the scopes of its variables. -/
def Expr.Placed (table : List Variable) (e : Expr) : Prop := ∃ path, e.Scoped table path

mutual

theorem Expr.parts_placed {path : List Nat} :
    ∀ e : Expr, e.Scoped table path → ∀ part ∈ e.parts, part.Placed table
  | .literal _ _, he => List.forall_mem_singleton.mpr ⟨path, he⟩
  | .reference _ _, he => List.forall_mem_singleton.mpr ⟨path, he⟩
  | .unary _ _ operand, he => List.forall_mem_cons.mpr ⟨⟨path, he⟩, Expr.parts_placed operand he⟩
  | .binary _ _ left right, he =>
    List.forall_mem_cons.mpr ⟨⟨path, he⟩, List.forall_mem_append.mpr
      ⟨Expr.parts_placed left he.1, Expr.parts_placed right he.2⟩⟩
  | .call _ _ arguments, he =>
    List.forall_mem_cons.mpr ⟨⟨path, he⟩, Expr.partsAll_placed arguments he.2⟩

theorem Expr.partsAll_placed {path : List Nat} : ∀ es : List Expr, Expr.ScopedAll table path es →
    ∀ part ∈ Expr.partsAll es, part.Placed table
  | [], _ => nofun
  | e :: es, he =>
    List.forall_mem_append.mpr ⟨Expr.parts_placed e he.1, Expr.partsAll_placed es he.2⟩

end

end Scoped

namespace Target

open ImpC.C

mutual

/-- The tree as which an emitted expression is read. -/
def Expr.tree : Expr → C.Expr
  | .literal value => value.inC
  | .name name => .name name
  | .unary op operand => .unary op.inC operand.tree
  | .binary op left right => .binary op.inC left.tree right.tree
  | .call function arguments => .call (.name function) (Expr.treeAll arguments)
  | .printf arguments =>
    .call (.name "printf".toList) (.string (format arguments) :: Argument.treeAll arguments)

def Expr.treeAll : List Expr → List C.Expr
  | [] => []
  | e :: es => e.tree :: Expr.treeAll es

def Argument.tree : Argument → C.Expr
  | .int value | .float value | .str value => value.tree
  | .bool value =>
    .conditional value.tree (.string "\"true\"".toList) (.string "\"false\"".toList)

def Argument.treeAll : List Argument → List C.Expr
  | [] => []
  | a :: as => a.tree :: Argument.treeAll as

end

/-- The lexemes of the expression are read as its tree, also as an operand if no parentheses are
needed then. -/
structure Expr.Readable (e : Expr) : Prop where
  isExpression : IsExpression e.lexemes e.tree
  isOperand : e.needsParentheses = false → IsOperand e.lexemes e.tree

/-- An expression in its parentheses, where it needs them, is an operand. -/
theorem Expr.Readable.operand {e : Expr} (h : e.Readable) :
    IsOperand (enclosed e.needsParentheses e.lexemes) e.tree := by
  cases hbare : e.needsParentheses with
  | true => exact isOperand_parenthesized h.isExpression
  | false => exact h.isOperand hbare

/-- What is an operand without parentheses. -/
theorem Expr.readable_of_isOperand {e : Expr} (h : IsOperand e.lexemes e.tree) : e.Readable :=
  ⟨h.isExpression, fun _ => h⟩

/-- Both operands are operands by themselves, so no precedence is needed to read them. -/
theorem isExpression_operation (op : BinaryOp) {ls ms : List Lexeme} {x y : C.Expr}
    (hx : IsOperand ls x) (hy : IsOperand ms y) :
    IsExpression (ls ++ .mark op.symbol :: ms) (.binary op.inC x y) := by
  have hlevel : ∃ i : Fin levels.length, op.symbol ∈ levels.get i ∧
      op.symbol ∉ (levels.drop (i + 1)).flatten ∧ op.symbol ∉ [['(']] := by
    cases op <;> decide
  obtain ⟨i, hop, htighter, hcall⟩ := hlevel
  have hlevels : levels = levels.take i ++ levels.get i :: levels.drop (i + 1) := by
    rw [List.get_eq_getElem, ← List.drop_eq_getElem_cons, List.take_append_drop]
  rw [← op.symbol_eq_inC]
  exact isExpression_binary hlevels hop htighter hcall hx hy

theorem isOperand_ofNat (n : Nat) : IsOperand [.number (Text.ofNat n)] (.integer n) := by
  have hnumber := isOperand_number (Text.ofNat n)
  rwa [number, integer?_ofNat] at hnumber

/-- Negative numbers are between parentheses, and the least one is a difference. -/
theorem readable_int (n : Int32) : Expr.Readable (.literal (.int n)) := by
  by_cases hleast : n.toInt = -2147483648
  · have hexpression : IsExpression (integerLexemes n) (Literal.int n).inC := by
      rw [integerLexemes, if_pos hleast, Literal.inC, if_pos hleast]
      have hsign : ['-'] ∈ signs := by decide
      have hfirst := isOperand_sign hsign (isOperand_ofNat 2147483647)
      exact isExpression_operation .sub hfirst (isOperand_ofNat 1)
    refine ⟨hexpression, fun hbare => ?_⟩
    have hpos : ¬ n.toInt < 0 := of_decide_eq_false hbare
    omega
  · have hoperand : IsOperand (integerLexemes n) (Literal.int n).inC := by
      rw [integerLexemes, if_neg hleast, Literal.inC, if_neg hleast]
      cases n.toInt with
      | ofNat m =>
        have hpos : ¬ Int.ofNat m < 0 := Int.not_lt.mpr (Int.natCast_nonneg m)
        rw [if_neg hpos]
        exact isOperand_ofNat m
      | negSucc m =>
        rw [if_pos (Int.negSucc_lt_zero m)]
        exact isOperand_sign (by decide) (isOperand_ofNat (m + 1))
    exact Expr.readable_of_isOperand hoperand

theorem readable_literal (value : Literal) : Expr.Readable (.literal value) := by
  cases value with
  | int n => exact readable_int n
  | float x =>
    have hnumber := isOperand_number (floating x)
    rw [number, integer?_floating] at hnumber
    exact Expr.readable_of_isOperand hnumber
  | bool b =>
    cases b with
    | true => exact Expr.readable_of_isOperand (isOperand_word _)
    | false => exact Expr.readable_of_isOperand (isOperand_word _)
  | str t => exact Expr.readable_of_isOperand (isOperand_string _)

mutual

/-- What is written for an expression is read as its tree. -/
theorem Expr.readable : ∀ e : Expr, e.Readable
  | .literal value => readable_literal value
  | .name name => Expr.readable_of_isOperand (isOperand_word name)
  | .unary op operand => by
    have hoperand := (Expr.readable operand).operand
    have hsign : op.symbol ∈ signs := by cases op <;> decide
    have hread : IsOperand (Expr.unary op operand).lexemes (Expr.unary op operand).tree := by
      rw [Expr.tree, ← op.symbol_eq_inC]
      exact isOperand_sign hsign hoperand
    exact Expr.readable_of_isOperand hread
  | .binary op left right =>
    ⟨isExpression_operation op (Expr.readable left).operand (Expr.readable right).operand,
      fun hbare => by cases hbare⟩
  | .call function arguments =>
    Expr.readable_of_isOperand (isOperand_call function (Expr.readableAll arguments))
  | .printf arguments =>
    Expr.readable_of_isOperand (isOperand_call "printf".toList
      (.cons (isOperand_string (format arguments)).isExpression (Argument.readableAll arguments)))

theorem Expr.readableAll : ∀ es : List Expr,
    List.Forall₂ IsExpression (Expr.lexemesAll es) (Expr.treeAll es)
  | [] => .nil
  | e :: es => .cons (Expr.readable e).isExpression (Expr.readableAll es)

theorem Argument.readable : ∀ a : Argument, IsExpression a.lexemes a.tree
  | .int value | .float value | .str value => (Expr.readable value).isExpression
  | .bool value => by
    have htest := isOperand_parenthesized (Expr.readable value).isExpression
    have hboth := isExpression_conditional htest (isOperand_string "\"true\"".toList)
      (isOperand_string "\"false\"".toList)
    rw [List.append_assoc] at hboth
    exact hboth

theorem Argument.readableAll : ∀ as : List Argument,
    List.Forall₂ IsExpression (Argument.lexemesAll as) (Argument.treeAll as)
  | [] => .nil
  | a :: as => .cons (Argument.readable a) (Argument.readableAll as)

end

/-- The text of a legible expression is read as its tree. -/
theorem Expr.expression?_render {e : Expr} (h : e.Legible) : C.expression? e.render = some e.tree :=
  (Expr.readable e).isExpression.expression? (Expr.scans e h).lexemes

mutual

/-- What is lowered is read back as the meaning of the expression in C. -/
theorem lower_tree (k : Context) : ∀ e : ImpC.Expr, (lower k e).1.tree = e.inC k
  | .literal _ _ => rfl
  | .reference _ _ => rfl
  | .unary _ op operand => by
    rw [Expr.inC, ← lower_tree k operand]
    rfl
  | .binary _ op left right => by
    rw [Expr.inC, ← lower_tree k left, ← lower_tree k right]
    rfl
  | .call _ function arguments => by
    rw [lower, printName, Expr.inC]
    split
    · obtain ⟨htrees, hformat⟩ := lowerPrinted_trees k arguments
      rw [Expr.printFormat, ← htrees, ← hformat]
      rfl
    · rw [← lowerAll_trees k arguments]
      rfl

theorem lowerAll_trees (k : Context) : ∀ es : List ImpC.Expr,
    Expr.treeAll (lowerAll k es).1 = Expr.allInC k es
  | [] => rfl
  | e :: es => by
    rw [Expr.allInC, ← lower_tree k e, ← lowerAll_trees k es]
    rfl

theorem lowerPrinted_trees (k : Context) : ∀ es : List ImpC.Expr,
    Argument.treeAll (lowerPrinted k es).1 = Expr.printedInC k es ∧
      (lowerPrinted k es).1.map Argument.conversion =
        es.filterMap fun e => (e.type k.table).conversion?
  | [] => ⟨rfl, rfl⟩
  | e :: es => by
    obtain ⟨htrees, hformat⟩ := lowerPrinted_trees k es
    have htree := lower_tree k e
    rw [lowerPrinted, Expr.printedInC, List.filterMap_cons, ← htrees, ← hformat, ← htree]
    cases e.type k.table <;> exact ⟨rfl, rfl⟩

end

/-- Every expression of a parsed program is emitted as a text that is read in C as what it means. -/
theorem expressions_read_back {source : Source} {tree : Tree}
    (h : (parse (Lexer.start source).tokenize.tokens).tree = some tree) :
    let resolved := resolve (Surface.ofTree tree)
    let k : Context := ⟨resolved.table, assignNames (resolved.table.map (·.name))⟩
    ∀ e ∈ resolved.program.expressions, C.expression? (lower k e).1.render = some (e.inC k) := by
  obtain ⟨hprogram, hwords⟩ := resolve_scoped (Surface.words_ofTree h)
  intro resolved k e he
  have hk : k.Proper := assignNames_proper hwords
  obtain ⟨value, hvalue, he⟩ := List.mem_flatMap.mp he
  obtain ⟨path, hvalue⟩ := hprogram.values hvalue
  obtain ⟨path, hscoped⟩ := Expr.parts_placed value hvalue e he
  have hlegible : (lower k e).1.Legible := lower_legible hk e hscoped
  rw [Expr.expression?_render hlegible, lower_tree]

/-- Signs, the least integer, a truth value that is printed, and a name that is taken in C. -/
def signedOperandsText : Text :=
  "var main = 3; main = - -main - -2147483648 * main; print(main < 1 && !(main == -1), 1.5);".toList

theorem expressions_read_back_signed :
    ∃ tree, (parse (Lexer.start ⟨[], signedOperandsText⟩).tokenize.tokens).tree = some tree ∧
      let resolved := resolve (Surface.ofTree tree)
      let k : Context := ⟨resolved.table, assignNames (resolved.table.map (·.name))⟩
      let main : C.Expr := .name "main_1".toList
      let least : C.Expr := .binary ['-'] (.unary ['-'] (.integer 2147483647)) (.integer 1)
      ∃ e ∈ resolved.program.expressions,
        (lower k e).1.render = "(-(-main_1)) - ((-2147483647 - 1) * main_1)".toList ∧
        C.expression? (lower k e).1.render =
          some (.binary ['-'] (.unary ['-'] (.unary ['-'] main)) (.binary ['*'] least main)) := by
  let main : C.Expr := .name "main_1".toList
  let least : C.Expr := .binary ['-'] (.unary ['-'] (.integer 2147483647)) (.integer 1)
  have htokens : (Lexer.start ⟨[], signedOperandsText⟩).tokens =
      ((Lexer.start ⟨[], signedOperandsText⟩).advance 90).1 :=
    Lexer.tokens_eq_advance (by decide)
  have hrun : (parse (Lexer.start ⟨[], signedOperandsText⟩).tokenize.tokens).tree.map (fun tree =>
      let resolved := resolve (Surface.ofTree tree)
      let k : Context := ⟨resolved.table, assignNames (resolved.table.map (·.name))⟩
      (resolved.program.expressions.map fun e => ((lower k e).1.render, e.inC k)).contains
        ("(-(-main_1)) - ((-2147483647 - 1) * main_1)".toList,
          .binary ['-'] (.unary ['-'] (.unary ['-'] main)) (.binary ['*'] least main))) =
      some true := by
    rw [Lexer.tokenize, htokens]
    decide +kernel
  obtain ⟨tree, htree, hcontains⟩ := Option.map_eq_some_iff.mp hrun
  obtain ⟨e, he, hpair⟩ := List.mem_map.mp (List.contains_iff_mem.mp hcontains)
  obtain ⟨hrender, hmeant⟩ := Prod.mk.inj hpair
  refine ⟨tree, htree, e, he, hrender, ?_⟩
  rw [expressions_read_back htree e he, hmeant]

end Target

end ImpC
