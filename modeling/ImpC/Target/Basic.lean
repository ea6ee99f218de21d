import ImpC.Program.Basic
import ImpC.Number

/-!
The part of C that is emitted: literals, expressions and declarators, and their texts. The least
integer has no literal of its own in C, and a question mark is escaped so that no two of them stand
side by side. An operand that is itself an operation, or a negative integer, stands between
parentheses, so no precedence is relied on.
-/

namespace ImpC.Target

/-- One character of a string literal. -/
def escapeChar (c : Char) : Text :=
  if c = '"' ∨ c = '\\' ∨ c = '?' then ['\\', c]
  else if c = '\n' then ['\\', 'n']
  else if c = '\t' then ['\\', 't']
  else if c = '\r' then ['\\', 'r']
  else if c.toNat < 32 ∨ c.toNat = 127 then
    ['\\', Nat.digitChar (c.toNat / 64), Nat.digitChar (c.toNat / 8 % 8),
      Nat.digitChar (c.toNat % 8)]
  else [c]

def escape (t : Text) : Text := '"' :: t.flatMap escapeChar ++ ['"']

def integer (n : Int32) : Text :=
  if n.toInt = -2147483648 then "-2147483647 - 1".toList else Text.ofInt n.toInt

/-- Numbers from a ten-thousandth on and below ten quadrillion are written in positional form. -/
def layout : Layout := ⟨-4, 15⟩

/-- A number beyond the finite ones is written as a literal that overflows. -/
def floating (x : Double) : Text := if x.isFinite then layout.write x else "1.0e999".toList

def literal : Literal → Text
  | .int n => integer n
  | .float x => floating x
  | .bool true => "true".toList
  | .bool false => "false".toList
  | .str t => escape t

inductive CType where
  | int
  | double
  | bool
  | text
  deriving DecidableEq

structure Declarator where
  type : CType
  name : Text
  deriving DecidableEq

mutual

/-- `printf` stands for a call that prints its arguments on one line. -/
inductive Expr where
  | literal (value : Literal)
  | name (name : Text)
  | unary (op : UnaryOp) (operand : Expr)
  | binary (op : BinaryOp) (left right : Expr)
  | call (function : Text) (arguments : List Expr)
  | printf (arguments : List Argument)

/-- A value to print, by the conversion that prints it. -/
inductive Argument where
  | int (value : Expr)
  | float (value : Expr)
  | bool (value : Expr)
  | str (value : Expr)

end

def CType.ofTy? : Ty → Option CType
  | .int => some .int
  | .float => some .double
  | .bool => some .bool
  | .string => some .text
  | .named _ | .unknown => none

def CType.render : CType → Text
  | .int => "int".toList
  | .double => "double".toList
  | .bool => "bool".toList
  | .text => "const char *".toList

/-- The star of a pointer type stands at the name. -/
def Declarator.render (d : Declarator) : Text :=
  match d.type with
  | .text => d.type.render ++ d.name
  | _ => d.type.render ++ ' ' :: d.name

def Expr.needsParentheses : Expr → Bool
  | .literal (.int n) => n.toInt < 0
  | .unary _ _ | .binary _ _ _ => true
  | _ => false

def enclose (b : Bool) (t : Text) : Text := if b then '(' :: t ++ [')'] else t

def commaSeparated (ts : List Text) : Text := List.intercalate ", ".toList ts

/-- The conversion that prints an argument. A truth value is printed as a word. -/
def Argument.conversion : Argument → Text
  | .int _ => "%d".toList
  | .float _ => "%g".toList
  | .bool _ | .str _ => "%s".toList

/-- The format of a line with some arguments, as it stands in a string literal. -/
def format (arguments : List Argument) : Text :=
  '"' :: List.intercalate [' '] (arguments.map Argument.conversion) ++ "\\n\"".toList

mutual

def Expr.render : Expr → Text
  | .literal value => literal value
  | .name name => name
  | .unary op operand => op.symbol ++ enclose operand.needsParentheses operand.render
  | .binary op left right =>
    enclose left.needsParentheses left.render ++ ' ' :: op.symbol ++ ' ' ::
      enclose right.needsParentheses right.render
  | .call function arguments =>
    function ++ '(' :: commaSeparated (Expr.renderAll arguments) ++ [')']
  | .printf arguments =>
    "printf(".toList ++ commaSeparated (format arguments :: Argument.renderAll arguments) ++ [')']

def Expr.renderAll : List Expr → List Text
  | [] => []
  | e :: es => e.render :: Expr.renderAll es

def Argument.render : Argument → Text
  | .int value | .float value | .str value => value.render
  | .bool value => '(' :: value.render ++ ") ? \"true\" : \"false\"".toList

def Argument.renderAll : List Argument → List Text
  | [] => []
  | a :: as => a.render :: Argument.renderAll as

end

end ImpC.Target
