import ImpC.Text.Location

/-!
The lexical categories of the language and the tokens that carry them. Keywords are read without
regard to case; identifiers are not.
-/

namespace ImpC

inductive Keyword where
  | var
  | if_
  | else_
  | while_
  | true_
  | false_
  | int
  | float
  | bool
  | string
  deriving DecidableEq, Repr

inductive Operator where
  | assign
  | plus
  | minus
  | times
  | divide
  | modulo
  | equal
  | notEqual
  | less
  | lessOrEqual
  | greater
  | greaterOrEqual
  | and
  | or
  | not
  deriving DecidableEq, Repr

/-- The category of a token. `eof` stands for the end of the text and `unknown` for a character
that starts no token. -/
inductive Kind where
  | whitespace
  | comment
  | keyword (word : Keyword)
  | ident
  | int
  | float
  | str
  | op (op : Operator)
  | semicolon
  | comma
  | colon
  | openParen
  | closeParen
  | openCurly
  | closeCurly
  | eof
  | unknown
  deriving DecidableEq, Repr

structure Token where
  kind : Kind
  text : Text
  location : Location
  deriving DecidableEq

namespace Keyword

def all : List Keyword :=
  [.var, .if_, .else_, .while_, .true_, .false_, .int, .float, .bool, .string]

theorem mem_all (k : Keyword) : k ∈ all := by cases k <;> decide

def spelling : Keyword → Text
  | .var => "var".toList
  | .if_ => "if".toList
  | .else_ => "else".toList
  | .while_ => "while".toList
  | .true_ => "true".toList
  | .false_ => "false".toList
  | .int => "int".toList
  | .float => "float".toList
  | .bool => "bool".toList
  | .string => "string".toList

/-- The keyword that a word spells, ASCII letters of either case being the same. -/
def ofWord? (word : Text) : Option Keyword :=
  all.find? fun k => k.spelling == word.map Char.toLower

end Keyword

namespace Operator

def symbol : Operator → Text
  | .assign => "=".toList
  | .plus => "+".toList
  | .minus => "-".toList
  | .times => "*".toList
  | .divide => "/".toList
  | .modulo => "%".toList
  | .equal => "==".toList
  | .notEqual => "!=".toList
  | .less => "<".toList
  | .lessOrEqual => "<=".toList
  | .greater => ">".toList
  | .greaterOrEqual => ">=".toList
  | .and => "&&".toList
  | .or => "||".toList
  | .not => "!".toList

end Operator

namespace Kind

/-- The name under which dumps show a category. -/
def name : Kind → Text
  | .whitespace => "WS".toList
  | .comment => "COMMENT".toList
  | .keyword _ => "KEYWORD".toList
  | .ident => "IDENT".toList
  | .int => "INT".toList
  | .float => "FLOAT".toList
  | .str => "STRING".toList
  | .op _ => "OP".toList
  | .semicolon => "SEMI".toList
  | .comma => "COMMA".toList
  | .colon => "COLON".toList
  | .openParen => "LPAREN".toList
  | .closeParen => "RPAREN".toList
  | .openCurly => "LCURLY".toList
  | .closeCurly => "RCURLY".toList
  | .eof => "EOF".toList
  | .unknown => "UNKNOWN".toList

/-- A category as messages name it. -/
def describe : Kind → Text
  | .whitespace => "whitespace".toList
  | .comment => "comment".toList
  | .keyword k => "keyword `".toList ++ k.spelling ++ "`".toList
  | .ident => "identifier".toList
  | .int => "integer literal".toList
  | .float => "float literal".toList
  | .str => "string literal".toList
  | .op o => "`".toList ++ o.symbol ++ "`".toList
  | .semicolon => "`;`".toList
  | .comma => "`,`".toList
  | .colon => "`:`".toList
  | .openParen => "`(`".toList
  | .closeParen => "`)`".toList
  | .openCurly => "`\x7b`".toList
  | .closeCurly => "`\x7d`".toList
  | .eof => "end of input".toList
  | .unknown => "unknown character".toList

/-- Layout, which no rule of the grammar mentions. -/
def isIgnorable : Kind → Bool
  | .whitespace | .comment => true
  | _ => false

/-- A token of this category is shown together with its text. -/
def showsText : Kind → Bool
  | .keyword _ | .ident | .int | .float | .str | .op _ | .unknown => true
  | _ => false

end Kind

namespace Token

def render (t : Token) : Text :=
  if t.kind.showsText then t.kind.name ++ '(' :: t.text ++ [')'] else t.kind.name

end Token

end ImpC
