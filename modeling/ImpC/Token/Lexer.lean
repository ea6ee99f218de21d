import ImpC.Token.Basic
import ImpC.Text.Shape

/-!
The lexical rules. Each rule accepts at most one stretch at the start of a text; of all rules the
longest stretch wins, and of equally long ones the rule that comes first in `Pattern.all`.

From text to tokens. A lexer is a place in a source; each step takes the winning stretch, or one
character as an unknown token when no rule accepts any, so no text is ever refused. After the last
character comes one empty token of kind `eof`, and then nothing.
-/

namespace ImpC

inductive Pattern where
  | whitespace
  | comment
  | keyword
  | float
  | int
  | ident
  | str
  | symbol (spelling : Text) (kind : Kind)
  deriving DecidableEq

/-- A stretch of text that a rule accepts: its number of characters and its category. -/
structure Match where
  length : Nat
  kind : Kind
  deriving DecidableEq

namespace Pattern

def isBlank (c : Char) : Bool := c = ' ' || c = '\t' || c = '\r' || c = '\n'

/-- Words are made of ASCII letters, digits and underscores; an identifier starts with no digit. -/
def startsWord (c : Char) : Bool := c.isAlpha || c = '_'

def inWord (c : Char) : Bool := c.isAlphanum || c = '_'

/-- The length of a string literal at the start of a text, without its opening quote. A backslash
takes the next character with it, and a literal does not go past the end of its line. -/
def stringTail? : Text → Option Nat
  | [] => none
  | '"' :: _ => some 1
  | '\n' :: _ => none
  | '\\' :: '\n' :: _ => none
  | ['\\'] => none
  | '\\' :: _ :: t => (stringTail? t).map (· + 2)
  | _ :: t => (stringTail? t).map (· + 1)

/-- The number of characters at the start of a text that have a property. -/
def run (p : Char → Bool) (t : Text) : Nat := (t.takeWhile p).length

def float? (t : Text) : Option Nat :=
  match t.dropWhile Char.isDigit with
  | '.' :: fraction =>
    if run Char.isDigit t = 0 ∨ run Char.isDigit fraction = 0 then none
    else some (run Char.isDigit t + 1 + run Char.isDigit fraction)
  | _ => none

/-- What a rule accepts at the start of a text; the stretch may be empty. -/
def candidate? (t : Text) : Pattern → Option Match
  | .whitespace => some ⟨run isBlank t, .whitespace⟩
  | .comment => if "//".toList.isPrefixOf t then some ⟨run (· ≠ '\n') t, .comment⟩ else none
  | .keyword =>
    let word := t.takeWhile inWord
    (Keyword.ofWord? word).map fun k => ⟨word.length, .keyword k⟩
  | .float => (float? t).map fun n => ⟨n, .float⟩
  | .int => some ⟨run Char.isDigit t, .int⟩
  | .ident =>
    match t with
    | c :: _ => if startsWord c then some ⟨run inWord t, .ident⟩ else none
    | [] => none
  | .str =>
    match t with
    | '"' :: rest => (stringTail? rest).map fun n => ⟨n + 1, .str⟩
    | _ => none
  | .symbol spelling kind =>
    if spelling.isPrefixOf t then some ⟨spelling.length, kind⟩ else none

def accept? (t : Text) (p : Pattern) : Option Match :=
  (p.candidate? t).filter (0 < ·.length)

/-- The rules in order. -/
def all : List Pattern :=
  [.whitespace, .comment, .keyword, .float, .int, .ident, .str,
    op .equal, op .notEqual, op .lessOrEqual, op .greaterOrEqual, op .and, op .or,
    op .assign, op .less, op .greater, op .plus, op .minus, op .times, op .divide,
    op .modulo, op .not,
    .symbol ";".toList .semicolon, .symbol ",".toList .comma, .symbol ":".toList .colon,
    .symbol "(".toList .openParen, .symbol ")".toList .closeParen,
    .symbol "\x7b".toList .openCurly, .symbol "\x7d".toList .closeCurly]
where
  op (o : Operator) : Pattern := .symbol o.symbol (.op o)

/-- The longer of two stretches, the first one if they are equally long. -/
def longer (best : Option Match) (next : Match) : Option Match :=
  match best with
  | some m => if next.length ≤ m.length then some m else some next
  | none => some next

/-- The stretch that wins at the start of a text. -/
def longest? (t : Text) : Option Match := (all.filterMap (accept? t)).foldl longer none

end Pattern

inductive LexicalError where
  | badCharacter (c : Char)
  | unterminatedString
  deriving DecidableEq

def LexicalError.message : LexicalError → Text
  | .badCharacter c => "Bad character ".toList ++ Text.quoteChar c ++ " in input stream".toList
  | .unterminatedString => "Unterminated string literal".toList

structure Lexer where
  source : Source
  rest : Text
  offset : Nat
  position : Position
  finished : Bool

/-- The significant tokens of a text and what is wrong with them. -/
structure Lexed where
  tokens : List Token
  errors : List (Located LexicalError)

namespace Lexer

def start (source : Source) : Lexer := ⟨source, source.text, 0, .origin, false⟩

/-- The winning stretch at the start of a text that is not empty. -/
def winner (c : Char) (t : Text) : Match := (Pattern.longest? (c :: t)).getD ⟨1, .unknown⟩

/-- The token made of a text that starts at the lexer's place, and the lexer after it. -/
def take (l : Lexer) (kind : Kind) (c : Char) (more rest : Text) : Token × Lexer :=
  let text := c :: more
  let stop := l.offset + Text.byteSize text
  (⟨kind, text, ⟨l.source, l.offset, stop, l.position, l.position.advance text.dropLast⟩⟩,
    ⟨l.source, rest, stop, l.position.advance text, false⟩)

def next? (l : Lexer) : Option (Token × Lexer) :=
  if l.finished then none
  else match l.rest with
    | [] =>
      some (⟨.eof, [], ⟨l.source, l.offset, l.offset, l.position, l.position⟩⟩,
        { l with finished := true })
    | c :: t =>
      let m := winner c t
      some (l.take m.kind c (t.take (m.length - 1)) (t.drop (m.length - 1)))

/-- The number of steps left at most. -/
def remaining (l : Lexer) : Nat := if l.finished then 0 else l.rest.length + 1

theorem remaining_lt_of_next?_eq_some {l m : Lexer} {t : Token} (h : l.next? = some (t, m)) :
    m.remaining < l.remaining := by
  unfold next? at h
  split at h
  · cases h
  · rename_i hf
    split at h
    · cases h
      simp [remaining, hf]
    · rename_i c rest hrest
      cases h
      have shorter : (rest.drop ((winner c rest).length - 1)).length ≤ rest.length := by
        rw [List.length_drop]
        omega
      rw [remaining, remaining, if_neg hf, hrest, List.length_cons, if_neg Bool.false_ne_true]
      exact Nat.succ_lt_succ (Nat.lt_succ_of_le shorter)

def tokens (l : Lexer) : List Token :=
  match h : l.next? with
  | none => []
  | some (t, m) =>
    have := remaining_lt_of_next?_eq_some h
    t :: tokens m
termination_by l.remaining

/-- The next tokens, at most `n` of them, and the lexer after them. -/
def advance (l : Lexer) : Nat → List Token × Lexer
  | 0 => ([], l)
  | n + 1 =>
    match l.next? with
    | none => ([], l)
    | some (t, m) =>
      let (ts, last) := advance m n
      (t :: ts, last)

/-- What is wrong with a token: an unknown quote opens a string that does not end on its line. -/
def fault? (t : Token) : Option (Located LexicalError) :=
  match t.kind, t.text with
  | .unknown, '"' :: _ => some ⟨t.location, .unterminatedString⟩
  | .unknown, c :: _ => some ⟨t.location, .badCharacter c⟩
  | _, _ => none

def tokenize (l : Lexer) : Lexed :=
  let significant := l.tokens.filter (!·.kind.isIgnorable)
  ⟨significant, significant.filterMap fault?⟩

end Lexer

end ImpC
