import ImpC.Text.Basic

/-!
Places in a text by line and column, both counted from one. Only a line feed starts a new line, and
every character takes one column.

Both are counted without bound. No place in a text of fewer than `2 ^ 32 - 1` bytes, the one after
it included, has a line or a column that does not fit in 32 bits.

A source is a named text, and a location is a stretch of one: a range of bytes together with the
places of its first and last character. The last place of an empty stretch is its first one.
-/

namespace ImpC

structure Position where
  line : Nat
  column : Nat
  deriving DecidableEq, Repr

namespace Position

/-- The place of the first character of a text. -/
def origin : Position := ⟨1, 1⟩

/-- The place after a character that stands at `p`. -/
def after (p : Position) (c : Char) : Position :=
  if c = '\n' then ⟨p.line + 1, 1⟩ else ⟨p.line, p.column + 1⟩

/-- The place after a text that starts at `p`. -/
def advance (p : Position) (t : Text) : Position := t.foldl after p

@[simp] theorem advance_nil (p : Position) : p.advance [] = p := rfl

@[simp] theorem advance_cons (p : Position) (c : Char) (t : Text) :
    p.advance (c :: t) = (p.after c).advance t := rfl

@[simp] theorem advance_append (p : Position) (s t : Text) :
    p.advance (s ++ t) = (p.advance s).advance t := by simp [advance]

/-- The places of all characters of a text that starts at `p`, and the place after it. -/
def trail (p : Position) : Text → List Position
  | [] => [p]
  | c :: t => p :: trail (p.after c) t

def render (p : Position) : Text := Text.ofNat p.line ++ ':' :: Text.ofNat p.column

end Position

structure Source where
  name : Text
  text : Text
  deriving DecidableEq

structure Location where
  source : Source
  start : Nat
  stop : Nat
  first : Position
  last : Position
  deriving DecidableEq

structure Located (α : Type) where
  location : Location
  value : α
  deriving DecidableEq

namespace Source

/-- Line `n` of the text, counted from one. -/
def line? (s : Source) : Nat → Option Text
  | 0 => none
  | n + 1 => s.text.lines[n]?

/-- The empty stretch before the first character. -/
def start (s : Source) : Location := ⟨s, 0, 0, .origin, .origin⟩

/-- The place before byte `n`. Past the end it is the place after the text, and within a character
the place of that character. -/
def positionAt (s : Source) (n : Nat) : Position := go .origin n s.text
where
  go (p : Position) : Nat → Text → Position
    | _, [] => p
    | n, c :: t => if c.utf8Size ≤ n then go (p.after c) (n - c.utf8Size) t else p

/-- The stretch from byte `start` up to byte `stop`, with the places the text gives it. -/
def between (s : Source) (start stop : Nat) : Location :=
  let first := s.positionAt start
  ⟨s, start, stop, first, if start < stop then s.positionAt (stop - 1) else first⟩

end Source

namespace Location

/-- The stretch from the start of one location to the end of another. -/
def through (a b : Location) : Location := ⟨a.source, a.start, b.stop, a.first, b.last⟩

@[simp] theorem through_self (a : Location) : a.through a = a := rfl

/-- The covered text, if the range is one of whole characters. -/
def text? (a : Location) : Option Text := a.source.text.slice a.start a.stop

/-- Two locations cover the same bytes of the same source. -/
def sameRange (a b : Location) : Bool :=
  a.source == b.source && a.start == b.start && a.stop == b.stop

def render (a : Location) : Text :=
  a.source.name ++ ':' ::
    if a.first = a.last then a.first.render
    else '[' :: a.first.render ++ '-' :: a.last.render ++ [']']

end Location

end ImpC
