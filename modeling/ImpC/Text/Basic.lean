/-!
A text is the list of its characters: whatever the library reads or writes is one. Offsets into a
text count the bytes of its UTF-8 form.

Outputs. Texts are written one after the other, and the first write that fails ends the writing. A
draft takes every text. A sink takes bytes as long as it has room; a text that does not fit is taken
as far as there is room, and the sink then fails.
-/

namespace ImpC

abbrev Text := List Char

namespace Text

def byteSize (t : Text) : Nat := t.foldr (fun c n => c.utf8Size + n) 0

@[simp] theorem byteSize_nil : byteSize [] = 0 := rfl

@[simp] theorem byteSize_cons (c : Char) (t : Text) :
    byteSize (c :: t) = c.utf8Size + byteSize t := rfl

@[simp] theorem byteSize_append (s t : Text) : byteSize (s ++ t) = byteSize s + byteSize t := by
  induction s with
  | nil => simp
  | cons c s ih => simp only [List.cons_append, byteSize_cons, ih, Nat.add_assoc]

def utf8 (t : Text) : List UInt8 := t.flatMap String.utf8EncodeChar

/-- The text from byte `n` on, if a character starts there or the text ends there. -/
def dropBytes : Nat → Text → Option Text
  | 0, t => some t
  | _ + 1, [] => none
  | n + 1, c :: t => if c.utf8Size ≤ n + 1 then dropBytes (n + 1 - c.utf8Size) t else none

/-- The first `n` bytes of a text, if they are whole characters. -/
def takeBytes : Nat → Text → Option Text
  | 0, _ => some []
  | _ + 1, [] => none
  | n + 1, c :: t =>
    if c.utf8Size ≤ n + 1 then (takeBytes (n + 1 - c.utf8Size) t).map (c :: ·) else none

/-- The bytes from `start` up to `stop`, if they are in order, in the text and whole characters. -/
def slice (t : Text) (start stop : Nat) : Option Text :=
  if start ≤ stop then (dropBytes start t).bind (takeBytes (stop - start)) else none

/-- The lines of a text. A line feed ends a line, and so does the pair of a carriage return and a
line feed; neither belongs to the line. What follows the last line feed is a line unless empty. -/
def lines : Text → List Text
  | [] => []
  | '\n' :: t => [] :: lines t
  | '\r' :: '\n' :: t => [] :: lines t
  | c :: t =>
    match lines t with
    | [] => [[c]]
    | line :: more => (c :: line) :: more

def ofNat (n : Nat) : Text := Nat.toDigits 10 n

def ofInt : Int → Text
  | .ofNat n => ofNat n
  | .negSucc n => '-' :: ofNat (n + 1)

def blanks (n : Nat) : Text := List.replicate n ' '

/-- The number in a text of decimal digits. -/
def decimal (digits : Text) : Nat :=
  digits.foldl (fun n c => 10 * n + (c.toNat - '0'.toNat)) 0

end Text

/-- What texts are written to. A failure gives the output as it is left. -/
class Output (σ : Type) where
  write : σ → Text → Except σ σ

/-- Writes texts one after the other, up to the first failure. -/
def Output.writeAll {σ : Type} [Output σ] (s : σ) : List Text → Except σ σ
  | [] => .ok s
  | t :: ts => do
    let s ← write s t
    writeAll s ts

/-- The texts written so far, the last one first. -/
structure Draft where
  written : List Text

instance : Output Draft := ⟨fun d t => .ok ⟨t :: d.written⟩⟩

namespace Draft

def empty : Draft := ⟨[]⟩

/-- The texts in the order in which they were written. -/
def pieces (d : Draft) : List Text := d.written.reverse

end Draft

structure Sink where
  room : Nat
  held : List UInt8
  deriving DecidableEq

namespace Sink

def empty (room : Nat) : Sink := ⟨room, []⟩

/-- Writes some bytes. A failure leaves the sink in the state that it gives. -/
def write (s : Sink) (bytes : List UInt8) : Except Sink Sink :=
  if bytes.length ≤ s.room then .ok ⟨s.room - bytes.length, s.held ++ bytes⟩
  else .error ⟨0, s.held ++ bytes.take s.room⟩

end Sink

instance : Output Sink := ⟨fun s t => s.write t.utf8⟩

end ImpC
