import ImpC.Text.Basic

/-!
Binary floating-point numbers of 64 bits, by their bits: a sign, eleven bits of exponent and
fifty-two of fraction. A finite magnitude is a natural number times a power of two.

A number is written with the fewest decimal digits that read back as it, and of those with the
nearest to it; of two equally near ones with the greater. A decimal `digits * 10 ^ exponent` reads
back as `m * 2 ^ q` when it lies in the interval between the midpoints to the neighbouring numbers,
whose ends count only if `m` is even.

A layout says for which exponents of the first digit a number is written in positional form;
positional numbers have at least one place after the point, and all others are written as one digit,
its places if any, and an exponent.
-/

namespace ImpC

def twoTo (n : Nat) : Nat := Nat.pow 2 n

def tenTo (n : Nat) : Nat := Nat.pow 10 n

structure Double where
  bits : UInt64
  deriving DecidableEq

namespace Double

def isNegative (x : Double) : Bool := twoTo 63 ≤ x.bits.toNat

def exponentField (x : Double) : Nat := x.bits.toNat / twoTo 52 % twoTo 11

def fractionField (x : Double) : Nat := x.bits.toNat % twoTo 52

def isFinite (x : Double) : Bool := x.exponentField ≠ 2047

/-- The magnitude of a finite number is `significand * 2 ^ exponent`. -/
def significand (x : Double) : Nat :=
  if x.exponentField = 0 then x.fractionField else twoTo 52 + x.fractionField

def exponent (x : Double) : Int :=
  if x.exponentField = 0 then -1074 else (x.exponentField : Int) - 1075

def infinity : Double := ⟨0x7ff0000000000000⟩

/-- A quotient rounded to the nearest natural number, a half to the even one. -/
def divToEven (num den : Nat) : Nat :=
  let q := num / den
  let r := num % den
  if 2 * r < den ∨ (2 * r = den ∧ q % 2 = 0) then q else q + 1

/-- The greatest `k` with `2 ^ k ≤ num / den`. -/
def floorLog2 (num den : Nat) : Int :=
  let k : Int := (Nat.log2 num : Int) - (Nat.log2 den : Int)
  if num * twoTo (-k).toNat < den * twoTo k.toNat then k - 1 else k

/-- The number nearest to a fraction, the one with the even significand if two are equally near, and
infinity if the fraction is beyond all finite numbers. -/
def ofFraction (num den : Nat) : Double :=
  if num = 0 then ⟨0⟩
  else
    let e := max (floorLog2 num den - 52) (-1074)
    let m := divToEven (num * twoTo (-e).toNat) (den * twoTo e.toNat)
    let bits := (e + 1074).toNat * twoTo 52 + m
    if bits < 2047 * twoTo 52 then ⟨bits.toUInt64⟩ else infinity

/-- The number nearest to what digits, a point and more digits denote. -/
def ofDecimal (spelling : Text) : Double :=
  let whole := spelling.takeWhile Char.isDigit
  let places := (spelling.dropWhile Char.isDigit).drop 1
  ofFraction (Text.decimal (whole ++ places)) (tenTo places.length)

end Double

structure Decimal where
  digits : Nat
  exponent : Int
  deriving DecidableEq

namespace Decimal

/-- Quarters of the unit `2 ^ q` below the midpoint under `m * 2 ^ q`. The numbers below a power of
two are twice as dense. -/
def lowQuarters (m : Nat) (q : Int) : Nat :=
  if m = twoTo 52 ∧ -1074 < q then 4 * m - 1 else 4 * m - 2

/-- The factors that bring quarters of `2 ^ q` and multiples of `10 ^ i` to a common unit. -/
def scales (q i : Int) : Nat × Nat :=
  (twoTo (q - 2).toNat * tenTo (-i).toNat, twoTo (2 - q).toNat * tenTo i.toNat)

/-- Whether `c * 10 ^ i` reads back as `m * 2 ^ q`. -/
def readsBack (m : Nat) (q : Int) (c : Nat) (i : Int) : Bool :=
  let (binary, decimal) := scales q i
  let low := lowQuarters m q * binary
  let high := (4 * m + 2) * binary
  if m % 2 = 0 then low ≤ c * decimal && c * decimal ≤ high
  else low < c * decimal && c * decimal < high

/-- The multiple of `10 ^ i` nearest to `m * 2 ^ q` among its two neighbours that read back. -/
def onGrid? (m : Nat) (q i : Int) : Option Nat :=
  let (binary, decimal) := scales q i
  let c := 4 * m * binary / decimal
  match readsBack m q c i, readsBack m q (c + 1) i with
  | true, false => some c
  | false, true => some (c + 1)
  | true, true => some (if 8 * m * binary < (2 * c + 1) * decimal then c else c + 1)
  | false, false => none

/-- The exponent of the leading decimal digit of `m * 2 ^ q`, for a number of double precision. -/
def leadingExponent (m : Nat) (q : Int) : Int :=
  if 0 ≤ q then ((Nat.toDigits 10 (m * twoTo q.toNat)).length : Int) - 1
  else ((Nat.toDigits 10 (m * tenTo 400 / twoTo (-q).toNat)).length : Int) - 401

/-- Seventeen digits suffice for every number of double precision. -/
def shortest (m : Nat) (q : Int) : Decimal :=
  let e := leadingExponent m q
  let found := (List.range 17).findSome? fun (k : Nat) =>
    (onGrid? m q (e - k)).map fun c => (⟨c, e - k⟩ : Decimal)
  found.getD ⟨m, q⟩

/-- The digits without the zeros at their end, and the exponent of the first of them. -/
def scientific (d : Decimal) : Text × Int :=
  let digits := Text.ofNat d.digits
  ((digits.reverse.dropWhile (· = '0')).reverse, d.exponent + digits.length - 1)

end Decimal

structure Layout where
  lowest : Int
  highest : Int

namespace Layout

def zeros (n : Nat) : Text := List.replicate n '0'

/-- The digits with the point after the one whose exponent is zero. -/
def positional (digits : Text) (e : Int) : Text :=
  if e < 0 then '0' :: '.' :: zeros (-e - 1).toNat ++ digits
  else
    let whole := e.toNat + 1
    let places := digits.drop whole
    digits.take whole ++ zeros (whole - digits.length) ++ '.' ::
      if places.isEmpty then ['0'] else places

def withExponent (digits : Text) (e : Int) : Text :=
  digits.take 1 ++ (if digits.length ≤ 1 then [] else '.' :: digits.drop 1) ++ 'e' :: Text.ofInt e

def magnitude (l : Layout) (m : Nat) (q : Int) : Text :=
  if m = 0 then positional ['0'] 0
  else
    let (digits, e) := (Decimal.shortest m q).scientific
    if l.lowest ≤ e ∧ e ≤ l.highest then positional digits e else withExponent digits e

/-- A finite number with its sign; zero has one too. -/
def write (l : Layout) (x : Double) : Text :=
  (if x.isNegative then ['-'] else []) ++ l.magnitude x.significand x.exponent

end Layout

end ImpC
