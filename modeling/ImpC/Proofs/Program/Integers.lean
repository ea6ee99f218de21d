import ImpC.Proofs.Surface.Numeral
import ImpC.Proofs.Surface.Words
import ImpC.Proofs.Program.RoundTrip
import ImpC.Proofs.Target.Expression

/-!
# Integers keep their values

A numeral of a tree is one integer of the resolved program. It has the value of the numeral if this
fits in 32 bits; otherwise it is zero, and the numeral is reported. In C an integer is written with
constants that fit as well, and evaluating what is written leaves the range of `int` nowhere.
-/
namespace ImpC

open ImpC.C

namespace Numeral

/-- The value of the digits, in base ten. -/
def magnitude (n : Numeral) : Nat := Nat.ofDigitChars 10 n.digits.text 0

def value (n : Numeral) : Int :=
  match n.sign with
  | some _ => -(n.magnitude : Int)
  | none => n.magnitude

/-- Below zero the range reaches one further. -/
def fits (n : Numeral) : Bool :=
  match n.sign with
  | some _ => n.magnitude ≤ 2147483648
  | none => n.magnitude ≤ 2147483647

def report (n : Numeral) : Located SemanticError := ⟨n.location, .integerOverflow n.spelling⟩

end Numeral

mutual

def Expr.integers : Expr → List (Located Int)
  | .literal location (.int value) => [⟨location, value.toInt⟩]
  | .literal _ _ | .reference _ _ => []
  | .unary _ _ operand => operand.integers
  | .binary _ _ left right => left.integers ++ right.integers
  | .call _ _ arguments => Expr.integersAll arguments

def Expr.integersAll : List Expr → List (Located Int)
  | [] => []
  | e :: es => e.integers ++ Expr.integersAll es

end

def Block.integers (program : Block) : List (Located Int) := program.values.flatMap Expr.integers

def SemanticError.isOverflow : SemanticError → Bool
  | .integerOverflow _ => true
  | _ => false

namespace Resolver

def overflows (errors : Errors) : Errors := errors.filter (·.value.isOverflow)

theorem overflows_append (errors more : Errors) :
    overflows (errors ++ more) = overflows errors ++ overflows more := List.filter_append ..

def taken (written : Located Text) : Located Int :=
  ⟨written.location, ((Int32.ofSpelling? written.value).getD 0).toInt⟩

/-- The error of an integer, if it does not fit. -/
def reported (written : Located Text) : Errors :=
  if (Int32.ofSpelling? written.value).isNone then
    [⟨written.location, .integerOverflow written.value⟩]
  else []

section Expressions

variable (scopes : List Scope)

/-- A literal that does not fit is reported and read as zero. -/
theorem literal_integers (place : Location) (value : Surface.Literal) :
    (Expr.literal place (literal place value).1).integers =
        (Surface.Expr.literal place value).integers.map taken ∧
      overflows (literal place value).2 =
        (Surface.Expr.literal place value).integers.flatMap reported := by
  cases value with
  | int spelling =>
    rw [literal, Surface.Expr.integers, List.flatMap_singleton, List.map_singleton, taken, reported]
    cases Int32.ofSpelling? spelling with
    | none => exact ⟨rfl, rfl⟩
    | some value => exact ⟨rfl, rfl⟩
  | _ => exact ⟨rfl, rfl⟩

theorem reference_integers (place : Location) (name : Text) :
    overflows (reference scopes place name).2 = [] := by
  rw [reference]
  cases lookup scopes name <;> rfl

mutual

/-- The integers of an expression that are kept, and the errors of the others. -/
theorem expression_integers : ∀ x : Surface.Expr,
    (expression scopes x).1.integers = x.integers.map taken ∧
      overflows (expression scopes x).2 = x.integers.flatMap reported
  | .literal place value => literal_integers place value
  | .name place name => ⟨rfl, reference_integers scopes place name⟩
  | .unary _ _ operand => expression_integers operand
  | .binary _ _ left right => by
    obtain ⟨hleft, hfirst⟩ := expression_integers left
    obtain ⟨hright, hsecond⟩ := expression_integers right
    rw [expression, Surface.Expr.integers, List.map_append, List.flatMap_append, overflows_append,
      Expr.integers, hleft, hright, hfirst, hsecond]
    exact ⟨rfl, rfl⟩
  | .call _ _ arguments => expressions_integers arguments

theorem expressions_integers : ∀ xs : List Surface.Expr,
    Expr.integersAll (expressions scopes xs).1 = (Surface.Expr.integersAll xs).map taken ∧
      overflows (expressions scopes xs).2 = (Surface.Expr.integersAll xs).flatMap reported
  | [] => ⟨rfl, rfl⟩
  | x :: xs => by
    obtain ⟨hx, hfirst⟩ := expression_integers x
    obtain ⟨hxs, hmore⟩ := expressions_integers xs
    rw [expressions, Surface.Expr.integersAll, List.map_append, List.flatMap_append,
      overflows_append, Expr.integersAll, hx, hxs, hfirst, hmore]
    exact ⟨rfl, rfl⟩

end

end Expressions

/-- The integers of a step are taken for what they are written as, and of its errors those of
integers are of the ones that do not fit. -/
theorem step_integers (s : Surface.Step) (r : Resolver) :
    (step s r).1.value?.toList.flatMap Expr.integers =
        (s.value?.toList.flatMap Surface.Expr.integers).map taken ∧
      overflows (step s r).2.errors = overflows r.errors ++
        (s.value?.toList.flatMap Surface.Expr.integers).flatMap reported := by
  obtain ⟨scopes, before, after, hvalue, herrors, hname⟩ := step_reads s r
  -- the errors of names are not those of integers
  have hnone {errors : Errors} (h : ∀ e ∈ errors, IsNameError s e) : overflows errors = [] := by
    refine List.filter_eq_nil_iff.mpr fun e he => ?_
    obtain ⟨n, -, rfl | rfl⟩ := h e he <;> simp [SemanticError.isOverflow]
  rw [List.forall_mem_append] at hname
  rw [hvalue, herrors, overflows_append, overflows_append, overflows_append, hnone hname.1,
    hnone hname.2, List.nil_append, List.append_nil]
  cases s.value? with
  | none => exact ⟨rfl, rfl⟩
  | some x =>
    obtain ⟨hintegers, hoverflows⟩ := expression_integers scopes x
    simp only [Option.map_some, Option.toList_some, List.flatMap_singleton]
    exact ⟨hintegers, congrArg _ hoverflows⟩

/-- Step by step, since every integer is in the value of some step. -/
theorem run_integers (steps : List Surface.Step) (r : Resolver) :
    ((run steps r).1.filterMap Step.value?).flatMap Expr.integers =
        (Surface.Step.integers steps).map taken ∧
      overflows (run steps r).2.errors =
        overflows r.errors ++ (Surface.Step.integers steps).flatMap reported := by
  induction steps generalizing r with
  | nil => exact ⟨rfl, (List.append_nil _).symm⟩
  | cons s steps ih =>
    obtain ⟨hvalue, herrors⟩ := step_integers s r
    obtain ⟨hvalues, hmore⟩ := ih (step s r).2
    have hsplit : Surface.Step.integers (s :: steps) =
        s.value?.toList.flatMap Surface.Expr.integers ++ Surface.Step.integers steps := by
      rw [← List.singleton_append, Surface.Step.integers_append, Surface.Step.integers_single]
    rw [hsplit, List.map_append, List.flatMap_append, ← hvalue, ← hvalues, ← List.append_assoc,
      ← herrors, ← hmore, List.filterMap_eq_flatMap_toList, List.filterMap_eq_flatMap_toList, run,
      List.flatMap_cons, List.flatMap_append]
    exact ⟨rfl, rfl⟩

end Resolver

namespace Numeral

variable {n : Numeral}

/-- The sign belongs to the number, so the least one fits. -/
theorem ofSpelling?_spelling (h : Digits n.digits.text) :
    Int32.ofSpelling? n.spelling = if n.fits then some (.ofInt n.value) else none := by
  have hmagnitude : n.magnitude = Text.decimal n.digits.text := rfl
  unfold spelling fits value
  cases n.sign with
  | none =>
    dsimp only
    rw [Int32.ofSpelling?_digits h, ← hmagnitude]
    by_cases hfits : n.magnitude ≤ 2147483647
    · rw [if_pos (by omega), if_pos (decide_eq_true hfits)]
    · rw [if_neg (by omega), if_neg (by simpa using hfits)]
  | some sign =>
    dsimp only
    rw [Int32.ofSpelling?, ← hmagnitude]
    by_cases hfits : n.magnitude ≤ 2147483648
    · rw [if_pos (by omega), if_pos (decide_eq_true hfits)]
    · rw [if_neg (by omega), if_neg (by simpa using hfits)]

theorem toInt_value (h : n.fits = true) : (Int32.ofInt n.value).toInt = n.value := by
  have hrange : -2147483648 ≤ n.value ∧ n.value ≤ 2147483647 := by
    unfold fits at h
    unfold value
    cases hsign : n.sign with
    | none =>
      rw [hsign] at h
      have hle : n.magnitude ≤ 2147483647 := of_decide_eq_true h
      dsimp only
      omega
    | some sign =>
      rw [hsign] at h
      have hle : n.magnitude ≤ 2147483648 := of_decide_eq_true h
      dsimp only
      omega
  exact Int32.toInt_ofInt_of_le (by omega) (by omega)

/-- A number is kept if it fits, and is zero otherwise. -/
theorem taken_written (h : Digits n.digits.text) :
    Resolver.taken n.written = ⟨n.location, if n.fits then n.value else 0⟩ := by
  rw [Resolver.taken, written, ofSpelling?_spelling h]
  cases hfits : n.fits with
  | true => simp [toInt_value hfits]
  | false => rfl

theorem reported_written (h : Digits n.digits.text) :
    Resolver.reported n.written = if !n.fits then [n.report] else [] := by
  rw [Resolver.reported, written, ofSpelling?_spelling h]
  cases n.fits <;> rfl

theorem reported_numerals {ns : List Numeral} (h : ∀ n ∈ ns, Digits n.digits.text) :
    (ns.map written).flatMap Resolver.reported = (ns.filter (!·.fits)).map report := by
  induction ns with
  | nil => rfl
  | cons n ns ih =>
    rw [List.forall_mem_cons] at h
    rw [List.map_cons, List.flatMap_cons, reported_written h.1, ih h.2, List.filter_cons]
    cases n.fits <;> rfl

end Numeral

namespace C

def inRange? (value : Int) : Option Int :=
  if -2147483648 ≤ value ∧ value ≤ 2147483647 then some value else none

/-- The value of an expression of signs, differences and integer constants, unless a part of it
overflows. -/
def Expr.value? : Expr → Option Int
  | .integer n => inRange? n
  | .unary op operand => if op = ['-'] then operand.value?.bind (inRange? <| -·) else none
  | .binary op left right =>
    if op = ['-'] then left.value?.bind fun a => right.value?.bind fun b => inRange? (a - b)
    else none
  | _ => none

/-- A decimal constant of type `int`. With a zero in front it would be octal. -/
structure IsDecimal (t : Text) : Prop where
  digits : Digits t
  head : t = ['0'] ∨ ∃ c rest, t = c :: rest ∧ c ≠ '0'
  value_le : Nat.ofDigitChars 10 t 0 ≤ 2147483647

theorem isDecimal_ofNat {n : Nat} (h : n ≤ 2147483647) : IsDecimal (Text.ofNat n) where
  digits := digits_ofNat n
  head := by
    rcases Nat.eq_zero_or_pos n with rfl | hn
    · exact .inl rfl
    · exact .inr (ofNat_head hn)
  value_le := by
    rw [Text.ofNat, Nat.ofDigitChars_ten_toDigits]
    exact h

/-- Digits in C mean the number they spell. -/
theorem value?_integer {n : Nat} (h : n ≤ 2147483647) : (Expr.integer n).value? = some (n : Int) :=
  if_pos (by omega)

/-- The least number has no literal of its own in C and is written as a difference. -/
theorem integer_value (v : Int32) : (Literal.int v).inC.value? = some v.toInt := by
  have hlow := v.le_toInt
  have hhigh := v.toInt_lt
  rw [Literal.inC]
  split
  · rename_i hleast
    rw [hleast]
    rfl
  · split
    · rw [Expr.value?, if_pos rfl, value?_integer (by omega), Option.bind_some, inRange?,
        if_pos (by omega)]
      congr 1
      omega
    · rw [value?_integer (by omega)]
      congr 1
      omega

theorem integerLexemes_decimal (v : Int32) (t : Text) (h : .number t ∈ integerLexemes v) :
    IsDecimal t := by
  have hlow := v.le_toInt
  have hhigh := v.toInt_lt
  unfold integerLexemes at h
  split at h
  · simp only [List.mem_cons, Lexeme.number.injEq, reduceCtorEq, List.not_mem_nil, or_false,
      false_or] at h
    rcases h with rfl | rfl
    · exact isDecimal_ofNat (n := 2147483647) (Nat.le_refl _)
    · exact isDecimal_ofNat (n := 1) (by decide)
  · split at h
    · rename_i m hm
      obtain rfl : t = Text.ofNat m := by simpa using h
      rw [Int.ofNat_eq_natCast] at hm
      exact isDecimal_ofNat (by omega)
    · rename_i m hm
      obtain rfl : t = Text.ofNat (m + 1) := by simpa using h
      exact isDecimal_ofNat (by omega)

/-- An integer is written as an expression of decimal constants that has its value. -/
theorem integer_written (v : Int32) :
    (∃ e, expression? (Target.literal (.int v)) = some e ∧ e.value? = some v.toInt) ∧
      ∀ t, .number t ∈ lexemes (Target.literal (.int v)) → IsDecimal t := by
  have hlexemes : lexemes (Target.literal (.int v)) = integerLexemes v := (integer_scans v).lexemes
  constructor
  · exact ⟨_, (Target.readable_int v).isExpression.expression? hlexemes, integer_value v⟩
  · intro t ht
    rw [hlexemes] at ht
    exact integerLexemes_decimal v t ht

end C

theorem resolve_integers (body : List Surface.Statement) :
    (resolve body).program.integers = (Surface.Statement.integersAll body).map Resolver.taken ∧
      Resolver.overflows (resolve body).errors =
        (Surface.Statement.integersAll body).flatMap Resolver.reported := by
  obtain ⟨hsteps, -, herrors⟩ := resolve_run body
  obtain ⟨hvalues, hoverflows⟩ := Resolver.run_integers (Surface.steps body) .start
  rw [hsteps] at hvalues
  rw [herrors] at hoverflows
  exact ⟨hvalues, hoverflows⟩

/-- The digits of a numeral are one of the tokens. -/
theorem mem_of_numerals {tokens : List Token} {tree : Tree} (h : (parse tokens).tree = some tree)
    {n : Numeral} (hn : n ∈ tree.numerals) : n.digits ∈ tokens ∧ n.digits.kind = .int := by
  have hdigits : n.digits ∈ tree.kept.filter (·.kind = .int) := by
    rw [← tree.numerals_digits]
    exact List.mem_map_of_mem hn
  obtain ⟨hkept, hkind⟩ := List.mem_filter.mp hdigits
  refine ⟨?_, of_decide_eq_true hkind⟩
  have hleaf := tree.kept_subset hkept
  obtain ⟨first, more, rfl, hleaves, -⟩ := Grammar.parse_tree h
  rw [Grammar.leaves_program, hleaves] at hleaf
  rcases List.mem_append.mp hleaf with hbody | hending
  · exact (List.takeWhile_sublist _).subset hbody
  · have hsome : Parser.ending? tokens = some n.digits := by simpa using hending
    exact List.mem_of_find?_eq_some hsome

/-- Every integer token that is not skipped is one integer of the resolved program, together with the
minus sign before it if there is one, and keeps its value if this fits in 32 bits. Otherwise it is
zero and reported once; nothing else is reported as an overflow, and no statement is lost. In C an
integer is written with decimal constants that fit, and evaluating it gives its value and overflows
nowhere. -/
theorem integers_kept {tokens : List Token} {tree : Tree} (h : (parse tokens).tree = some tree)
    (hdigits : ∀ t ∈ tokens, t.kind = .int → Digits t.text) :
    tree.numerals.map (·.digits) = tree.kept.filter (·.kind = .int) ∧
    (resolve (Surface.ofTree tree)).program.integers =
      tree.numerals.map (fun n => ⟨n.location, if n.fits then n.value else 0⟩) ∧
    (resolve (Surface.ofTree tree)).errors.filter (·.value.isOverflow) =
      (tree.numerals.filter (!·.fits)).map Numeral.report ∧
    (∃ n, DenotesStatements 1 tree.children
      (resolve (Surface.ofTree tree)).program.statements n) ∧
    ∀ v : Int32,
      (∃ e, C.expression? (Target.literal (.int v)) = some e ∧ e.value? = some v.toInt) ∧
        ∀ t, .number t ∈ C.lexemes (Target.literal (.int v)) → C.IsDecimal t := by
  obtain ⟨hvalues, herrors⟩ := resolve_integers (Surface.ofTree tree)
  have hspelled (n : Numeral) (hn : n ∈ tree.numerals) : Digits n.digits.text :=
    hdigits _ (mem_of_numerals h hn).1 (mem_of_numerals h hn).2
  refine ⟨tree.numerals_digits, ?_, ?_,
    ⟨_, Resolver.statements_opens _ _ (Surface.parse_readsAll h) ⟨[⟨0, []⟩], 1, [], []⟩⟩,
    C.integer_written⟩
  · rw [hvalues, integers_ofTree h, List.map_map]
    exact List.map_congr_left fun n hn => Numeral.taken_written (hspelled n hn)
  · rw [← Numeral.reported_numerals hspelled, ← integers_ofTree h]
    exact herrors

/-- Integers on both sides of the bounds: behind two minus signs, behind parentheses, with zeros in
front, and with more digits than any that fits. -/
def integersAtBoundsSource : Source :=
  ⟨[], "x = - -5 - -2147483648; y = -(2147483648);\n".toList ++
    "print(007, 2147483647 - 2147483648, -0002147483649, -99999999999999999999);".toList⟩

theorem integers_kept_bounded :
    ∃ tree, (parse (Lexer.start integersAtBoundsSource).tokenize.tokens).tree = some tree ∧
      (resolve (Surface.ofTree tree)).program.integers.map (·.value) =
        [-5, -2147483648, 0, 7, 2147483647, 0, 0, 0] ∧
      ((resolve (Surface.ofTree tree)).errors.filter (·.value.isOverflow)).map (·.value) =
        [.integerOverflow "2147483648".toList, .integerOverflow "2147483648".toList,
          .integerOverflow "-0002147483649".toList,
          .integerOverflow "-99999999999999999999".toList] := by
  have htokens : (Lexer.start integersAtBoundsSource).tokens =
      ((Lexer.start integersAtBoundsSource).advance 120).1 :=
    Lexer.tokens_eq_advance (by decide +kernel)
  have hread : (parse (Lexer.start integersAtBoundsSource).tokenize.tokens).tree.map (fun tree =>
      tree.numerals.map fun n => (n.spelling, n.fits, n.value)) = some
      [("-5".toList, true, -5), ("-2147483648".toList, true, -2147483648),
        ("2147483648".toList, false, 2147483648), ("007".toList, true, 7),
        ("2147483647".toList, true, 2147483647), ("2147483648".toList, false, 2147483648),
        ("-0002147483649".toList, false, -2147483649),
        ("-99999999999999999999".toList, false, -99999999999999999999)] := by
    rw [Lexer.tokenize, htokens]
    decide +kernel
  obtain ⟨tree, htree, hnumerals⟩ := Option.map_eq_some_iff.mp hread
  have hdigits : ∀ t ∈ (Lexer.start integersAtBoundsSource).tokenize.tokens,
      t.kind = .int → Digits t.text :=
    fun t ht hkind => Lexer.tokens_int _ t (List.mem_filter.mp ht).1 hkind
  obtain ⟨-, hvalues, herrors, -⟩ := integers_kept htree hdigits
  refine ⟨tree, htree, ?_, ?_⟩
  · have hlist := congrArg (List.map fun t => if t.2.1 then t.2.2 else 0) hnumerals
    rw [List.map_map] at hlist
    rw [hvalues, List.map_map]
    exact hlist
  · have hlist := congrArg
      (fun ts => (ts.filter (!·.2.1)).map fun t => SemanticError.integerOverflow t.1) hnumerals
    rw [List.filter_map, List.map_map] at hlist
    rw [herrors, List.map_map]
    exact hlist

end ImpC
