import Mathlib.Data.List.Forall2
import ImpC.Proofs.C.Literal

/-!
# Reading expressions of C

A reader of expressions over lexemes. A sign binds tighter than an operator between two operands;
these operators have six levels and group to the left; `?:` is looser than all of them and groups to
the right. Every word is an identifier. An integer constant is read as its value; other constants
and strings keep their spelling. Assignments, casts, subscripts, members and the operators on bits
are not read.
-/
namespace ImpC.C

inductive Expr where
  | name (text : Text)
  | integer (value : Nat)
  | constant (spelling : Text)
  | string (spelling : Text)
  | unary (op : Text) (operand : Expr)
  | binary (op : Text) (left right : Expr)
  | conditional (condition yes no : Expr)
  | call (function : Expr) (arguments : List Expr)

mutual

def Expr.same : Expr → Expr → Bool
  | .name a, .name b | .constant a, .constant b | .string a, .string b => a = b
  | .integer a, .integer b => a = b
  | .unary o a, .unary p b => o = p && a.same b
  | .binary o a b, .binary p c d => o = p && (a.same c && b.same d)
  | .conditional a b c, .conditional d e f => a.same d && (b.same e && c.same f)
  | .call f as, .call g bs => f.same g && Expr.sameAll as bs
  | _, _ => false

def Expr.sameAll : List Expr → List Expr → Bool
  | [], [] => true
  | a :: as, b :: bs => a.same b && Expr.sameAll as bs
  | _, _ => false

end

mutual

/-- Comparing expressions decides their equality. -/
theorem Expr.same_iff : ∀ a b : Expr, a.same b = true ↔ a = b
  | .name a, b | .constant a, b | .string a, b | .integer a, b => by
    cases b <;> simp [Expr.same]
  | .unary o a, b => by
    cases b <;> simp [Expr.same, Expr.same_iff a]
  | .binary o a b, c => by
    cases c <;> simp [Expr.same, Expr.same_iff a, Expr.same_iff b]
  | .conditional a b c, d => by
    cases d <;> simp [Expr.same, Expr.same_iff a, Expr.same_iff b, Expr.same_iff c]
  | .call f as, b => by
    cases b <;> simp [Expr.same, Expr.same_iff f, Expr.sameAll_iff as]

theorem Expr.sameAll_iff : ∀ as bs : List Expr, Expr.sameAll as bs = true ↔ as = bs
  | [], bs => by cases bs <;> simp [Expr.sameAll]
  | a :: as, bs => by
    cases bs <;> simp [Expr.sameAll, Expr.same_iff a, Expr.sameAll_iff as]

end

instance : DecidableEq Expr := fun a b => decidable_of_iff _ (Expr.same_iff a b)

/-- The operators between two operands, from the loosest level to the tightest. -/
def levels : List (List Text) :=
  [["||"], ["&&"], ["==", "!="], ["<", "<=", ">", ">="], ["+", "-"], ["*", "/", "%"]].map
    (·.map String.toList)

def signs : List Text := [['-'], ['!']]

/-- The value of an integer constant. After a zero the digits are octal. -/
def integer? : Text → Option Nat
  | '0' :: digits =>
    if digits.all (fun c => c.isDigit && c ≠ '8' && c ≠ '9') then
      some (digits.foldl (fun n c => 8 * n + (c.toNat - '0'.toNat)) 0)
    else none
  | digits => if digits.all Char.isDigit then some (Text.decimal digits) else none

def number (spelling : Text) : Expr :=
  match integer? spelling with
  | some value => .integer value
  | none => .constant spelling

abbrev LexemeReader (α : Type) := List Lexeme → Option (α × List Lexeme)

/-- The next mark, if it is one of `ms`. -/
def oneOf (ms : List Text) : LexemeReader Text
  | .mark m :: ls => if ms.contains m then some (m, ls) else none
  | _ => none

/-- Operators of one level and their right operands, after a left operand. -/
def grouped (ops : List Text) (operand : LexemeReader Expr) : Nat → Expr → LexemeReader Expr
  | 0, left, ls => some (left, ls)
  | n + 1, left, ls =>
    match oneOf ops ls with
    | none => some (left, ls)
    | some (op, ls) => do
      let (right, ls) ← operand ls
      grouped ops operand n (.binary op left right) ls

/-- Operations of some levels on operands that `operand` reads. -/
def tower (operand : LexemeReader Expr) (n : Nat) : List (List Text) → LexemeReader Expr
  | [], ls => operand ls
  | ops :: tighter, ls => do
    let (left, ls) ← tower operand n tighter ls
    grouped ops (tower operand n tighter) n left ls

def conditional (test : LexemeReader Expr) : Nat → LexemeReader Expr
  | 0, _ => none
  | n + 1, ls => do
    let (e, ls) ← test ls
    match oneOf [['?']] ls with
    | none => some (e, ls)
    | some (_, ls) => do
      let (yes, ls) ← conditional test n ls
      let (_, ls) ← oneOf [[':']] ls
      let (no, ls) ← conditional test n ls
      some (.conditional e yes no, ls)

/-- One argument or more, and the parenthesis after them. -/
def arguments (expression : LexemeReader Expr) : Nat → LexemeReader (List Expr)
  | 0, _ => none
  | n + 1, ls => do
    let (e, ls) ← expression ls
    match oneOf [[',']] ls with
    | none => do
      let (_, ls) ← oneOf [[')']] ls
      some ([e], ls)
    | some (_, ls) => do
      let (es, ls) ← arguments expression n ls
      some (e :: es, ls)

/-- The lists of arguments after a function. -/
def calls (expression : LexemeReader Expr) : Nat → Expr → LexemeReader Expr
  | 0, f, ls => some (f, ls)
  | n + 1, f, ls =>
    match oneOf [['(']] ls with
    | none => some (f, ls)
    | some (_, ls) =>
      match oneOf [[')']] ls with
      | some (_, ls) => calls expression n (.call f []) ls
      | none => do
        let (es, ls) ← arguments expression (n + 1) ls
        calls expression n (.call f es) ls

def primary (expression : LexemeReader Expr) : LexemeReader Expr
  | .word w :: ls => some (.name w, ls)
  | .number t :: ls => some (number t, ls)
  | .string t :: ls => some (.string t, ls)
  | ls => do
    let (_, ls) ← oneOf [['(']] ls
    let (e, ls) ← expression ls
    let (_, ls) ← oneOf [[')']] ls
    some (e, ls)

/-- An operand with its signs. Expressions inside it are read with a smaller bound on length. -/
def unary : Nat → LexemeReader Expr
  | 0, _ => none
  | n + 1, ls =>
    match oneOf signs ls with
    | some (op, ls) => do
      let (e, ls) ← unary n ls
      some (.unary op e, ls)
    | none => do
      let expression := conditional (tower (unary n) n levels) n
      let (f, ls) ← primary expression ls
      calls expression n f ls

/-- An expression of at most `n` lexemes. -/
def expression (n : Nat) : LexemeReader Expr := conditional (tower (unary n) n levels) n

/-- The expression that a text is as a whole. -/
def expression? (t : Text) : Option Expr :=
  match expression (lexemes t).length (lexemes t) with
  | some (e, []) => some e
  | _ => none

/-- The marks that go on with an expression before them. -/
def joiners : List Text := levels.flatten ++ [['?'], ['(']]

/-- What follows does not go on with an expression. -/
def Closes (rest : List Lexeme) : Prop := oneOf joiners rest = none

@[simp] theorem oneOf_mark {ms : List Text} {m : Text} (h : m ∈ ms) (ls : List Lexeme) :
    oneOf ms (.mark m :: ls) = some (m, ls) := by
  simp [oneOf, h]

theorem oneOf_other {ms : List Text} {m : Text} (h : m ∉ ms) (ls : List Lexeme) :
    oneOf ms (.mark m :: ls) = none := by
  simp [oneOf, h]

/-- Where none of more marks stands, none of fewer does. -/
theorem oneOf_none_mono {ms ms' : List Text} (h : ms ⊆ ms') {ls : List Lexeme}
    (hls : oneOf ms' ls = none) : oneOf ms ls = none := by
  cases ls with
  | nil => rfl
  | cons l ls =>
    cases l with
    | mark m =>
      have hm : m ∉ ms' := by simpa [oneOf] using hls
      exact oneOf_other (fun hmem => hm (h hmem)) ls
    | word | number | string => rfl

/-- Where an expression is closed, no operator of any level follows. -/
theorem Closes.oneOf {ms : List Text} {rest : List Lexeme} (h : Closes rest) (hms : ms ⊆ joiners) :
    oneOf ms rest = none :=
  oneOf_none_mono hms h

theorem closes_nil : Closes [] := rfl

theorem closes_mark {m : Text} (h : m ∉ joiners) (ls : List Lexeme) : Closes (.mark m :: ls) :=
  oneOf_other h ls

/-- The lexemes are read as an operand, if no list of arguments follows. -/
def IsOperand (ls : List Lexeme) (e : Expr) : Prop :=
  ∀ n rest, ls.length ≤ n → oneOf [['(']] rest = none → unary n (ls ++ rest) = some (e, rest)

/-- The lexemes are read as an expression, if nothing follows that goes on with it. -/
def IsExpression (ls : List Lexeme) (e : Expr) : Prop :=
  ∀ n rest, ls.length ≤ n → Closes rest → expression n (ls ++ rest) = some (e, rest)

/-- A level ends before a lexeme that is none of its operators. -/
theorem grouped_stop {ops : List Text} {rest : List Lexeme} (h : oneOf ops rest = none)
    (operand : LexemeReader Expr) (n : Nat) (e : Expr) :
    grouped ops operand n e rest = some (e, rest) := by
  cases n with
  | zero => rfl
  | succ n => rw [grouped, h]

/-- Looser operators that do not follow change nothing. -/
theorem tower_append {operand : LexemeReader Expr} {n : Nat} {looser tighter : List (List Text)}
    {ls rest : List Lexeme} {e : Expr} (h : tower operand n tighter ls = some (e, rest))
    (hrest : ∀ ops ∈ looser, oneOf ops rest = none) :
    tower operand n (looser ++ tighter) ls = some (e, rest) := by
  induction looser with
  | nil => exact h
  | cons ops looser ih =>
    rw [List.forall_mem_cons] at hrest
    rw [List.cons_append, tower, ih hrest.2]
    exact grouped_stop hrest.1 _ n e

/-- An operand that no operator follows is read at every level. -/
theorem tower_operand {operand : LexemeReader Expr} {n : Nat} {ops : List (List Text)}
    {ls rest : List Lexeme} {e : Expr} (h : operand ls = some (e, rest))
    (hrest : ∀ level ∈ ops, oneOf level rest = none) :
    tower operand n ops ls = some (e, rest) := by
  have hnone : tower operand n [] ls = some (e, rest) := h
  have happend := tower_append hnone hrest
  rwa [List.append_nil] at happend

theorem conditional_stop {test : LexemeReader Expr} {n : Nat} {ls rest : List Lexeme} {e : Expr}
    (h : test ls = some (e, rest)) (hrest : oneOf [['?']] rest = none) :
    conditional test (n + 1) ls = some (e, rest) := by
  rw [conditional, h]
  simp [hrest]

theorem calls_stop {expression : LexemeReader Expr} {rest : List Lexeme}
    (h : oneOf [['(']] rest = none) (n : Nat) (f : Expr) :
    calls expression n f rest = some (f, rest) := by
  cases n with
  | zero => rfl
  | succ n => rw [calls, h]

theorem level_subset {ops : List Text} (h : ops ∈ levels) : ops ⊆ joiners := fun _ hm =>
  List.mem_append_left _ (List.mem_flatten.mpr ⟨ops, h, hm⟩)

/-- An operand alone is an expression. -/
theorem IsOperand.isExpression {ls : List Lexeme} {e : Expr} (h : IsOperand ls e) :
    IsExpression ls e := by
  intro n rest hn hrest
  have hoperand := h n rest hn (hrest.oneOf (by decide))
  cases n with
  | zero => cases hoperand
  | succ n =>
    have htower := tower_operand (n := n + 1) hoperand
      fun ops hops => hrest.oneOf (level_subset hops)
    exact conditional_stop htower (hrest.oneOf (by decide))

/-- What starts with no sign is a primary and the calls behind it. -/
theorem unary_plain {ls : List Lexeme} (h : oneOf signs ls = none) (n : Nat) :
    unary (n + 1) ls =
      (primary (expression n) ls).bind fun p => calls (expression n) n p.1 p.2 := by
  rw [unary, h]
  rfl

/-- A sign goes before an operand and not before an operation. -/
theorem isOperand_sign {op : Text} (hop : op ∈ signs) {ls : List Lexeme} {e : Expr}
    (h : IsOperand ls e) : IsOperand (.mark op :: ls) (.unary op e) := by
  intro n rest hn hrest
  cases n with
  | zero => cases hn
  | succ n =>
    have hoperand := h n rest (Nat.le_of_succ_le_succ hn) hrest
    rw [List.cons_append, unary, oneOf_mark hop]
    simp [hoperand]

example : expression? "- -x".toList = expression? "-(-x)".toList ∧
    expression? "--x".toList = none := by
  decide +kernel

/-- A word, a constant or a string. -/
theorem isOperand_single {l : Lexeme} {e : Expr}
    (h : ∀ expression rest, primary expression (l :: rest) = some (e, rest))
    (hl : ∀ rest, oneOf signs (l :: rest) = none) : IsOperand [l] e := by
  intro n rest hn hrest
  cases n with
  | zero => cases hn
  | succ n =>
    rw [List.singleton_append, unary_plain (hl rest), h, Option.bind_some, calls_stop hrest]

theorem isOperand_word (w : Text) : IsOperand [.word w] (.name w) :=
  isOperand_single (fun _ _ => rfl) fun _ => rfl

theorem isOperand_number (t : Text) : IsOperand [.number t] (number t) :=
  isOperand_single (fun _ _ => rfl) fun _ => rfl

theorem isOperand_string (t : Text) : IsOperand [.string t] (.string t) :=
  isOperand_single (fun _ _ => rfl) fun _ => rfl

/-- Parentheses make any expression an operand. -/
theorem isOperand_parenthesized {ls : List Lexeme} {e : Expr} (h : IsExpression ls e) :
    IsOperand (.mark ['('] :: ls ++ [.mark [')']]) e := by
  intro n rest hn hrest
  cases n with
  | zero => cases hn
  | succ n =>
    have hlength : ls.length ≤ n := by
      simp only [List.cons_append, List.length_cons, List.length_append] at hn
      omega
    have hinner := h n (.mark [')'] :: rest) hlength (closes_mark (by decide) rest)
    have hsign : oneOf signs (.mark ['('] :: (ls ++ .mark [')'] :: rest)) = none :=
      oneOf_other (by decide) _
    have hprimary : primary (expression n) (.mark ['('] :: (ls ++ .mark [')'] :: rest)) =
        some (e, rest) := by
      simp [primary, hinner]
    rw [List.append_assoc, List.singleton_append, List.cons_append, unary_plain hsign, hprimary,
      Option.bind_some, calls_stop hrest]

/-- Two operands and the operator between them, at its level. -/
theorem isExpression_binary {looser tighter : List (List Text)} {ops : List Text} {op : Text}
    (hlevels : levels = looser ++ ops :: tighter) (hop : op ∈ ops) (htighter : op ∉ tighter.flatten)
    (hcall : op ∉ [['(']]) {ls ms : List Lexeme} {x y : Expr} (hx : IsOperand ls x)
    (hy : IsOperand ms y) : IsExpression (ls ++ .mark op :: ms) (.binary op x y) := by
  intro n rest hn hrest
  rw [List.length_append, List.length_cons] at hn
  obtain ⟨n, rfl⟩ : ∃ m, n = m + 1 := ⟨n - 1, by omega⟩
  have hstop : ∀ level ∈ levels, oneOf level rest = none :=
    fun level hlevel => hrest.oneOf (level_subset hlevel)
  rw [hlevels, List.forall_mem_append, List.forall_mem_cons] at hstop
  obtain ⟨hlooser, hops, htight⟩ := hstop
  have hleft : tower (unary (n + 1)) (n + 1) tighter (ls ++ .mark op :: (ms ++ rest)) =
      some (x, .mark op :: (ms ++ rest)) := by
    refine tower_operand (hx (n + 1) _ (by omega) (oneOf_other hcall _)) fun level hlevel => ?_
    exact oneOf_other (fun hmem => htighter (List.mem_flatten.mpr ⟨level, hlevel, hmem⟩)) _
  have hright : tower (unary (n + 1)) (n + 1) tighter (ms ++ rest) = some (y, rest) :=
    tower_operand (hy (n + 1) rest (by omega) (hrest.oneOf (by decide))) htight
  have hboth : tower (unary (n + 1)) (n + 1) (ops :: tighter) (ls ++ .mark op :: (ms ++ rest)) =
      some (.binary op x y, rest) := by
    rw [tower, hleft]
    simp [grouped, hop, hright, grouped_stop hops]
  have htower := tower_append hboth hlooser
  rw [← hlevels] at htower
  rw [List.append_assoc, List.cons_append]
  exact conditional_stop htower (hrest.oneOf (by decide))

example : expression? "a - b - c * d".toList = expression? "(a - b) - (c * d)".toList := by
  decide +kernel

/-- A choice between operands needs no parentheses of its own. -/
theorem isExpression_conditional {ls ms ks : List Lexeme} {x y z : Expr} (hx : IsOperand ls x)
    (hy : IsOperand ms y) (hz : IsOperand ks z) :
    IsExpression (ls ++ .mark ['?'] :: (ms ++ .mark [':'] :: ks)) (.conditional x y z) := by
  intro n rest hn hrest
  simp only [List.length_append, List.length_cons] at hn
  obtain ⟨n, rfl⟩ : ∃ m, n = m + 1 + 1 := ⟨n - 2, by omega⟩
  -- the part before a mark that is no operator
  have hpart {ls : List Lexeme} {e : Expr} (h : IsOperand ls e) (hlength : ls.length ≤ n + 1 + 1)
      {m : Text} (hm : m ∉ levels.flatten) (hcall : m ∉ [['(']]) (after : List Lexeme) :
      tower (unary (n + 1 + 1)) (n + 1 + 1) levels (ls ++ .mark m :: after) =
        some (e, .mark m :: after) :=
    tower_operand (h _ _ hlength (oneOf_other hcall _)) fun level hlevel =>
      oneOf_other (fun hmem => hm (List.mem_flatten.mpr ⟨level, hlevel, hmem⟩)) _
  have htest := hpart hx (by omega) (m := ['?']) (by decide) (by decide)
    (ms ++ .mark [':'] :: (ks ++ rest))
  have hyes := conditional_stop (n := n)
    (hpart hy (by omega) (m := [':']) (by decide) (by decide) (ks ++ rest))
    (oneOf_other (by decide) _)
  have hlast := tower_operand (n := n + 1 + 1)
    (hz (n + 1 + 1) rest (by omega) (hrest.oneOf (by decide)))
    fun level hlevel => hrest.oneOf (level_subset hlevel)
  have hno := conditional_stop (n := n) hlast (hrest.oneOf (by decide))
  simp only [List.append_assoc, List.cons_append]
  rw [expression, conditional, htest]
  simp [hyes, hno]

example : expression? "a ? b : c ? d : e || f".toList =
    expression? "a ? b : (c ? d : (e || f))".toList := by
  decide +kernel

theorem tower_none {operand : LexemeReader Expr} {ls : List Lexeme} (h : operand ls = none)
    (n : Nat) (ops : List (List Text)) : tower operand n ops ls = none := by
  induction ops with
  | nil => exact h
  | cons level ops ih =>
    rw [tower, ih]
    rfl

/-- No expression starts with a closing parenthesis. -/
theorem expression_closing (n : Nat) (ls : List Lexeme) :
    expression n (.mark [')'] :: ls) = none := by
  cases n with
  | zero => rfl
  | succ n =>
    have hunary : unary (n + 1) (.mark [')'] :: ls) = none := by
      rw [unary_plain (oneOf_other (by decide) ls)]
      simp [primary, oneOf]
    rw [expression, conditional, tower_none hunary]
    rfl

/-- An expression does not start with a closing parenthesis, so a call with arguments is not taken
for one without. -/
theorem IsExpression.not_closing {ls : List Lexeme} {e : Expr} (h : IsExpression ls e)
    (rest : List Lexeme) : oneOf [[')']] (ls ++ rest) = none := by
  cases ls with
  | nil => cases h 0 [] (Nat.le_refl 0) rfl
  | cons l ls =>
    cases l with
    | mark m =>
      by_cases hm : m = [')']
      · have hread := h _ [] (Nat.le_refl _) rfl
        rw [hm, List.cons_append, expression_closing] at hread
        cases hread
      · exact oneOf_other (by simpa using hm) _
    | word | number | string => rfl

theorem length_le_intercalate (l : Lexeme) (parts : List (List Lexeme)) :
    parts.length ≤ (List.intercalate [l] parts).length + 1 := by
  induction parts with
  | nil => exact Nat.zero_le _
  | cons part parts ih =>
    cases parts with
    | nil => simp
    | cons _ _ =>
      rw [List.intercalate_cons_cons, List.length_append, List.length_append, List.length_cons,
        List.length_singleton]
      omega

theorem arguments_read {parts : List (List Lexeme)} {es : List Expr}
    (h : List.Forall₂ IsExpression parts es) (hne : parts ≠ []) {n : Nat} (rest : List Lexeme)
    (hn : (List.intercalate [.mark [',']] parts).length ≤ n) {m : Nat} (hm : parts.length ≤ m) :
    arguments (expression n) m (List.intercalate [.mark [',']] parts ++ .mark [')'] :: rest) =
      some (es, rest) := by
  induction h generalizing m with
  | nil => exact absurd rfl hne
  | @cons part e parts es hfirst hmore ih =>
    obtain ⟨m, rfl⟩ : ∃ k, m = k + 1 := ⟨m - 1, by simp at hm; omega⟩
    cases hmore with
    | nil =>
      have hlength : part.length ≤ n := by simpa using hn
      have hread := hfirst n (.mark [')'] :: rest) hlength (closes_mark (by decide) rest)
      rw [List.intercalate_singleton, arguments, hread]
      simp [oneOf]
    | cons _ _ =>
      rw [List.intercalate_cons_cons, List.length_append, List.length_append] at hn
      rw [List.length_cons] at hm
      have hread := fun after => hfirst n (.mark [','] :: after) (by omega)
        (closes_mark (by decide) after)
      have htail := ih (List.cons_ne_nil _ _) (by omega) (Nat.le_of_succ_le_succ hm)
      rw [List.intercalate_cons_cons, List.append_assoc, List.append_assoc, List.singleton_append,
        arguments, hread]
      simp [htail]

/-- A call of a function by its name, with its arguments between commas. -/
theorem isOperand_call (f : Text) {parts : List (List Lexeme)} {es : List Expr}
    (h : List.Forall₂ IsExpression parts es) :
    IsOperand (.word f :: .mark ['('] :: List.intercalate [.mark [',']] parts ++ [.mark [')']])
      (.call (.name f) es) := by
  intro n rest hn hrest
  simp only [List.cons_append, List.length_cons, List.length_append, List.length_nil] at hn
  obtain ⟨n, rfl⟩ : ∃ m, n = m + 1 + 1 := ⟨n - 2, by omega⟩
  simp only [List.cons_append, List.append_assoc, List.nil_append]
  rw [unary_plain rfl, primary, Option.bind_some, calls, oneOf_mark (List.mem_singleton_self _)]
  cases h with
  | nil => simp [calls_stop hrest]
  | @cons part e parts es hfirst hmore =>
    obtain ⟨after, hafter⟩ :
        ∃ after, List.intercalate [.mark [',']] (part :: parts) = part ++ after := by
      cases parts with
      | nil => exact ⟨[], by simp⟩
      | cons _ _ => exact ⟨_, by rw [List.intercalate_cons_cons, List.append_assoc]⟩
    have hopen := hfirst.not_closing (after ++ .mark [')'] :: rest)
    rw [← List.append_assoc, ← hafter] at hopen
    have hlength := length_le_intercalate (.mark [',']) (part :: parts)
    have hread := arguments_read (.cons hfirst hmore) (List.cons_ne_nil _ _) rest
      (n := n + 1) (by omega) (m := n + 1) (by omega)
    simp [hopen, hread, calls_stop hrest]

theorem integer?_ofNat (n : Nat) : integer? (Text.ofNat n) = some n := by
  rcases Nat.eq_zero_or_pos n with rfl | hn
  · rfl
  · have hdigits : (Text.ofNat n).all Char.isDigit = true := List.all_eq_true.mpr (digits_ofNat n)
    have hvalue : Text.decimal (Text.ofNat n) = n := Nat.ofDigitChars_ten_toDigits
    obtain ⟨c, digits, hc, hzero⟩ := ofNat_head hn
    rw [hc] at hdigits hvalue ⊢
    simp [integer?, hzero, hdigits, hvalue]

theorem integer?_of_mem {t : Text} {c : Char} (hc : c ∈ t) (hdigit : c.isDigit = false) :
    integer? t = none := by
  unfold integer?
  split
  · rename_i digits
    have hmem : c ∈ digits := by
      rcases List.mem_cons.mp hc with rfl | hmem
      · cases hdigit
      · exact hmem
    refine if_neg fun hall => ?_
    have hc' := List.all_eq_true.mp hall c hmem
    simp [hdigit] at hc'
  · refine if_neg fun hall => ?_
    rw [List.all_eq_true.mp hall c hc] at hdigit
    cases hdigit

/-- A floating-point constant has a point or an exponent. -/
theorem magnitude_not_digits (l : Layout) (m : Nat) (q : Int) :
    ∃ c ∈ l.magnitude m q, c.isDigit = false := by
  have hpoint (digits : Text) (e : Int) : '.' ∈ Layout.positional digits e := by
    unfold Layout.positional
    split <;> simp
  have hexponent (digits : Text) (e : Int) : 'e' ∈ Layout.withExponent digits e := by
    simp [Layout.withExponent]
  rw [Layout.magnitude]
  split
  · exact ⟨'.', hpoint _ _, rfl⟩
  · dsimp only
    split
    · exact ⟨'.', hpoint _ _, rfl⟩
    · exact ⟨'e', hexponent _ _, rfl⟩

/-- The point or the exponent keeps a floating constant from being read as an integer. -/
theorem integer?_floating (x : Double) : integer? (Target.floating x) = none := by
  rw [Target.floating]
  split
  · obtain ⟨c, hc, hdigit⟩ := magnitude_not_digits Target.layout x.significand x.exponent
    exact integer?_of_mem (List.mem_append_right _ hc) hdigit
  · rfl

/-- A blank behind a text adds no lexeme to it, unless the text ends inside a string. -/
theorem scan_blank_or_string (m : Mode) (t : Text) :
    (∃ ls s, scan m (t ++ [';']) = ls ++ [.string s]) ∨ scan m (t ++ [' ']) = scan m t := by
  induction t generalizing m with
  | nil =>
    cases m with
    | string s escaped =>
      left
      cases escaped with
      | true => exact ⟨[], _, rfl⟩
      | false => exact ⟨[], _, rfl⟩
    | mark s =>
      right
      have hnext : (Mode.mark s).next? ' ' = none := by
        cases s with
        | nil => rfl
        | cons c s => exact next?_mark (List.cons_ne_nil c s) (by decide)
      simp only [List.nil_append, scan, hnext]
      exact List.append_nil _
    | word s =>
      right
      rfl
    | number s =>
      right
      have hnext : (Mode.number s).next? ' ' = none := by
        simp [Mode.next?, inNumber, Pattern.inWord]
      simp only [List.nil_append, scan, hnext]
      exact List.append_nil _
    | comment star =>
      right
      cases star with
      | true => rfl
      | false => rfl
    | between | closed | line =>
      right
      rfl
  | cons c t ih =>
    rw [List.cons_append, List.cons_append, scan, scan, scan]
    cases m.next? c with
    | some m' => exact ih m'
    | none =>
      rcases ih (enter c) with ⟨ls, s, hstring⟩ | hsame
      · left
        exact ⟨m.finish ++ ls, s, by rw [List.append_assoc, ← hstring]⟩
      · right
        dsimp only
        rw [hsame]

/-- A text that is read as some lexemes before any end of an expression is read as them alone. -/
theorem Scans.lexemes {t : Text} {ls : List Lexeme} (h : Scans Ends t ls) : lexemes t = ls := by
  have hblank : scan .between (t ++ [' ']) = ls := (h ' ' [] (.inl rfl)).trans (List.append_nil ls)
  have hend : scan .between (t ++ [';']) = ls ++ [.mark [';']] := h ';' [] (.inr (.inr (.inl rfl)))
  rcases scan_blank_or_string .between t with ⟨ms, s, hstring⟩ | hsame
  · have hlast := (List.append_inj_right' (hend.symm.trans hstring) rfl)
    cases hlast
  · exact hsame.symm.trans hblank

/-- The bound that reading starts with is enough for any text. -/
theorem IsExpression.expression? {t : Text} {ls : List Lexeme} {e : Expr} (h : IsExpression ls e)
    (ht : lexemes t = ls) : expression? t = some e := by
  have hread := h ls.length [] (Nat.le_refl _) closes_nil
  rw [List.append_nil] at hread
  rw [C.expression?, ht, hread]

end ImpC.C
