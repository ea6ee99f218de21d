import Mathlib.Data.List.TakeWhile
import ImpC.Target.Basic
import ImpC.Proofs.C.Lexeme

/-!
# Emitted literals are read as literals

An integer is read as a number behind its sign, a floating-point number as one number, and a string
as one string literal.
-/
namespace ImpC.C

/-- What follows an expression. -/
def Ends (c : Char) : Prop := c = ' ' ∨ c = ')' ∨ c = ';' ∨ c = ','

theorem Ends.not_inWord {c : Char} (h : Ends c) : Pattern.inWord c = false := by
  rcases h with rfl | rfl | rfl | rfl <;> decide

theorem Ends.not_inNumber {c : Char} (h : Ends c) (t : Text) : inNumber t c = false := by
  rcases h with rfl | rfl | rfl | rfl <;> simp [inNumber, Pattern.inWord]

/-- Words and numbers cannot make a mark before them longer. -/
theorem not_joining_of_inWord {c : Char} (h : Pattern.inWord c = true) : c ∉ joining := by
  have hall : joining.all (!Pattern.inWord ·) = true := by decide
  intro hjoining
  have hc := List.all_eq_true.mp hall c hjoining
  simp [h] at hc

theorem inWord_digit {c : Char} (h : c.isDigit = true) : Pattern.inWord c = true := by
  simp [Pattern.inWord, Char.isAlphanum, h]

def Digits (t : Text) : Prop := ∀ c ∈ t, c.isDigit = true

theorem digits_ofNat (n : Nat) : Digits (Text.ofNat n) := fun _ hc =>
  Nat.isDigit_of_mem_toDigits (by decide) (by decide) hc

/-- No zero leads. -/
theorem ofNat_head {n : Nat} (hn : 0 < n) : ∃ c digits, Text.ofNat n = c :: digits ∧ c ≠ '0' := by
  induction n using Nat.strongRecOn with
  | ind n ih =>
    by_cases hlt : n < 10
    · refine ⟨n.digitChar, [], Nat.toDigits_of_lt_base hlt, ?_⟩
      rw [ne_eq, Nat.digitChar_eq_zero]
      omega
    · obtain ⟨c, digits, hc, hzero⟩ := ih (n / 10) (by omega) (by omega)
      have hsplit := @Nat.toDigits_append_toDigits 10 (n / 10) (n % 10) (by decide) (by omega)
        (by omega)
      rw [Nat.div_add_mod] at hsplit
      refine ⟨c, digits ++ Nat.toDigits 10 (n % 10), ?_, hzero⟩
      rw [Text.ofNat] at hc
      rw [Text.ofNat, ← hsplit, hc, List.cons_append]

theorem IsNumber.head {t : Text} (h : IsNumber t) : ∃ c u, t = c :: u ∧ c ∉ joining := by
  obtain ⟨c, u, rfl, hc, -⟩ := h
  exact ⟨c, u, rfl, not_joining_of_inWord (inWord_digit hc)⟩

theorem isWord_head {t : Text} (h : isWord t = true) : ∃ c u, t = c :: u ∧ c ∉ joining := by
  cases t with
  | nil => cases h
  | cons c t =>
    simp only [isWord, Bool.and_eq_true] at h
    exact ⟨c, t, rfl, not_joining_of_inWord (inWord_of_startsWord h.1)⟩

/-- A digit and what may follow it in a number. -/
theorem isNumber_of_plain {c : Char} {t : Text} (hc : c.isDigit = true)
    (ht : ∀ d ∈ t, (Pattern.inWord d || d = '.') = true) : IsNumber (c :: t) :=
  ⟨c, t, rfl, hc, run_number ht [c]⟩

theorem Digits.plain {t : Text} (h : Digits t) : ∀ d ∈ t, (Pattern.inWord d || d = '.') = true :=
  fun d hd => by simp [inWord_digit (h d hd)]

theorem Digits.isNumber {t : Text} (h : Digits t) (hne : t ≠ []) : IsNumber t := by
  cases t with
  | nil => exact absurd rfl hne
  | cons c t =>
    rw [Digits, List.forall_mem_cons] at h
    exact isNumber_of_plain h.1 (Digits.plain h.2)

theorem isNumber_ofNat (n : Nat) : IsNumber (Text.ofNat n) :=
  (digits_ofNat n).isNumber Nat.toDigits_ne_nil

theorem digits_zeros (n : Nat) : Digits (Layout.zeros n) := fun c hc => by
  rw [List.eq_of_mem_replicate hc]
  rfl

/-- With a point between digits or with zeros, a positional number starts with a digit. -/
theorem isNumber_positional {digits : Text} (h : Digits digits) (hne : digits ≠ []) (e : Int) :
    IsNumber (Layout.positional digits e) := by
  rw [Layout.positional]
  split
  · rw [List.cons_append, List.cons_append]
    refine isNumber_of_plain rfl fun d hd => ?_
    simp only [List.mem_cons, List.mem_append] at hd
    rcases hd with rfl | hd | hd
    · rfl
    · exact (digits_zeros _).plain d hd
    · exact h.plain d hd
  · cases digits with
    | nil => exact absurd rfl hne
    | cons c digits =>
      rw [Digits, List.forall_mem_cons] at h
      dsimp only
      rw [List.take_succ_cons, List.cons_append, List.cons_append]
      refine isNumber_of_plain h.1 fun d hd => ?_
      simp only [List.mem_append, List.mem_cons] at hd
      rcases hd with (hd | hd) | rfl | hd
      · exact Digits.plain h.2 d (List.mem_of_mem_take hd)
      · exact (digits_zeros _).plain d hd
      · rfl
      · split at hd
        · rw [List.mem_singleton.mp hd]
          rfl
        · exact Digits.plain h.2 d (List.mem_of_mem_drop (by simpa using hd))

/-- The sign of an exponent goes on with the number, as an `e` stands before it. -/
theorem run_exponent {read : Text} (hread : read.getLast? = some 'e') (e : Int) :
    (Mode.number read).run (Text.ofInt e) = some (.number (read ++ Text.ofInt e)) := by
  cases e with
  | ofNat n => exact run_number (digits_ofNat n).plain read
  | negSucc n =>
    have hsign : (Mode.number read).next? '-' = some (.number (read ++ ['-'])) := by
      simp [Mode.next?, inNumber, hread]
    rw [Text.ofInt, Mode.run, hsign, Option.bind_some, run_number (digits_ofNat _).plain,
      List.append_assoc, List.singleton_append]

theorem isNumber_withExponent {digits : Text} (h : Digits digits) (hne : digits ≠ []) (e : Int) :
    IsNumber (Layout.withExponent digits e) := by
  cases digits with
  | nil => exact absurd rfl hne
  | cons c digits =>
    rw [Digits, List.forall_mem_cons] at h
    -- the places, the letter and then the exponent
    let places : Text := if (c :: digits).length ≤ 1 then [] else '.' :: digits
    have hplaces : ∀ d ∈ places ++ ['e'], (Pattern.inWord d || d = '.') = true := by
      intro d hd
      rcases List.mem_append.mp hd with hd | hd
      · dsimp only [places] at hd
        split at hd
        · cases hd
        · rcases List.mem_cons.mp hd with rfl | hd
          · rfl
          · exact Digits.plain h.2 d hd
      · rw [List.mem_singleton.mp hd]
        rfl
    refine ⟨c, (places ++ ['e']) ++ Text.ofInt e, ?_, h.1, ?_⟩
    · simp [Layout.withExponent, places]
    · have hlast : ([c] ++ (places ++ ['e'])).getLast? = some 'e' :=
        List.getLast?_concat (l := c :: places)
      rw [run_append (run_number hplaces [c]), run_exponent hlast e]
      simp [Layout.withExponent, places]

theorem twoTo_pos (n : Nat) : 0 < twoTo n := Nat.pow_pos (by decide)

theorem tenTo_pos (n : Nat) : 0 < tenTo n := Nat.pow_pos (by decide)

/-- Zero is no way to write a number that is not. -/
theorem readsBack_zero {m : Nat} (hm : 0 < m) (q i : Int) : Decimal.readsBack m q 0 i = false := by
  have hbinary : 0 < (Decimal.scales q i).1 := Nat.mul_pos (twoTo_pos _) (tenTo_pos _)
  have hlow : 0 < Decimal.lowQuarters m q := by
    unfold Decimal.lowQuarters
    split <;> omega
  have hproduct := Nat.mul_pos hlow hbinary
  simp only [Decimal.readsBack, Nat.zero_mul]
  split
  · simp only [Bool.and_eq_false_iff, decide_eq_false_iff_not]
    omega
  · simp

theorem onGrid?_pos {m : Nat} (hm : 0 < m) {q i : Int} {c : Nat}
    (h : Decimal.onGrid? m q i = some c) : 0 < c := by
  have hreads : Decimal.readsBack m q c i = true := by
    simp only [Decimal.onGrid?] at h
    split at h
    · rename_i hc _
      exact Option.some.inj h ▸ hc
    · rename_i _ hc
      exact Option.some.inj h ▸ hc
    · rename_i hc hc'
      split at h
      · exact Option.some.inj h ▸ hc
      · exact Option.some.inj h ▸ hc'
    · cases h
  refine Nat.pos_of_ne_zero ?_
  rintro rfl
  rw [readsBack_zero hm] at hreads
  cases hreads

/-- The shortest decimal of a positive number has a digit other than zero. -/
theorem shortest_pos {m : Nat} (hm : 0 < m) (q : Int) : 0 < (Decimal.shortest m q).digits := by
  simp only [Decimal.shortest]
  cases hfound : (List.range 17).findSome? fun (k : Nat) =>
      (Decimal.onGrid? m q (Decimal.leadingExponent m q - k)).map fun c =>
        (⟨c, Decimal.leadingExponent m q - k⟩ : Decimal) with
  | none => exact hm
  | some d =>
    obtain ⟨k, -, hk⟩ := List.exists_of_findSome?_eq_some hfound
    obtain ⟨c, hc, rfl⟩ := Option.map_eq_some_iff.mp hk
    exact onGrid?_pos hm hc

theorem scientific_digits {d : Decimal} (hd : 0 < d.digits) :
    Digits d.scientific.1 ∧ d.scientific.1 ≠ [] := by
  constructor
  · intro c hc
    refine digits_ofNat d.digits c ?_
    exact List.mem_reverse.mp (List.dropWhile_subset _ (List.mem_reverse.mp hc))
  · obtain ⟨c, digits, hc, hzero⟩ := ofNat_head hd
    intro hnil
    have hall := List.reverse_eq_nil_iff.mp hnil
    rw [List.dropWhile_eq_nil_iff, hc] at hall
    exact hzero (of_decide_eq_true (hall c (List.mem_reverse.mpr List.mem_cons_self)))

theorem isNumber_magnitude (l : Layout) (m : Nat) (q : Int) : IsNumber (l.magnitude m q) := by
  rw [Layout.magnitude]
  split
  · exact isNumber_positional (by simp [Digits]) (by simp) 0
  · rename_i hm
    obtain ⟨hdigits, hne⟩ := scientific_digits (shortest_pos (Nat.pos_of_ne_zero hm) q)
    dsimp only
    split
    · exact isNumber_positional hdigits hne _
    · exact isNumber_withExponent hdigits hne _

/-- A number that is not negative is written without a sign, also beyond the finite ones. -/
theorem isNumber_floating {x : Double} (hx : x.isNegative = false) :
    IsNumber (Target.floating x) := by
  rw [Target.floating]
  split
  · simpa [Layout.write, hx] using isNumber_magnitude Target.layout x.significand x.exponent
  · exact isNumber_of_plain (c := '1') (t := ".0e999".toList) rfl (List.all_eq_true.mp (by decide))

def isOctal (c : Char) : Bool := "01234567".toList.contains c

/-- What a backslash and a character that is no digit stand for. -/
def simpleEscape? (c : Char) : Option Char :=
  if "\x27\"?\\".toList.contains c then some c
  else if c = 'a' then some '\x07'
  else if c = 'b' then some '\x08'
  else if c = 't' then some '\t'
  else if c = 'n' then some '\n'
  else if c = 'v' then some '\x0b'
  else if c = 'f' then some '\x0c'
  else if c = 'r' then some '\r'
  else none

/-- The character can be written as such. -/
def IsGraphic (c : Char) : Prop := 32 ≤ c.toNat ∧ c.toNat ≠ 127

instance (c : Char) : Decidable (IsGraphic c) := inferInstanceAs (Decidable (_ ∧ _))

/-- How a character is written in a string literal. -/
inductive Written (c : Char) : Text → Prop
  | simple {d : Char} (hd : simpleEscape? d = some c) (hoctal : isOctal d = false)
      (hgraphic : IsGraphic d) : Written c ['\\', d]
  | octal (hc : c.toNat < 128) : Written c ['\\', (c.toNat / 64).digitChar,
      (c.toNat / 8 % 8).digitChar, (c.toNat % 8).digitChar]
  | plain (hquote : c ≠ '"') (hbackslash : c ≠ '\\') (hquestion : c ≠ '?') (hgraphic : IsGraphic c) :
      Written c [c]

/-- Every character is written in one of the ways in which it is read back. -/
theorem escapeChar_written (c : Char) : Written c (Target.escapeChar c) := by
  unfold Target.escapeChar
  split
  · rename_i hself
    rcases hself with rfl | rfl | rfl <;> exact .simple (by decide) (by decide) (by decide)
  · rename_i hself
    split
    · rename_i hnewline
      rw [hnewline]
      exact .simple (by decide) (by decide) (by decide)
    · split
      · rename_i htab
        rw [htab]
        exact .simple (by decide) (by decide) (by decide)
      · split
        · rename_i hreturn
          rw [hreturn]
          exact .simple (by decide) (by decide) (by decide)
        · split
          · exact .octal (by omega)
          · rename_i hcontrol
            simp only [not_or] at hself hcontrol
            exact .plain hself.1 hself.2.1 hself.2.2 ⟨Nat.le_of_not_lt hcontrol.1, hcontrol.2⟩

/-- A backslash takes the next character with it. -/
theorem run_string_escaped (c : Char) (read : Text) :
    (Mode.string read false).run ['\\', c] = some (.string (read ++ ['\\', c]) false) := by
  simp [Mode.run, Mode.next?]

theorem digitChar_plain {n : Nat} (hn : n < 8) : n.digitChar ≠ '"' ∧ n.digitChar ≠ '\\' := by
  have hall : ∀ n < 8, n.digitChar ≠ '"' ∧ n.digitChar ≠ '\\' := by decide
  exact hall n hn

/-- A written character does not end the literal that it is in. -/
theorem Written.run {c : Char} {t : Text} (h : Written c t) (read : Text) :
    (Mode.string read false).run t = some (.string (read ++ t) false) := by
  cases h with
  | @simple d hd hoctal hgraphic => exact run_string_escaped d read
  | octal hc =>
    -- the first digit is escaped, and the other two are plain
    have hsecond := @digitChar_plain (c.toNat / 8 % 8) (by omega)
    have hthird := @digitChar_plain (c.toNat % 8) (by omega)
    simp [Mode.run, Mode.next?, hsecond, hthird]
  | plain hquote hbackslash hquestion hgraphic => simp [Mode.run, Mode.next?, hquote, hbackslash]

theorem run_escaped (t read : Text) :
    (Mode.string read false).run (t.flatMap Target.escapeChar) =
      some (.string (read ++ t.flatMap Target.escapeChar) false) := by
  induction t generalizing read with
  | nil => simp [Mode.run]
  | cons c t ih =>
    rw [List.flatMap_cons, run_append ((escapeChar_written c).run read), ih, List.append_assoc]

/-- An escaped text between quotes is one literal. -/
theorem isString_escape (t : Text) : IsString (Target.escape t) := by
  refine ⟨t.flatMap Target.escapeChar ++ ['"'], rfl, ?_⟩
  rw [run_append (run_escaped t ['"'])]
  simp [Mode.run, Mode.next?, Target.escape]

/-- How an integer is read: the least one is a difference. -/
def integerLexemes (n : Int32) : List Lexeme :=
  if n.toInt = -2147483648 then
    [.mark ['-'], .number "2147483647".toList, .mark ['-'], .number "1".toList]
  else match n.toInt with
    | .ofNat m => [.number (Text.ofNat m)]
    | .negSucc m => [.mark ['-'], .number (Text.ofNat (m + 1))]

def literalLexemes : Literal → List Lexeme
  | .int n => integerLexemes n
  | .float x => [.number (Target.floating x)]
  | .bool true => [.word "true".toList]
  | .bool false => [.word "false".toList]
  | .str t => [.string (Target.escape t)]

theorem scans_number_end {t : Text} (h : IsNumber t) : Scans Ends t [.number t] :=
  (scans_number h).mono fun _ hc => hc.not_inNumber t

theorem scans_word_end {t : Text} (h : isWord t = true) : Scans Ends t [.word t] :=
  (scans_word h).mono fun _ hc => hc.not_inWord

/-- The sign of a negative number is a lexeme of its own. -/
theorem scans_minus_number {t : Text} (h : IsNumber t) :
    Scans Ends ('-' :: t) [.mark ['-'], .number t] := by
  have hminus : Scans (fun c => c ∉ joining) ['-'] [.mark ['-']] := scans_mark (by decide)
  have hnumber := scans_number_end h
  obtain ⟨c, u, rfl, hc⟩ := h.head
  exact hminus.append hc hnumber

/-- Two operands with an operator between them. -/
theorem scans_infix {l r op : Text} {ls rs : List Lexeme} (hl : Scans Ends l ls)
    (hop : Scans (fun c => c ∉ joining) op [.mark op]) (hr : Scans Ends r rs) :
    Scans Ends (l ++ ' ' :: (op ++ ' ' :: r)) (ls ++ .mark op :: rs) := by
  have hright : Scans Ends (op ++ ' ' :: r) (.mark op :: rs) :=
    hop.append (by decide) (scans_space.andThen hr)
  exact hl.append (.inl rfl) (scans_space.andThen hright)

theorem integer_scans (n : Int32) : Scans Ends (Target.integer n) (integerLexemes n) := by
  unfold Target.integer integerLexemes
  split
  · have hfirst : Scans Ends "-2147483647".toList [.mark ['-'], .number "2147483647".toList] :=
      scans_minus_number (isNumber_of_plain (c := '2') rfl (List.all_eq_true.mp (by decide)))
    have hlast : Scans Ends "1".toList [.number "1".toList] :=
      scans_number_end (isNumber_of_plain (c := '1') rfl (List.all_eq_true.mp rfl))
    exact scans_infix hfirst (scans_mark (c := '-') (t := []) (by decide)) hlast
  · cases n.toInt with
    | ofNat m => exact scans_number_end (isNumber_ofNat m)
    | negSucc m => exact scans_minus_number (isNumber_ofNat (m + 1))

/-- Floating-point numbers are not negative, so that no sign stands before them. -/
def IsPlain : Literal → Prop
  | .float x => x.isNegative = false
  | _ => True

/-- A literal is scanned as its lexemes, with a sign for negative integers. -/
theorem literal_scans {v : Literal} (hv : IsPlain v) :
    Scans Ends (Target.literal v) (literalLexemes v) := by
  cases v with
  | int n => exact integer_scans n
  | float x => exact scans_number_end (isNumber_floating hv)
  | bool b =>
    cases b with
    | true => exact scans_word_end (by decide)
    | false => exact scans_word_end (by decide)
  | str t => exact (scans_string (isString_escape t)).weaken

end ImpC.C
