import ImpC.Proofs.C.Expression
import ImpC.Proofs.C.Scope
import ImpC.Proofs.C.StringLiteral

/-!
# The calls of `printf` in C

The types of expressions in C, as far as they are read here, the conversions of a format with what
each of them expects, and a reader of all calls of `printf` in a text, each from its name on.
-/
namespace ImpC.C

open ImpC.Target

/-- The type of an operand of arithmetic. A truth value is an `int` there. -/
def promote? : CType → Option CType
  | .int | .bool => some .int
  | .double => some .double
  | .text => none

def balance? (a b : CType) : Option CType :=
  match promote? a, promote? b with
  | some .int, some .int => some .int
  | some _, some _ => some .double
  | _, _ => none

def truthOperators : List Text := ["||", "&&", "==", "!=", "<", "<=", ">", ">="].map String.toList

def inFloating (c : Char) : Bool := c.isDigit || ".eE+-".toList.contains c

/-- A constant that is a floating-point one without a suffix. -/
def isFloating (spelling : Text) : Bool := spelling.all inFloating && spelling.any (!·.isDigit)

/-- The type of an expression, when the variables have the types `env`. What a call gives is not
known, and neither is the type of an integer constant that does not fit in an `int`. -/
def Expr.type? (env : Text → Option CType) : Expr → Option CType
  | .name w => if ["true".toList, "false".toList].contains w then some .int else env w
  | .integer n => if n ≤ 2147483647 then some .int else none
  | .constant spelling => if isFloating spelling then some .double else none
  | .string _ => some .text
  | .unary op operand => if op = ['!'] then some .int else (operand.type? env).bind promote?
  | .binary op left right =>
    if truthOperators.contains op then some .int
    else do
      let type ← balance? (← left.type? env) (← right.type? env)
      if op = ['%'] ∧ type ≠ .int then none else some type
  | .conditional _ yes no => do
    let yes ← yes.type? env
    let no ← no.type? env
    if yes = .text ∧ no = .text then some .text else balance? yes no
  | .call _ _ => none

theorem inFloating_digits {t : Text} (h : Digits t) : ∀ c ∈ t, inFloating c = true :=
  fun c hc => by simp [inFloating, h c hc]

theorem positional_floating {digits : Text} (h : Digits digits) (e : Int) :
    ∀ c ∈ Layout.positional digits e, inFloating c = true := by
  intro c hc
  unfold Layout.positional at hc
  split at hc
  · simp only [List.cons_append, List.mem_cons, List.mem_append] at hc
    rcases hc with rfl | rfl | hc | hc
    · rfl
    · rfl
    · exact inFloating_digits (digits_zeros _) c hc
    · exact inFloating_digits h c hc
  · simp only [List.mem_append, List.mem_cons] at hc
    rcases hc with (hc | hc) | rfl | hc
    · exact inFloating_digits h c (List.mem_of_mem_take hc)
    · exact inFloating_digits (digits_zeros _) c hc
    · rfl
    · split at hc
      · rw [List.mem_singleton.mp hc]
        rfl
      · exact inFloating_digits h c (List.mem_of_mem_drop hc)

theorem withExponent_floating {digits : Text} (h : Digits digits) (e : Int) :
    ∀ c ∈ Layout.withExponent digits e, inFloating c = true := by
  intro c hc
  simp only [Layout.withExponent, List.mem_append, List.mem_cons] at hc
  rcases hc with (hc | hc) | rfl | hc
  · exact inFloating_digits h c (List.mem_of_mem_take hc)
  · split at hc
    · cases hc
    · rcases List.mem_cons.mp hc with rfl | hc
      · rfl
      · exact inFloating_digits h c (List.mem_of_mem_drop hc)
  · rfl
  · cases e with
    | ofNat n => exact inFloating_digits (digits_ofNat n) c hc
    | negSucc n =>
      rcases List.mem_cons.mp hc with rfl | hc
      · rfl
      · exact inFloating_digits (digits_ofNat _) c hc

theorem magnitude_floating (l : Layout) (m : Nat) (q : Int) :
    ∀ c ∈ l.magnitude m q, inFloating c = true := by
  rw [Layout.magnitude]
  split
  · exact positional_floating (by simp [Digits]) 0
  · rename_i hm
    obtain ⟨hdigits, -⟩ := scientific_digits (shortest_pos (Nat.pos_of_ne_zero hm) q)
    dsimp only
    split
    · exact positional_floating hdigits _
    · exact withExponent_floating hdigits _

/-- Floating constants are told from integers by their characters. -/
theorem isFloating_floating (x : Double) : isFloating (floating x) = true := by
  rw [floating]
  split
  · obtain ⟨c, hc, hdigit⟩ := magnitude_not_digits layout x.significand x.exponent
    rw [isFloating, Bool.and_eq_true, List.all_eq_true, List.any_eq_true, Layout.write]
    refine ⟨List.forall_mem_append.mpr ⟨?_, magnitude_floating _ _ _⟩,
      c, List.mem_append_right _ hc, by simp [hdigit]⟩
    split <;> simp [inFloating]
  · rfl

/-- The conversions of a format, by their letters. Flags, widths and precisions are not read. -/
def conversions : Text → List Char
  | [] => []
  | '%' :: '%' :: t => conversions t
  | '%' :: c :: t => c :: conversions t
  | _ :: t => conversions t

/-- The type of what a conversion prints. -/
def expected? (conversion : Char) : Option CType :=
  if conversion = 'd' then some .int
  else if conversion = 'g' then some .double
  else if conversion = 's' then some .text
  else none

/-- A format of some conversions, with blanks between them and the end of the line after them. -/
def lineFormat (cs : List Char) : Text := List.intercalate [' '] (cs.map fun c => ['%', c]) ++ ['\n']

theorem lineFormat_cons_cons (c d : Char) (cs : List Char) :
    lineFormat (c :: d :: cs) = '%' :: c :: ' ' :: lineFormat (d :: cs) := by
  simp [lineFormat, List.intercalate_cons_cons]

/-- The conversions of a format are the letters behind its percent signs. -/
theorem conversions_lineFormat {cs : List Char} (h : ∀ c ∈ cs, c ≠ '%') :
    conversions (lineFormat cs) = cs := by
  induction cs with
  | nil => rfl
  | cons c cs ih =>
    rw [List.forall_mem_cons] at h
    have hfirst (t : Text) : conversions ('%' :: c :: t) = c :: conversions t := by
      simp [conversions, h.1]
    cases cs with
    | nil => exact hfirst _
    | cons d cs =>
      have hblank (t : Text) : conversions (' ' :: t) = conversions t := by simp [conversions]
      rw [lineFormat_cons_cons, hfirst, hblank, ih h.2]

/-- The format of a line is written as it is, but for its end. -/
theorem escape_lineFormat {cs : List Char} (h : ∀ c ∈ cs, escapeChar c = [c]) :
    escape (lineFormat cs) =
      '"' :: List.intercalate [' '] (cs.map fun c => ['%', c]) ++ "\\n\"".toList := by
  have hpercent : escapeChar '%' = ['%'] := by decide
  have hblank : escapeChar ' ' = [' '] := by decide
  have hend : escapeChar '\n' = ['\\', 'n'] := by decide
  have hbody : (lineFormat cs).flatMap escapeChar =
      List.intercalate [' '] (cs.map fun c => ['%', c]) ++ ['\\', 'n'] := by
    induction cs with
    | nil => exact hend
    | cons c cs ih =>
      rw [List.forall_mem_cons] at h
      cases cs with
      | nil => simp [lineFormat, h.1, hpercent, hend]
      | cons d cs =>
        simp only [lineFormat_cons_cons, List.flatMap_cons, hpercent, hblank, h.1, ih h.2]
        simp [List.intercalate_cons_cons]
  rw [escape, hbody, List.cons_append, List.append_assoc]
  rfl

def printfName : Text := "printf".toList

/-- The calls of `printf` in some lexemes, in order, each read from its name on. -/
def printfs : List Lexeme → List (Option Expr)
  | [] => []
  | l :: ls =>
    (if l = .word printfName ∧ ls.head? = some (.mark ['(']) then
      [(unary (ls.length + 1) (l :: ls)).map Prod.fst] else []) ++ printfs ls

def printfsIn (t : Text) : List (Option Expr) := printfs (lexemes t)

/-- A lexeme that does not start a call of the printing function is passed over. -/
theorem printfs_cons {l : Lexeme} {ls : List Lexeme}
    (h : l ≠ .word printfName ∨ ls.head? ≠ some (.mark ['('])) : printfs (l :: ls) = printfs ls := by
  have hnot : ¬ (l = .word printfName ∧ ls.head? = some (.mark ['('])) := by
    rintro ⟨hl, hls⟩
    exact h.elim (· hl) (· hls)
  rw [printfs, if_neg hnot, List.nil_append]

/-- The lexemes have the calls `es`, whatever follows them. -/
def Prints (ls : List Lexeme) (es : List Expr) : Prop :=
  ∀ rest, printfs (ls ++ rest) = es.map some ++ printfs rest

/-- The lexemes have the calls `es`, if no parenthesis follows. -/
def PrintsBefore (ls : List Lexeme) (es : List Expr) : Prop :=
  ∀ rest, rest.head? ≠ some (.mark ['(']) → printfs (ls ++ rest) = es.map some ++ printfs rest

/-- What is printed by lexemes one after the other. -/
theorem Prints.append {ls ms : List Lexeme} {es fs : List Expr} (h : Prints ls es)
    (h' : Prints ms fs) : Prints (ls ++ ms) (es ++ fs) := by
  intro rest
  rw [List.append_assoc, h, h', List.map_append, List.append_assoc]

/-- The second part must not open a parenthesis behind the last word of the first. -/
theorem PrintsBefore.append {ls ms : List Lexeme} {es fs : List Expr} (h : PrintsBefore ls es)
    (h' : PrintsBefore ms fs) (hhead : ms.head? ≠ some (.mark ['('])) :
    PrintsBefore (ls ++ ms) (es ++ fs) := by
  intro rest hrest
  have hnext : (ms ++ rest).head? ≠ some (.mark ['(']) := by
    cases ms with
    | nil => exact hrest
    | cons m ms => exact hhead
  rw [List.append_assoc, h _ hnext, h' rest hrest, List.map_append, List.append_assoc]

/-- What follows closes the expression before it. -/
theorem PrintsBefore.closed {ls ms : List Lexeme} {es fs : List Expr} (h : PrintsBefore ls es)
    (h' : Prints ms fs) {m : Lexeme} (hhead : ms.head? = some m) (hm : m ≠ .mark ['(']) :
    Prints (ls ++ ms) (es ++ fs) := by
  intro rest
  have hnext : (ms ++ rest).head? ≠ some (.mark ['(']) := by
    rw [List.head?_append, hhead]
    exact fun heq => hm (Option.some.inj heq)
  rw [List.append_assoc, h _ hnext, h', List.map_append, List.append_assoc]

theorem Prints.before {ls : List Lexeme} {es : List Expr} (h : Prints ls es) : PrintsBefore ls es :=
  fun rest _ => h rest

theorem IsSilent.not_printf {l : Lexeme} (h : IsSilent l) : l ≠ .word printfName := by
  rintro rfl
  cases h

theorem prints_silent {ls : List Lexeme} (h : ∀ l ∈ ls, IsSilent l) : Prints ls [] := by
  intro rest
  induction ls with
  | nil => rfl
  | cons l ls ih =>
    rw [List.forall_mem_cons] at h
    rw [List.cons_append, printfs_cons (.inl h.1.not_printf)]
    exact ih h.2

/-- A word before a mark that opens no arguments. -/
theorem prints_word_mark (w : Text) {m : Text} (hm : m ≠ ['(']) : Prints [.word w, .mark m] [] := by
  intro rest
  have hhead : (Lexeme.mark m :: rest).head? ≠ some (.mark ['(']) := by simpa using hm
  rw [List.cons_append, List.singleton_append, printfs_cons (.inr hhead),
    printfs_cons (.inl (by simp))]
  rfl

theorem printsBefore_name (w : Text) : PrintsBefore [.word w] [] := by
  intro rest hrest
  rw [List.singleton_append, printfs_cons (.inr hrest)]
  rfl

theorem PrintsBefore.cons {l : Lexeme} {ls : List Lexeme} {es : List Expr} (hl : IsSilent l)
    (h : PrintsBefore ls es) : PrintsBefore (l :: ls) es := by
  intro rest hrest
  rw [List.cons_append, printfs_cons (.inl hl.not_printf), h rest hrest]

/-- A mark keeps what follows from being the arguments of a call. -/
theorem PrintsBefore.before_silent {l : Lexeme} {ls ms : List Lexeme} {es : List Expr}
    (h : PrintsBefore ls es) (hms : ∀ m ∈ l :: ms, IsSilent m) (hl : l ≠ .mark ['(']) :
    Prints (ls ++ l :: ms) es := by
  simpa using h.closed (prints_silent hms) rfl hl

theorem printsBefore_enclosed {b : Bool} {ls : List Lexeme} {es : List Expr}
    (h : PrintsBefore ls es) : PrintsBefore (enclosed b ls) es := by
  cases b with
  | true => exact (h.before_silent (by simp [IsSilent]) (by simp)).before.cons (by simp [IsSilent])
  | false => exact h

/-- The arguments of a call print what each of them prints. -/
theorem printsBefore_commas {parts : List (List Lexeme)} {inner : List (List Expr)}
    (h : List.Forall₂ PrintsBefore parts inner) : PrintsBefore (commas parts) inner.flatten := by
  induction h with
  | nil => exact (prints_silent (by simp [commas])).before
  | @cons ls es parts inner hfirst hmore ih =>
    cases hmore with
    | nil => simpa [commas] using hfirst
    | cons _ _ =>
      rw [commas, List.intercalate_cons_cons, List.append_assoc]
      exact hfirst.append (ih.cons (by simp [IsSilent])) (by simp)

theorem oneOf_opening {rest : List Lexeme} (h : rest.head? ≠ some (.mark ['('])) :
    oneOf [['(']] rest = none := by
  cases rest with
  | nil => rfl
  | cons l rest =>
    cases l with
    | mark m => exact oneOf_other (by simpa using h) rest
    | word | number | string => rfl

/-- A call is one of `printf` by its name. The calls in its arguments come after it. -/
theorem printsBefore_call (f : Text) {parts : List (List Lexeme)} {es : List Expr}
    (h : List.Forall₂ IsExpression parts es) {inner : List (List Expr)}
    (h' : List.Forall₂ PrintsBefore parts inner) :
    PrintsBefore (.word f :: .mark ['('] :: commas parts ++ [.mark [')']])
      ((if f = printfName then [.call (.name f) es] else []) ++ inner.flatten) := by
  intro rest hrest
  have harguments : PrintsBefore (.mark ['('] :: (commas parts ++ [.mark [')']])) inner.flatten :=
    ((printsBefore_commas h').before_silent (by simp [IsSilent]) (by simp)).before.cons
      (by simp [IsSilent])
  let ls : List Lexeme := commas parts ++ [.mark [')']] ++ rest
  have hafter : printfs (.mark ['('] :: ls) = inner.flatten.map some ++ printfs rest :=
    harguments rest hrest
  have hread : unary (ls.length + 2) (.word f :: .mark ['('] :: ls) =
      some (.call (.name f) es, rest) :=
    isOperand_call f h (ls.length + 2) rest (by simp [ls, commas]) (oneOf_opening hrest)
  have hcall : printfs (.word f :: .mark ['('] :: ls) =
      (if f = printfName then [some (.call (.name f) es)] else []) ++ printfs (.mark ['('] :: ls) := by
    rw [printfs, List.length_cons, hread]
    simp
  refine hcall.trans ?_
  rw [hafter, List.map_append, List.append_assoc]
  split <;> rfl

end ImpC.C
