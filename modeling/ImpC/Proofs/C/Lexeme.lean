import ImpC.Token.Lexer
import ImpC.Target.Lower

/-!
# The lexemes of C

A reader of C text, one character at a time: words, numbers, string literals and marks, each as long
as possible. Blanks, comments and directives are passed over. Trigraphs, digraphs, spliced lines and
character constants are not read.
-/
namespace ImpC.C

inductive Lexeme where
  | word (text : Text)
  | number (text : Text)
  | string (text : Text)
  | mark (text : Text)
  deriving DecidableEq

/-- The punctuators and operators of C. -/
def marks : List Text :=
  ["[", "]", "(", ")", "\x7b", "\x7d", ".", "->", "++", "--", "&", "*", "+", "-", "~", "!", "/", "%",
    "<<", ">>", "<", ">", "<=", ">=", "==", "!=", "^", "|", "&&", "||", "?", ":", ";", "=", "*=",
    "/=", "%=", "+=", "-=", "<<=", ">>=", "&=", "^=", "|=", ","].map String.toList

/-- The words of C that are no identifiers, with those that stand for truth values and their type. -/
def keywords : List Text :=
  ["auto", "break", "case", "char", "const", "continue", "default", "do", "double", "else", "enum",
    "extern", "float", "for", "goto", "if", "inline", "int", "long", "register", "restrict",
    "return", "short", "signed", "sizeof", "static", "struct", "switch", "typedef", "union",
    "unsigned", "void", "volatile", "while", "_Alignas", "_Alignof", "_Atomic", "_Bool",
    "_Complex", "_Generic", "_Imaginary", "_Noreturn", "_Static_assert", "_Thread_local", "bool",
    "true", "false"].map String.toList

def isKeyword (w : Text) : Bool := keywords.contains w

/-- No variable is called by a keyword. -/
theorem isKeyword_reserved {w : Text} (h : isKeyword w = true) : w ∈ Target.reserved := by
  have hsplit : Target.reserved = keywords ++ ["main", "printf", "NULL"].map String.toList := rfl
  rw [hsplit]
  exact List.mem_append_left _ (List.contains_iff_mem.mp h)

/-- What is being read, and what has been read of it. -/
inductive Mode where
  | between
  | word (text : Text)
  | number (text : Text)
  | string (text : Text) (escaped : Bool)
  | closed (text : Text)
  | mark (text : Text)
  | line
  | comment (star : Bool)
  deriving DecidableEq

def Mode.finish : Mode → List Lexeme
  | .between | .line | .comment _ => []
  | .word t => [.word t]
  | .number t => [.number t]
  | .string t _ | .closed t => [.string t]
  | .mark t => [.mark t]

/-- What starts with a character. -/
def enter (c : Char) : Mode :=
  if Pattern.isBlank c then .between
  else if Pattern.startsWord c then .word [c]
  else if c.isDigit then .number [c]
  else if c = '"' then .string [c] false
  else if c = '#' then .line
  else .mark [c]

/-- A number goes on with letters, digits, points and the sign of its exponent. -/
def inNumber (t : Text) (c : Char) : Bool :=
  Pattern.inWord c || c = '.' ||
    ((c = '+' || c = '-') && (t.getLast? = some 'e' || t.getLast? = some 'E'))

/-- What is being read after one more character of it, or nothing if it ends before the character. -/
def Mode.next? : Mode → Char → Option Mode
  | .between, _ | .closed _, _ => none
  | .word t, c => if Pattern.inWord c then some (.word (t ++ [c])) else none
  | .number t, c => if inNumber t c then some (.number (t ++ [c])) else none
  | .string t true, c => some (.string (t ++ [c]) false)
  | .string t false, c =>
    if c = '"' then some (.closed (t ++ [c])) else some (.string (t ++ [c]) (c = '\\'))
  | .mark t, c =>
    if t = ['/'] ∧ c = '/' then some .line
    else if t = ['/'] ∧ c = '*' then some (.comment false)
    else if marks.contains (t ++ [c]) then some (.mark (t ++ [c]))
    else none
  | .line, c => if c = '\n' then none else some .line
  | .comment star, c => if star ∧ c = '/' then some .between else some (.comment (c = '*'))

def scan : Mode → Text → List Lexeme
  | m, [] => m.finish
  | m, c :: t =>
    match m.next? c with
    | some m => scan m t
    | none => m.finish ++ scan (enter c) t

def lexemes (t : Text) : List Lexeme := scan .between t

/-- What is being read after more characters of it. -/
def Mode.run : Mode → Text → Option Mode
  | m, [] => some m
  | m, c :: t => (m.next? c).bind fun m => m.run t

/-- A text that is scanned without an end of a lexeme only changes the mode. -/
theorem scan_run {m m' : Mode} {t : Text} (h : m.run t = some m') (rest : Text) :
    scan m (t ++ rest) = scan m' rest := by
  induction t generalizing m with
  | nil =>
    obtain rfl : m = m' := by simpa [Mode.run] using h
    rfl
  | cons c t ih =>
    obtain ⟨n, hn, hrun⟩ := Option.bind_eq_some_iff.mp h
    rw [List.cons_append, scan, hn]
    exact ih hrun

theorem run_append {m m' : Mode} {t : Text} (h : m.run t = some m') (u : Text) :
    m.run (t ++ u) = m'.run u := by
  induction t generalizing m with
  | nil =>
    obtain rfl : m = m' := by simpa [Mode.run] using h
    rfl
  | cons c t ih =>
    obtain ⟨n, hn, hrun⟩ := Option.bind_eq_some_iff.mp h
    rw [List.cons_append, Mode.run, hn, Option.bind_some, ih hrun]

/-- The text `t` is read as the lexemes `ls` if a character that `follows` comes next. -/
def Scans (follows : Char → Prop) (t : Text) (ls : List Lexeme) : Prop :=
  ∀ c rest, follows c → scan .between (t ++ c :: rest) = ls ++ scan .between (c :: rest)

variable {follows follows' : Char → Prop}

theorem Scans.mono {t : Text} {ls : List Lexeme} (h : Scans follows t ls)
    (hfollows : ∀ c, follows' c → follows c) : Scans follows' t ls :=
  fun c rest hc => h c rest (hfollows c hc)

theorem Scans.weaken {t : Text} {ls : List Lexeme} (h : Scans (fun _ => True) t ls) :
    Scans follows t ls :=
  h.mono fun _ _ => trivial

/-- Two texts are scanned one after the other if the second starts with a character that may follow
the first. -/
theorem Scans.append {t u : Text} {c : Char} {ls ms : List Lexeme} (h : Scans follows t ls)
    (hc : follows c) (h' : Scans follows' (c :: u) ms) : Scans follows' (t ++ c :: u) (ls ++ ms) := by
  intro d rest hd
  rw [List.append_assoc, List.cons_append, h c _ hc, ← List.cons_append, h' d rest hd,
    List.append_assoc]

/-- What can be followed by anything. -/
theorem Scans.andThen {t u : Text} {ls ms : List Lexeme} (h : Scans (fun _ => True) t ls)
    (h' : Scans follows u ms) : Scans follows (t ++ u) (ls ++ ms) := by
  intro d rest hd
  cases u with
  | nil =>
    have hu := h' d rest hd
    rw [List.append_nil, h d rest trivial, List.append_assoc, ← hu, List.nil_append]
  | cons c u => exact h.append trivial h' d rest hd

/-- A text that is one lexeme is followed by a character that the lexeme does not go on with. -/
theorem scans_of_run {c : Char} {t : Text} {m : Mode} (h : (enter c).run t = some m) :
    Scans (fun d => m.next? d = none) (c :: t) m.finish := by
  intro d rest hd
  have hstart : scan .between (c :: t ++ d :: rest) = scan (enter c) (t ++ d :: rest) := rfl
  rw [hstart, scan_run h, scan, hd]
  rfl

theorem scans_blank {c : Char} (h : Pattern.isBlank c = true) : Scans (fun _ => True) [c] [] := by
  have henter : enter c = .between := by simp [enter, h]
  intro d rest _
  have hstart : scan .between ([c] ++ d :: rest) = scan (enter c) (d :: rest) := rfl
  rw [hstart, henter]
  rfl

theorem scans_space : Scans (fun _ => True) [' '] [] := scans_blank (by decide)

/-- A letter or an underscore, and then letters, digits and underscores. -/
def isWord : Text → Bool
  | [] => false
  | c :: t => Pattern.startsWord c && t.all Pattern.inWord

theorem isBlank_iff {c : Char} :
    Pattern.isBlank c = true ↔ c = ' ' ∨ c = '\t' ∨ c = '\r' ∨ c = '\n' := by
  simp [Pattern.isBlank, or_assoc]

theorem enter_word {c : Char} (h : Pattern.startsWord c = true) : enter c = .word [c] := by
  have hblank : Pattern.isBlank c = false := by
    rw [Bool.eq_false_iff, ne_eq, isBlank_iff]
    rintro (rfl | rfl | rfl | rfl) <;> simp [Pattern.startsWord] at h
  simp [enter, hblank, h]

theorem inWord_of_startsWord {c : Char} (h : Pattern.startsWord c = true) :
    Pattern.inWord c = true := by
  simp only [Pattern.startsWord, Bool.or_eq_true] at h
  rcases h with hc | hc <;> simp [Pattern.inWord, Char.isAlphanum, hc]

theorem startsWord_digit {c : Char} (h : c.isDigit = true) : Pattern.startsWord c = false := by
  have hne : c ≠ '_' := by
    rintro rfl
    cases h
  have hupper : c.isUpper = decide (c.val ≥ 65 ∧ c.val ≤ 90) := rfl
  have hlower : c.isLower = (decide (c.val ≥ 97) && decide (c.val ≤ 122)) := rfl
  have halpha : c.isAlpha = (c.isUpper || c.isLower) := rfl
  simp only [Char.isDigit, ge_iff_le, Bool.and_eq_true, decide_eq_true_eq, UInt32.le_iff_toNat_le,
    Char.reduceVal, UInt32.reduceToNat] at h
  simp only [Pattern.startsWord, halpha, hupper, hlower, hne, decide_false, Bool.or_false,
    Bool.or_eq_false_iff, Bool.and_eq_false_iff, decide_eq_false_iff_not, ge_iff_le,
    UInt32.le_iff_toNat_le, UInt32.reduceToNat]
  omega

theorem enter_digit {c : Char} (h : c.isDigit = true) : enter c = .number [c] := by
  have hblank : Pattern.isBlank c = false := by
    rw [Bool.eq_false_iff, ne_eq, isBlank_iff]
    rintro (rfl | rfl | rfl | rfl) <;> simp at h
  simp [enter, hblank, startsWord_digit h, h]

theorem run_word {t : Text} (h : ∀ c ∈ t, Pattern.inWord c = true) (read : Text) :
    (Mode.word read).run t = some (.word (read ++ t)) := by
  induction t generalizing read with
  | nil => simp [Mode.run]
  | cons c t ih =>
    rw [List.forall_mem_cons] at h
    simp [Mode.run, Mode.next?, h.1, ih h.2]

/-- A word ends before the first character that is in no word. -/
theorem scans_word {t : Text} (h : isWord t = true) :
    Scans (fun c => Pattern.inWord c = false) t [.word t] := by
  cases t with
  | nil => cases h
  | cons c t =>
    simp only [isWord, Bool.and_eq_true, List.all_eq_true] at h
    have hrun : (enter c).run t = some (.word (c :: t)) := by
      rw [enter_word h.1]
      exact run_word h.2 [c]
    exact (scans_of_run hrun).mono fun d hd => by simp [Mode.next?, hd]

def IsNumber (t : Text) : Prop := ∃ c u, t = c :: u ∧ c.isDigit = true ∧
  (Mode.number [c]).run u = some (.number t)

theorem scans_number {t : Text} (h : IsNumber t) :
    Scans (fun c => inNumber t c = false) t [.number t] := by
  obtain ⟨c, u, rfl, hc, hrun⟩ := h
  rw [← enter_digit hc] at hrun
  exact (scans_of_run hrun).mono fun d hd => by simp [Mode.next?, hd]

/-- Letters, digits and points go on with a number. -/
theorem run_number {t : Text} (h : ∀ c ∈ t, (Pattern.inWord c || c = '.') = true) (read : Text) :
    (Mode.number read).run t = some (.number (read ++ t)) := by
  induction t generalizing read with
  | nil => simp [Mode.run]
  | cons c t ih =>
    rw [List.forall_mem_cons] at h
    simp only [Mode.run, Mode.next?, inNumber, h.1, Bool.true_or, if_true, Option.bind_some,
      ih h.2, List.append_assoc, List.singleton_append]

/-- A text that is read as one string literal. -/
def IsString (t : Text) : Prop := ∃ u, t = '"' :: u ∧
  (Mode.string ['"'] false).run u = some (.closed t)

theorem scans_string {t : Text} (h : IsString t) : Scans (fun _ => True) t [.string t] := by
  obtain ⟨u, rfl, hrun⟩ := h
  have henter : enter '"' = .string ['"'] false := by decide
  rw [← henter] at hrun
  exact (scans_of_run hrun).mono fun d _ => rfl

/-- The characters that can follow another one in a mark, or make it the start of a comment. -/
def joining : List Char := ['>', '+', '-', '<', '=', '&', '|', '/', '*']

/-- Only joining characters are in a mark behind its first one. -/
theorem marks_tail : ∀ m ∈ marks, m.tail.all (· ∈ joining) = true := by decide

/-- A mark ends before a character that joins no mark. -/
theorem next?_mark {t : Text} (ht : t ≠ []) {c : Char} (hc : c ∉ joining) :
    (Mode.mark t).next? c = none := by
  have hslash : c ≠ '/' ∧ c ≠ '*' := by
    constructor <;> rintro rfl <;> exact hc (by decide)
  have hmark : t ++ [c] ∉ marks := by
    intro h
    have htail := List.all_eq_true.mp (marks_tail _ h) c
    cases t with
    | nil => exact ht rfl
    | cons d t => exact hc (of_decide_eq_true (htail (by simp)))
  simp [Mode.next?, hslash, hmark]

/-- The characters that are marks of their own, whatever follows. -/
def alone : List Char := ['(', ')', ',', ';', '\x7b', '\x7d']

/-- The characters that stand alone start no longer mark. -/
theorem marks_alone : ∀ m ∈ marks, 1 < m.length → m.head?.all (· ∉ alone) = true := by decide

theorem next?_alone {c : Char} (hc : c ∈ alone) (d : Char) : (Mode.mark [c]).next? d = none := by
  have hslash : c ≠ '/' := by
    rintro rfl
    revert hc
    decide
  have hmark : [c, d] ∉ marks := by
    intro h
    have halone : decide (c ∉ alone) = true := marks_alone _ h Nat.one_lt_two
    exact of_decide_eq_true halone hc
  simp [Mode.next?, hslash, hmark]

theorem enter_alone {c : Char} (hc : c ∈ alone) : enter c = .mark [c] := by
  simp only [alone, List.mem_cons, List.not_mem_nil, or_false] at hc
  rcases hc with rfl | rfl | rfl | rfl | rfl | rfl <;> rfl

/-- A mark is read as one, before any character that does not continue it. -/
theorem scans_mark {c : Char} {t : Text} (hrun : (enter c).run t = some (.mark (c :: t))) :
    Scans (fun d => d ∉ joining) (c :: t) [.mark (c :: t)] :=
  (scans_of_run hrun).mono fun _ hd => next?_mark (List.cons_ne_nil c t) hd

theorem scans_mark_alone {c : Char} (hc : c ∈ alone) : Scans (fun _ => True) [c] [.mark [c]] := by
  have hrun : (enter c).run [] = some (.mark [c]) := by
    rw [enter_alone hc]
    rfl
  exact (scans_of_run hrun).mono fun d _ => next?_alone hc d

end ImpC.C
