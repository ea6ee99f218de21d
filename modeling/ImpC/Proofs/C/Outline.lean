import ImpC.Target.Emit
import ImpC.Proofs.C.Lexeme

/-!
# Reading C line by line

A line of C is told apart by its first word and what follows it, or by its braces. The lines of a
function are read as an outline: the statements in order, those of a block inside of it, each by the
texts that stand on its lines. Declarators come before the first statement of their block.

The depth of a line is counted without reading it: a line that starts with a closing brace leaves a
block, and one that ends with an opening brace enters one.
-/
namespace ImpC.C

open ImpC.Target

/-- What stands between two texts. -/
def between? (front back t : Text) : Option Text :=
  let inner := (t.drop front.length).take (t.length - front.length - back.length)
  if t = front ++ (inner ++ back) then some inner else none

/-- What is between two texts is unique. -/
theorem between?_eq_some {front back t inner : Text} :
    between? front back t = some inner ↔ t = front ++ (inner ++ back) := by
  unfold between?
  constructor
  · intro h
    dsimp only at h
    split at h
    · rename_i ht
      cases h
      exact ht
    · cases h
  · rintro rfl
    simp

@[simp] theorem between?_append (front back inner : Text) :
    between? front back (front ++ (inner ++ back)) = some inner :=
  between?_eq_some.mpr rfl

theorem between?_eq_none {front back t : Text} (h : ¬ front <+: t) : between? front back t = none := by
  rw [Option.eq_none_iff_forall_ne_some]
  intro inner hinner
  exact h ⟨_, (between?_eq_some.mp hinner).symm⟩

inductive LineKind where
  | declarator (d : Declarator)
  | assignment (target value : Text)
  | call (function arguments : Text)
  | conditional (condition : Text)
  | alternative (condition : Text)
  | otherwise
  | loop (condition : Text)
  | opening
  | closing
  | exit
  deriving DecidableEq

/-- A declarator by the first word of its type and the rest of the line. -/
def declarator? (word rest : Text) : Option Declarator :=
  let named (type : CType) (name : Text) : Option Declarator :=
    if isWord name then some ⟨type, name⟩ else none
  if word = "const".toList then (between? " char *".toList [';'] rest).bind (named .text)
  else
    match [CType.int, .double, .bool].find? (·.render = word) with
    | some type => (between? [' '] [';'] rest).bind (named type)
    | none => none

def braceKind? (t : Text) : Option LineKind :=
  if t = ['\x7b'] then some .opening
  else if t = ['\x7d'] then some .closing
  else if t = "\x7d else \x7b".toList then some .otherwise
  else (between? "\x7d else if (".toList ") \x7b".toList t).map .alternative

/-- The condition of a block that a line enters, behind its first word. -/
def condition? (rest : Text) : Option Text := between? " (".toList ") \x7b".toList rest

/-- A line that ends with a semicolon, by its first word and the rest. -/
def simpleKind? (word rest : Text) : Option LineKind :=
  ((between? " = ".toList [';'] rest).map (.assignment word)).or
    (((between? ['('] ");".toList rest).map (.call word)).or
      ((declarator? word rest).map .declarator))

/-- A line by its first word and the rest. -/
def wordKind? (word rest : Text) : Option LineKind :=
  match condition? rest with
  | some condition =>
    if word = "if".toList then some (.conditional condition)
    else if word = "while".toList then some (.loop condition)
    else none
  | none => if word = "return".toList ∧ rest = " 0;".toList then some .exit else simpleKind? word rest

def lineKind? (t : Text) : Option LineKind :=
  let word := t.takeWhile Pattern.inWord
  if word = [] then braceKind? t else wordKind? word (t.dropWhile Pattern.inWord)

section Kinds

theorem inWord_of_isWord {w : Text} (h : isWord w = true) : ∀ c ∈ w, Pattern.inWord c = true := by
  cases w with
  | nil => cases h
  | cons c w =>
    simp only [isWord, Bool.and_eq_true, List.all_eq_true] at h
    exact List.forall_mem_cons.mpr ⟨inWord_of_startsWord h.1, h.2⟩

/-- The first word of a line ends where a character of no word follows. -/
theorem lineKind?_word {w rest : Text} {c : Char} (hw : isWord w = true)
    (hc : Pattern.inWord c = false) : lineKind? (w ++ c :: rest) = wordKind? w (c :: rest) := by
  have hall : ∀ d ∈ w, Pattern.inWord d = true := inWord_of_isWord hw
  have htake : (w ++ c :: rest).takeWhile Pattern.inWord = w := by
    rw [List.takeWhile_append_of_pos hall, List.takeWhile_cons_of_neg (by simp [hc]), List.append_nil]
  have hdrop : (w ++ c :: rest).dropWhile Pattern.inWord = c :: rest := by
    rw [List.dropWhile_append_of_pos hall, List.dropWhile_cons_of_neg (by simp [hc])]
  have hne : w ≠ [] := by
    rintro rfl
    cases hw
  rw [lineKind?, htake, hdrop, if_neg hne]

/-- A line with a condition opens a block only if its word is `if` or `while`. -/
theorem wordKind?_guard (word condition : Text) :
    wordKind? word (" (".toList ++ (condition ++ ") \x7b".toList)) =
      if word = "if".toList then some (.conditional condition)
      else if word = "while".toList then some (.loop condition)
      else none := by
  rw [wordKind?, condition?, between?_append]

/-- A line that enters no block and does not return. -/
theorem wordKind?_simple (word : Text) {rest : Text} (hcondition : ¬ " (".toList <+: rest)
    (hexit : ¬ " 0".toList <+: rest) : wordKind? word rest = simpleKind? word rest := by
  have hreturn : rest ≠ " 0;".toList := by
    rintro rfl
    exact hexit ⟨[';'], rfl⟩
  rw [wordKind?, condition?, between?_eq_none hcondition]
  exact if_neg fun h => hreturn h.2

theorem wordKind?_assignment (target value : Text) :
    wordKind? target (" = ".toList ++ (value ++ [';'])) = some (.assignment target value) := by
  rw [wordKind?_simple target (by simp) (by simp), simpleKind?, between?_append]
  rfl

theorem wordKind?_call (function arguments : Text) :
    wordKind? function (['('] ++ (arguments ++ ");".toList)) = some (.call function arguments) := by
  rw [wordKind?_simple function (by simp) (by simp), simpleKind?, between?_append,
    between?_eq_none (by simp)]
  rfl

/-- A declarator has a blank behind its type and is neither an assignment nor a call. -/
theorem wordKind?_declarator {word rest : Text} {d : Declarator} (hspace : ∃ c more,
      rest = ' ' :: c :: more ∧ c ∉ ['(', '0', '=']) (h : declarator? word rest = some d) :
    wordKind? word rest = some (.declarator d) := by
  obtain ⟨c, more, rfl, hc⟩ := hspace
  simp only [List.mem_cons, List.not_mem_nil, or_false, not_or] at hc
  have hother {e : Char} {t : Text} (he : c ≠ e) : ¬ ' ' :: e :: t <+: ' ' :: c :: more := by
    simp [Ne.symm he]
  have hassignment : between? " = ".toList [';'] (' ' :: c :: more) = none :=
    between?_eq_none (hother hc.2.2)
  rw [wordKind?_simple word (hother hc.1) (hother hc.2.1), simpleKind?, hassignment,
    between?_eq_none (by simp), h]
  rfl

theorem lineKind?_guard {word : Text} (hword : isWord word = true) (condition : Text) :
    lineKind? (word ++ " (".toList ++ condition ++ ") \x7b".toList) =
      if word = "if".toList then some (.conditional condition)
      else if word = "while".toList then some (.loop condition)
      else none := by
  rw [List.append_assoc, List.append_assoc]
  exact (lineKind?_word hword (by decide)).trans (wordKind?_guard word condition)

theorem lineKind?_assignment {target : Text} (htarget : isWord target = true) (value : Text) :
    lineKind? (target ++ " = ".toList ++ value ++ [';']) = some (.assignment target value) := by
  rw [List.append_assoc, List.append_assoc]
  exact (lineKind?_word htarget (by decide)).trans (wordKind?_assignment target value)

theorem lineKind?_call {function : Text} (hfunction : isWord function = true) (arguments : Text) :
    lineKind? (function ++ '(' :: arguments ++ [')'] ++ [';']) = some (.call function arguments) := by
  rw [List.append_assoc, List.append_assoc]
  exact (lineKind?_word hfunction (by decide)).trans (wordKind?_call function arguments)

theorem lineKind?_alternative (condition : Text) :
    lineKind? ("\x7d else if (".toList ++ condition ++ ") \x7b".toList) =
      some (.alternative condition) := by
  rw [List.append_assoc]
  have hword : ("\x7d else if (".toList ++ (condition ++ ") \x7b".toList)).takeWhile
      Pattern.inWord = [] := rfl
  have hother : "\x7d else if (".toList ++ (condition ++ ") \x7b".toList) ≠ ['\x7b'] ∧
      "\x7d else if (".toList ++ (condition ++ ") \x7b".toList) ≠ ['\x7d'] ∧
      "\x7d else if (".toList ++ (condition ++ ") \x7b".toList) ≠ "\x7d else \x7b".toList := by
    simp
  rw [lineKind?, hword, if_pos rfl, braceKind?, if_neg hother.1, if_neg hother.2.1,
    if_neg hother.2.2, between?_append]
  rfl

/-- The type of a declarator is told from the word in front, also for pointers. -/
theorem lineKind?_declarator {d : Declarator} (h : isWord d.name = true) :
    lineKind? (d.render ++ [';']) = some (.declarator d) := by
  obtain ⟨type, name⟩ := d
  dsimp only at h
  obtain ⟨c, t, hname, hc⟩ : ∃ c t, name = c :: t ∧ c ∉ ['(', '0', '='] := by
    cases name with
    | nil => cases h
    | cons c t =>
      refine ⟨c, t, rfl, fun hmem => ?_⟩
      have hstart : Pattern.startsWord c = true := by
        simp only [isWord, Bool.and_eq_true] at h
        exact h.1
      simp only [List.mem_cons, List.not_mem_nil, or_false] at hmem
      rcases hmem with rfl | rfl | rfl <;> exact absurd hstart (by decide)
  have hspaced (type : CType) (hword : isWord type.render = true ∧ type.render ≠ "const".toList)
      (hfind : [CType.int, .double, .bool].find? (·.render = type.render) = some type) :
      lineKind? (type.render ++ ' ' :: (name ++ [';'])) = some (.declarator ⟨type, name⟩) := by
    rw [lineKind?_word hword.1 (by decide)]
    refine wordKind?_declarator ⟨c, t ++ [';'], by rw [hname]; rfl, hc⟩ ?_
    have hbetween : between? [' '] [';'] (' ' :: (name ++ [';'])) = some name :=
      between?_append _ _ _
    rw [declarator?, if_neg hword.2, hfind, hbetween]
    exact if_pos h
  have hsplit {type : CType} : type.render ++ ' ' :: name ++ [';'] =
      type.render ++ ' ' :: (name ++ [';']) := List.append_assoc _ _ _
  cases type with
  | int => exact (congrArg lineKind? hsplit).trans (hspaced .int (by decide) (by decide))
  | double => exact (congrArg lineKind? hsplit).trans (hspaced .double (by decide) (by decide))
  | bool => exact (congrArg lineKind? hsplit).trans (hspaced .bool (by decide) (by decide))
  | text =>
    have hread : declarator? "const".toList (" char *".toList ++ (name ++ [';'])) =
        some ⟨.text, name⟩ := by
      rw [declarator?, if_pos rfl, between?_append]
      simp [h]
    have hline : lineKind? ("const".toList ++ ' ' :: ("char *".toList ++ (name ++ [';']))) = _ :=
      lineKind?_word (by decide) (by decide)
    exact hline.trans (wordKind?_declarator ⟨'c', _, rfl, by decide⟩ hread)

end Kinds

mutual

/-- A statement by the texts on its lines. -/
inductive Clause where
  | assignment (target value : Text)
  | call (function arguments : Text)
  | conditional (condition : Text) (body : Body) (rest : Hanging)
  | loop (condition : Text) (body : Body)
  | block (body : Body)

/-- What hangs on a block that is conditional. -/
inductive Hanging where
  | nothing
  | block (body : Body)
  | conditional (condition : Text) (body : Body) (rest : Hanging)

/-- The declarators and the statements of a block. -/
inductive Body where
  | mk (declarators : List Declarator) (clauses : List Clause)

end

namespace Body

def empty : Body := .mk [] []

/-- Declarators come before all statements. -/
def declare? : Body → Declarator → Option Body
  | .mk ds [], d => some (.mk (ds ++ [d]) [])
  | .mk _ (_ :: _), _ => none

def add : Body → List Clause → Body
  | .mk ds clauses, more => .mk ds (clauses ++ more)

@[simp] theorem add_nil (b : Body) : b.add [] = b := by
  cases b
  simp [add]

theorem add_add (b : Body) (clauses more : List Clause) :
    (b.add clauses).add more = b.add (clauses ++ more) := by
  cases b
  simp [add]

end Body

/-- What a block is part of once it is closed. Something may hang on it if it is conditional. -/
inductive Setting where
  | whole (finish : Body → Clause)
  | conditional (finish : Body → Hanging → Clause)

/-- The block that is being read, and those around it, innermost first, each with the setting of the
block inside of it. -/
structure Outlining where
  current : Body
  around : List (Setting × Body)

namespace Outlining

def add (o : Outlining) (clauses : List Clause) : Outlining :=
  { o with current := o.current.add clauses }

def enter (o : Outlining) (setting : Setting) : Outlining :=
  ⟨.empty, (setting, o.current) :: o.around⟩

def step? (o : Outlining) : LineKind → Option Outlining
  | .declarator d => (o.current.declare? d).map fun b => { o with current := b }
  | .assignment target value => some (o.add [.assignment target value])
  | .call function arguments => some (o.add [.call function arguments])
  | .conditional condition => some (o.enter (.conditional (.conditional condition)))
  | .loop condition => some (o.enter (.whole (.loop condition)))
  | .opening => some (o.enter (.whole .block))
  | .alternative condition =>
    match o.around with
    | (.conditional finish, outer) :: around =>
      some ⟨.empty, (.conditional fun body rest =>
        finish o.current (.conditional condition body rest), outer) :: around⟩
    | _ => none
  | .otherwise =>
    match o.around with
    | (.conditional finish, outer) :: around =>
      some ⟨.empty, (.whole fun body => finish o.current (.block body), outer) :: around⟩
    | _ => none
  | .closing =>
    match o.around with
    | (.conditional finish, outer) :: around =>
      some ⟨outer.add [finish o.current .nothing], around⟩
    | (.whole finish, outer) :: around => some ⟨outer.add [finish o.current], around⟩
    | [] => none
  | .exit => none

/-- A line without its indentation. -/
def line? (o : Outlining) (line : Text) : Option Outlining :=
  (lineKind? (line.dropWhile (· = ' '))).bind o.step?

def lines? (o : Outlining) (lines : List Text) : Option Outlining := lines.foldlM line? o

@[simp] theorem lines?_nil (o : Outlining) : o.lines? [] = some o := rfl

@[simp] theorem lines?_cons (o : Outlining) (line : Text) (lines : List Text) :
    o.lines? (line :: lines) = (o.line? line).bind (·.lines? lines) := rfl

/-- Lines are outlined one after the other. -/
theorem lines?_append (o : Outlining) (lines more : List Text) :
    o.lines? (lines ++ more) = (o.lines? lines).bind (·.lines? more) := by
  simp [lines?]

end Outlining

/-- The outline of a function by the lines of its body, which ends with its only `return`. -/
def outline? (lines : List Text) : Option Body :=
  let ending := lines.drop (lines.length - 2)
  if ending = ["    return 0;".toList, ['\x7d']] then
    match Outlining.lines? ⟨.empty, []⟩ (lines.take (lines.length - 2)) with
    | some ⟨body, []⟩ => some body
    | _ => none
  else none

def closes (line : Text) : Bool := (line.dropWhile (· = ' ')).head? = some '\x7d'

def opens (line : Text) : Bool := line.getLast? = some '\x7b'

/-- The number of blocks around a line that follows `depth` open ones, unless it leaves a block where
none is open. -/
def around? (depth : Nat) (line : Text) : Option Nat :=
  if closes line then if depth = 0 then none else some (depth - 1) else some depth

/-- The number of open blocks after some lines. -/
def depth? (depth : Nat) : List Text → Option Nat
  | [] => some depth
  | line :: lines =>
    (around? depth line).bind fun d => depth? (if opens line then d + 1 else d) lines

/-- Every line but an empty one is indented by four blanks for each block around it. -/
def Indented (depth : Nat) (lines : List Text) : Prop :=
  ∀ before line after, lines = before ++ line :: after → line ≠ [] →
    ∃ d around, depth? depth before = some d ∧ around? d line = some around ∧
      line.takeWhile (· = ' ') = Text.blanks (4 * around)

/-- The blocks of a text are nested and its lines indented accordingly. After `head` lines there are
open blocks until the last line has been read. -/
structure Nested (head : Nat) (lines : List Text) : Prop where
  closed : depth? 0 lines = some 0
  opened : ∀ n, head ≤ n → n < lines.length → ∃ d, depth? 0 (lines.take n) = some (d + 1)
  indented : Indented 0 lines

theorem depth?_append (d : Nat) (lines more : List Text) :
    depth? d (lines ++ more) = (depth? d lines).bind (depth? · more) := by
  induction lines generalizing d with
  | nil => rfl
  | cons line lines ih =>
    rw [List.cons_append, depth?, depth?, Option.bind_assoc]
    exact congrArg _ (funext fun _ => ih _)

theorem indented_nil (d : Nat) : Indented d [] := by
  intro before line after h
  simp at h

/-- A line is indented by the blocks around it, and a closing brace by those that are left. -/
theorem indented_cons {d around : Nat} {line : Text} {lines : List Text}
    (haround : around? d line = some around)
    (hline : line ≠ [] → line.takeWhile (· = ' ') = Text.blanks (4 * around))
    (h : Indented (if opens line then around + 1 else around) lines) :
    Indented d (line :: lines) := by
  intro before line' after hsplit hne
  cases before with
  | nil =>
    obtain ⟨rfl, -⟩ := List.cons.inj hsplit
    exact ⟨d, around, rfl, haround, hline hne⟩
  | cons first before =>
    obtain ⟨rfl, hrest⟩ := List.cons.inj hsplit
    obtain ⟨m, around', hm, haround', hblanks⟩ := h before line' after hrest hne
    refine ⟨m, around', ?_, haround', hblanks⟩
    rw [depth?, haround, Option.bind_some, hm]

end ImpC.C
