import Mathlib.Computability.Language
import ImpC.Proofs.Program.StringLiteral

/-!
# The lexical rules as regular languages

Regular expressions over characters, the languages that they describe, and the lexical rules of the
language in their order, each as such an expression for one category. What the words of each rule are
is then said in the terms in which the lexer looks for them.
-/
namespace ImpC

open ImpC.C

/-- Regular expressions over characters. A set of characters is written as ranges, as in `[A-Za-z_]`
and `[^A-Za-z_]`. -/
inductive Regular where
  | empty
  | among (ranges : List (Char × Char))
  | except (ranges : List (Char × Char))
  | seq (first second : Regular)
  | either (first second : Regular)
  | many (item : Regular)

namespace Regular

def inRanges (ranges : List (Char × Char)) (c : Char) : Bool :=
  ranges.any fun r => r.1 ≤ c && c ≤ r.2

@[simp] theorem inRanges_nil (c : Char) : inRanges [] c = false := rfl

/-- A range of one character. -/
@[simp] theorem inRanges_self (c d : Char) (ranges : List (Char × Char)) :
    inRanges ((c, c) :: ranges) d = (decide (d = c) || inRanges ranges d) := by
  have hself : (decide (c ≤ d) && decide (d ≤ c)) = decide (d = c) := by
    rw [← Bool.decide_and, decide_eq_decide]
    exact ⟨fun h => Char.le_antisymm h.2 h.1, fun h => h ▸ ⟨Char.le_refl _, Char.le_refl _⟩⟩
  rw [inRanges, List.any_cons, hself]
  rfl

/-- The words that an expression describes. -/
def language : Regular → Language Char
  | .empty => 1
  | .among ranges => {w | ∃ c, w = [c] ∧ inRanges ranges c = true}
  | .except ranges => {w | ∃ c, w = [c] ∧ inRanges ranges c = false}
  | .seq a b => a.language * b.language
  | .either a b => a.language + b.language
  | .many a => KStar.kstar a.language

def just (c : Char) : Regular := .among [(c, c)]

def oneOrMore (a : Regular) : Regular := .seq a (.many a)

def text (w : Text) : Regular := w.foldr (fun c => .seq (just c)) .empty

/-- A text of small letters, with each of them in either case. -/
def anyCase (w : Text) : Regular :=
  w.foldr (fun c => .seq (.either (just c) (just c.toUpper))) .empty

variable {a b : Regular} {w : Text}

@[simp] theorem mem_empty : w ∈ empty.language ↔ w = [] := Language.mem_one w

@[simp] theorem mem_among {ranges : List (Char × Char)} :
    w ∈ (among ranges).language ↔ ∃ c, w = [c] ∧ inRanges ranges c = true := Iff.rfl

@[simp] theorem mem_except {ranges : List (Char × Char)} :
    w ∈ (except ranges).language ↔ ∃ c, w = [c] ∧ inRanges ranges c = false := Iff.rfl

theorem mem_seq : w ∈ (seq a b).language ↔ ∃ u ∈ a.language, ∃ v ∈ b.language, u ++ v = w :=
  Language.mem_mul

@[simp] theorem mem_either : w ∈ (either a b).language ↔ w ∈ a.language ∨ w ∈ b.language := Iff.rfl

/-- Any number of words of the language in a row. -/
theorem mem_many :
    w ∈ (many a).language ↔ ∃ parts : List Text, w = parts.flatten ∧ ∀ p ∈ parts, p ∈ a.language :=
  Language.mem_kstar

@[simp] theorem mem_just {c : Char} : w ∈ (just c).language ↔ w = [c] := by
  simp [just]

@[simp] theorem mem_text {t : Text} : w ∈ (text t).language ↔ w = t := by
  induction t generalizing w with
  | nil => exact mem_empty
  | cons c t ih =>
    have hcons : text (c :: t) = .seq (just c) (text t) := rfl
    simp only [hcons, mem_seq, mem_just, ih, exists_eq_left, List.singleton_append]
    exact eq_comm

/-- Any number of characters from a set. -/
theorem mem_many_iff {p : Char → Prop} (ha : ∀ v, v ∈ a.language ↔ ∃ c, v = [c] ∧ p c) :
    w ∈ (many a).language ↔ ∀ c ∈ w, p c := by
  rw [mem_many]
  constructor
  · rintro ⟨parts, rfl, hparts⟩ c hc
    obtain ⟨part, hpart, hc⟩ := List.mem_flatten.mp hc
    obtain ⟨d, rfl, hd⟩ := (ha part).mp (hparts part hpart)
    rwa [List.mem_singleton.mp hc]
  · intro h
    refine ⟨w.map fun c => [c], ?_, ?_⟩
    · induction w with
      | nil => rfl
      | cons c w ih =>
        rw [List.map_cons, List.flatten_cons, ← ih fun d hd => h d (List.mem_cons_of_mem c hd),
          List.singleton_append]
    · intro part hpart
      obtain ⟨c, hc, rfl⟩ := List.mem_map.mp hpart
      exact (ha _).mpr ⟨c, rfl, h c hc⟩

/-- A sequence that starts with one character. -/
theorem mem_seq_cons_iff {p : Char → Prop} (ha : ∀ v, v ∈ a.language ↔ ∃ c, v = [c] ∧ p c) :
    w ∈ (seq a b).language ↔ ∃ c v, w = c :: v ∧ p c ∧ v ∈ b.language := by
  rw [mem_seq]
  constructor
  · rintro ⟨u, hu, v, hv, rfl⟩
    obtain ⟨c, rfl, hc⟩ := (ha u).mp hu
    exact ⟨c, v, rfl, hc, hv⟩
  · rintro ⟨c, v, rfl, hc, hv⟩
    exact ⟨[c], (ha _).mpr ⟨c, rfl, hc⟩, v, hv, rfl⟩

/-- The letters of a class, at least one. -/
theorem mem_oneOrMore_iff {p : Char → Prop} (ha : ∀ v, v ∈ a.language ↔ ∃ c, v = [c] ∧ p c) :
    w ∈ (oneOrMore a).language ↔ w ≠ [] ∧ ∀ c ∈ w, p c := by
  rw [oneOrMore, mem_seq_cons_iff ha]
  constructor
  · rintro ⟨c, v, rfl, hc, hv⟩
    exact ⟨List.cons_ne_nil c v, List.forall_mem_cons.mpr ⟨hc, (mem_many_iff ha).mp hv⟩⟩
  · rintro ⟨hne, hall⟩
    obtain ⟨c, v, rfl⟩ := List.exists_cons_of_ne_nil hne
    rw [List.forall_mem_cons] at hall
    exact ⟨c, v, rfl, hall.1, (mem_many_iff ha).mpr hall.2⟩

/-- Only a letter and its capital have the letter for a small one. -/
theorem toLower_eq_iff {c d : Char} (hc : c.isLower = true) :
    d.toLower = c ↔ d = c ∨ d = c.toUpper := by
  have hlower : c.isLower = (decide (c.val ≥ 97) && decide (c.val ≤ 122)) := rfl
  rw [hlower, Bool.and_eq_true, decide_eq_true_eq, decide_eq_true_eq] at hc
  have hletter : 'a'.val ≤ c.val ∧ c.val ≤ 'z'.val := hc
  have hupper : c.toUpper.val = c.val + ('A'.val - 'a'.val) := by
    delta Char.toUpper
    rw [dif_pos hletter]
  by_cases hd : d.val ≥ 65 ∧ d.val ≤ 90
  · have hval : d.toLower.val = d.val + 32 := congrArg Char.val (dif_pos hd)
    simp only [← Char.val_inj, hval, hupper, ← UInt32.toNat_inj, UInt32.toNat_add, ge_iff_le,
      UInt32.le_iff_toNat_le, Char.reduceVal, UInt32.reduceSub, UInt32.reduceToNat] at hc hd ⊢
    omega
  · have hval : d.toLower = d := dif_neg hd
    simp only [hval, ← Char.val_inj, hupper, ← UInt32.toNat_inj, UInt32.toNat_add, ge_iff_le,
      UInt32.le_iff_toNat_le, Char.reduceVal, UInt32.reduceSub, UInt32.reduceToNat] at hc hd ⊢
    omega

/-- The words that are the same but for case. -/
theorem mem_anyCase {t : Text} (ht : t.all Char.isLower = true) :
    w ∈ (anyCase t).language ↔ w.map Char.toLower = t := by
  induction t generalizing w with
  | nil => rw [List.map_eq_nil_iff]; exact mem_empty
  | cons c t ih =>
    rw [List.all_cons, Bool.and_eq_true] at ht
    have hcons : anyCase (c :: t) = .seq (.either (just c) (just c.toUpper)) (anyCase t) := rfl
    have hfirst (v : Text) : v ∈ (either (just c) (just c.toUpper)).language ↔
        ∃ d, v = [d] ∧ d.toLower = c := by
      simp only [mem_either, mem_just, toLower_eq_iff ht.1]
      constructor
      · rintro (rfl | rfl)
        · exact ⟨c, rfl, .inl rfl⟩
        · exact ⟨c.toUpper, rfl, .inr rfl⟩
      · rintro ⟨d, rfl, rfl | rfl⟩
        · exact .inl rfl
        · exact .inr rfl
    rw [hcons, mem_seq_cons_iff hfirst, List.map_eq_cons_iff]
    simp only [ih ht.2]

end Regular

/-! The rules. -/

namespace Lexical

open Regular

def blank : Regular := .among [(' ', ' '), ('\t', '\t'), ('\r', '\r'), ('\n', '\n')]

def digit : Regular := .among [('0', '9')]

def whitespace : Regular := .oneOrMore blank

def comment : Regular := .seq (.text "//".toList) (.many (.except [('\n', '\n')]))

def int : Regular := .oneOrMore digit

def float : Regular := .seq int (.seq (.just '.') int)

def ident : Regular :=
  .seq (.among [('A', 'Z'), ('a', 'z'), ('_', '_')])
    (.many (.among [('A', 'Z'), ('a', 'z'), ('0', '9'), ('_', '_')]))

/-- What stands between the quotes of a string: a character, or a backslash and a character. -/
def item : Regular :=
  .either (.except [('"', '"'), ('\\', '\\'), ('\n', '\n')])
    (.seq (.just '\\') (.except [('\n', '\n')]))

def str : Regular := .seq (.just '"') (.seq (.many item) (.just '"'))

def keywords : List (Kind × Regular) :=
  [(.keyword .var, .anyCase "var".toList), (.keyword .if_, .anyCase "if".toList),
    (.keyword .else_, .anyCase "else".toList), (.keyword .while_, .anyCase "while".toList),
    (.keyword .true_, .anyCase "true".toList), (.keyword .false_, .anyCase "false".toList),
    (.keyword .int, .anyCase "int".toList), (.keyword .float, .anyCase "float".toList),
    (.keyword .bool, .anyCase "bool".toList), (.keyword .string, .anyCase "string".toList)]

def operators : List (Kind × Regular) :=
  [(.op .equal, .text "==".toList), (.op .notEqual, .text "!=".toList),
    (.op .lessOrEqual, .text "<=".toList), (.op .greaterOrEqual, .text ">=".toList),
    (.op .and, .text "&&".toList), (.op .or, .text "||".toList), (.op .assign, .text "=".toList),
    (.op .less, .text "<".toList), (.op .greater, .text ">".toList), (.op .plus, .text "+".toList),
    (.op .minus, .text "-".toList), (.op .times, .text "*".toList), (.op .divide, .text "/".toList),
    (.op .modulo, .text "%".toList), (.op .not, .text "!".toList)]

def punctuation : List (Kind × Regular) :=
  [(.semicolon, .text ";".toList), (.comma, .text ",".toList), (.colon, .text ":".toList),
    (.openParen, .text "(".toList), (.closeParen, .text ")".toList),
    (.openCurly, .text "\x7b".toList), (.closeCurly, .text "\x7d".toList)]

/-- The rules in order. A rule with several categories is several rules, one for each. -/
def rules : List (Kind × Regular) :=
  [(.whitespace, whitespace), (.comment, comment)] ++ keywords ++
    [(.float, float), (.int, int), (.ident, ident), (.str, str)] ++ operators ++ punctuation

variable {w : Text}

theorem mem_blank : w ∈ blank.language ↔ ∃ c, w = [c] ∧ Pattern.isBlank c = true := by
  simp [blank, isBlank_iff]

theorem mem_digit : w ∈ digit.language ↔ ∃ c, w = [c] ∧ c.isDigit = true := by
  have hranges (c : Char) : inRanges [('0', '9')] c = c.isDigit := Bool.or_false _
  simp only [digit, mem_among, hranges]

theorem mem_whitespace : w ∈ whitespace.language ↔ w ≠ [] ∧ ∀ c ∈ w, Pattern.isBlank c = true :=
  mem_oneOrMore_iff fun _ => mem_blank

theorem mem_int : w ∈ int.language ↔ w ≠ [] ∧ Digits w := mem_oneOrMore_iff fun _ => mem_digit

/-- A comment ends before the line does. -/
theorem mem_comment : w ∈ comment.language ↔ ∃ body, w = '/' :: '/' :: body ∧ '\n' ∉ body := by
  have hmany (v : Text) : v ∈ (many (.except [('\n', '\n')])).language ↔ '\n' ∉ v := by
    rw [mem_many_iff (p := (· ≠ '\n')) fun _ => by simp]
    exact ⟨fun h hv => h _ hv rfl, fun h c hc heq => h (heq ▸ hc)⟩
  simp only [comment, mem_seq, mem_text, hmany, exists_eq_left]
  constructor
  · rintro ⟨body, hbody, rfl⟩
    exact ⟨body, rfl, hbody⟩
  · rintro ⟨body, rfl, hbody⟩
    exact ⟨body, hbody, rfl⟩

theorem mem_keyword {k : Keyword} :
    w ∈ (anyCase k.spelling).language ↔ w.map Char.toLower = k.spelling :=
  mem_anyCase (by cases k <;> decide)

/-- There are digits on both sides of the point. -/
theorem mem_float : w ∈ float.language ↔
    ∃ whole fraction, w = whole ++ '.' :: fraction ∧ (whole ≠ [] ∧ Digits whole) ∧
      fraction ≠ [] ∧ Digits fraction := by
  simp only [float, mem_seq, mem_just, exists_eq_left, mem_int]
  constructor
  · rintro ⟨whole, hwhole, _, ⟨fraction, hfraction, rfl⟩, rfl⟩
    exact ⟨whole, fraction, rfl, hwhole, hfraction⟩
  · rintro ⟨whole, fraction, rfl, hwhole, hfraction⟩
    exact ⟨whole, hwhole, _, ⟨fraction, hfraction, rfl⟩, rfl⟩

theorem inRanges_startsWord (c : Char) :
    inRanges [('A', 'Z'), ('a', 'z'), ('_', '_')] c = Pattern.startsWord c := by
  have hupper : c.isUpper = decide ('A' ≤ c ∧ c ≤ 'Z') := rfl
  have hlower : c.isLower = (decide ('a' ≤ c) && decide (c ≤ 'z')) := rfl
  have halpha : c.isAlpha = (c.isUpper || c.isLower) := rfl
  have hself : inRanges [('_', '_')] c = decide (c = '_') := by simp
  have hranges : inRanges [('A', 'Z'), ('a', 'z'), ('_', '_')] c =
      ((decide ('A' ≤ c) && decide (c ≤ 'Z')) ||
        ((decide ('a' ≤ c) && decide (c ≤ 'z')) || inRanges [('_', '_')] c)) := rfl
  rw [hranges, hself, Pattern.startsWord, halpha, hupper, hlower, Bool.decide_and, Bool.or_assoc]

theorem inRanges_inWord (c : Char) :
    inRanges [('A', 'Z'), ('a', 'z'), ('0', '9'), ('_', '_')] c = Pattern.inWord c := by
  have hstarts := inRanges_startsWord c
  have hranges : inRanges [('A', 'Z'), ('a', 'z'), ('0', '9'), ('_', '_')] c =
      (inRanges [('A', 'Z'), ('a', 'z'), ('_', '_')] c || c.isDigit) := by
    have hdigit : c.isDigit = (decide ('0' ≤ c) && decide (c ≤ '9')) := rfl
    simp only [inRanges, List.any_cons, List.any_nil, Bool.or_false, hdigit]
    ac_rfl
  have halphanum : c.isAlphanum = (c.isAlpha || c.isDigit) := rfl
  rw [hranges, hstarts, Pattern.startsWord, Pattern.inWord, halphanum]
  ac_rfl

theorem mem_ident : w ∈ ident.language ↔ isWord w = true := by
  have hmany (v : Text) :
      v ∈ (many (.among [('A', 'Z'), ('a', 'z'), ('0', '9'), ('_', '_')])).language ↔
        v.all Pattern.inWord = true := by
    rw [mem_many_iff (p := (Pattern.inWord · = true)) fun _ => by
      simp only [mem_among, inRanges_inWord], List.all_eq_true]
  rw [ident, mem_seq_cons_iff (p := (Pattern.startsWord · = true)) fun _ => by
    simp only [mem_among, inRanges_startsWord]]
  simp only [hmany]
  constructor
  · rintro ⟨c, v, rfl, hc, hv⟩
    rw [isWord, hc, hv]
    rfl
  · intro h
    cases w with
    | nil => cases h
    | cons c v =>
      rw [isWord, Bool.and_eq_true] at h
      exact ⟨c, v, rfl, h⟩

/-- A string is made of plain characters and of backslashes with one behind. -/
theorem mem_item : w ∈ item.language ↔ ∃ i : Item, i.IsValid ∧ w = i.spelling := by
  simp only [item, mem_either, mem_except, inRanges_self, inRanges_nil, Bool.or_false,
    Bool.or_eq_false_iff, decide_eq_false_iff_not, mem_seq, mem_just, exists_eq_left]
  constructor
  · rintro (⟨c, rfl, hc⟩ | ⟨_, ⟨c, rfl, hc⟩, rfl⟩)
    · exact ⟨.plain c, hc, rfl⟩
    · exact ⟨.escaped c, hc, rfl⟩
  · rintro ⟨i, hi, rfl⟩
    cases i with
    | plain c => exact .inl ⟨c, rfl, hi⟩
    | escaped c => exact .inr ⟨[c], ⟨c, rfl, hi⟩, rfl⟩

theorem mem_items : w ∈ (many item).language ↔
    ∃ items : List Item, (∀ i ∈ items, i.IsValid) ∧ w = Item.spellings items := by
  rw [mem_many]
  constructor
  · rintro ⟨parts, rfl, hparts⟩
    induction parts with
    | nil => exact ⟨[], by simp, rfl⟩
    | cons part parts ih =>
      rw [List.forall_mem_cons] at hparts
      obtain ⟨i, hi, rfl⟩ := mem_item.mp hparts.1
      obtain ⟨items, hitems, hflatten⟩ := ih hparts.2
      refine ⟨i :: items, List.forall_mem_cons.mpr ⟨hi, hitems⟩, ?_⟩
      rw [List.flatten_cons, hflatten]
      rfl
  · rintro ⟨items, hitems, rfl⟩
    refine ⟨items.map Item.spelling, rfl, ?_⟩
    intro part hpart
    obtain ⟨i, hi, rfl⟩ := List.mem_map.mp hpart
    exact mem_item.mpr ⟨i, hitems i hi, rfl⟩

/-- A string is a row of items between quotes. -/
theorem mem_str : w ∈ str.language ↔
    ∃ items : List Item, (∀ i ∈ items, i.IsValid) ∧ w = '"' :: (Item.spellings items ++ ['"']) := by
  simp only [str, mem_seq, mem_just, exists_eq_left, mem_items]
  constructor
  · rintro ⟨_, ⟨_, ⟨items, hitems, rfl⟩, rfl⟩, rfl⟩
    exact ⟨items, hitems, rfl⟩
  · rintro ⟨items, hitems, rfl⟩
    exact ⟨_, ⟨_, ⟨items, hitems, rfl⟩, rfl⟩, rfl⟩

end Lexical

end ImpC
