import ImpC.Proofs.C.Outline
import ImpC.Proofs.C.Emitted
import ImpC.Proofs.C.StringLiteral
import ImpC.Proofs.Text.Lines

/-!
# The lines of emitted programs

Nothing that is emitted has a line break in it, so the lines of the text are those that were written.
Each is inside of as many blocks as it is indented for.
-/
namespace ImpC.Target

open ImpC.C

/-- A line as it stands in the text. -/
def Line.shown (l : Line) : Text := Text.blanks (4 * l.depth) ++ l.text

/-- The text stays on its line. -/
def Unbroken (t : Text) : Prop := ∀ c ∈ t, c ≠ '\n' ∧ c ≠ '\r'

theorem all_iff_unbroken {t : Text} :
    t.all (fun c => c ≠ '\n' ∧ c ≠ '\r') = true ↔ Unbroken t := by
  simp [Unbroken]

instance (t : Text) : Decidable (Unbroken t) := decidable_of_iff _ all_iff_unbroken

section Unbroken

variable {s t : Text}

@[simp] theorem unbroken_nil : Unbroken [] := by simp [Unbroken]

@[simp] theorem unbroken_cons {c : Char} :
    Unbroken (c :: t) ↔ (c ≠ '\n' ∧ c ≠ '\r') ∧ Unbroken t := List.forall_mem_cons

@[simp] theorem unbroken_append : Unbroken (s ++ t) ↔ Unbroken s ∧ Unbroken t :=
  List.forall_mem_append

/-- A class of characters without line breaks. -/
theorem unbroken_of_all {p : Char → Bool} (hnewline : p '\n' = false) (hreturn : p '\r' = false)
    (h : ∀ c ∈ t, p c = true) : Unbroken t := by
  intro c hc
  have hpc := h c hc
  constructor
  · rintro rfl
    simp [hnewline] at hpc
  · rintro rfl
    simp [hreturn] at hpc

theorem unbroken_word (h : isWord t = true) : Unbroken t :=
  unbroken_of_all (by decide) (by decide) (inWord_of_isWord h)

theorem unbroken_digits (h : Digits t) : Unbroken t := unbroken_of_all (by decide) (by decide) h

theorem unbroken_graphic (h : ∀ c ∈ t, IsGraphic c) : Unbroken t := by
  intro c hc
  obtain ⟨hmin, -⟩ := h c hc
  constructor
  · rintro rfl
    exact absurd hmin (by decide)
  · rintro rfl
    exact absurd hmin (by decide)

theorem unbroken_enclose {b : Bool} (h : Unbroken t) : Unbroken (enclose b t) := by
  cases b <;> simp [enclose, h]

theorem unbroken_intercalate {sep : Text} (hsep : Unbroken sep) {ts : List Text}
    (h : ∀ t ∈ ts, Unbroken t) : Unbroken (List.intercalate sep ts) := by
  induction ts with
  | nil => simp
  | cons t ts ih =>
    rw [List.forall_mem_cons] at h
    cases ts with
    | nil => simpa using h.1
    | cons u ts =>
      rw [List.intercalate_cons_cons, unbroken_append, unbroken_append]
      exact ⟨⟨h.1, hsep⟩, ih h.2⟩

theorem unbroken_number (h : IsNumber t) : Unbroken t := by
  -- whatever a number goes on with breaks no line
  have hmore (m : Mode) (read u : Text) (hrun : (Mode.number read).run u = some m) : Unbroken u := by
    induction u generalizing read with
    | nil => simp
    | cons c u ih =>
      rw [Mode.run, Mode.next?] at hrun
      by_cases hc : inNumber read c = true
      · rw [if_pos hc] at hrun
        have hfirst : Unbroken [c] :=
          unbroken_of_all (p := inNumber read) (by simp [inNumber, Pattern.inWord])
            (by simp [inNumber, Pattern.inWord]) (by simpa using hc)
        simp only [unbroken_cons, unbroken_nil, and_true] at hfirst ⊢
        exact ⟨hfirst, ih _ hrun⟩
      · rw [if_neg hc] at hrun
        cases hrun
  obtain ⟨c, u, rfl, hc, hrun⟩ := h
  have hdigit : Unbroken [c] := unbroken_digits (by simpa [Digits] using hc)
  simp only [unbroken_cons, unbroken_nil, and_true] at hdigit ⊢
  exact ⟨hdigit, hmore _ _ _ hrun⟩

/-- A line break in a string is escaped. -/
theorem unbroken_literal {v : Literal} (h : IsPlain v) : Unbroken (literal v) := by
  cases v with
  | int n =>
    rw [literal, integer]
    split
    · decide
    · cases n.toInt with
      | ofNat m => exact unbroken_digits (digits_ofNat m)
      | negSucc m => simpa [Text.ofInt] using unbroken_digits (digits_ofNat (m + 1))
  | float x => exact unbroken_number (isNumber_floating h)
  | bool b => cases b <;> decide
  | str t => exact unbroken_graphic (escape_graphic t)

theorem unbroken_format (arguments : List Argument) : Unbroken (format arguments) := by
  have hconversions : ∀ t ∈ arguments.map Argument.conversion, Unbroken t := by
    intro t ht
    obtain ⟨a, -, rfl⟩ := List.mem_map.mp ht
    cases a with
    | int => exact (by decide : Unbroken "%d".toList)
    | float => exact (by decide : Unbroken "%g".toList)
    | bool | str => exact (by decide : Unbroken "%s".toList)
  have hinner := unbroken_intercalate (by decide : Unbroken [' ']) hconversions
  have hquote : Unbroken "\\n\"".toList := by decide
  rw [format, List.cons_append, unbroken_cons, unbroken_append]
  exact ⟨by decide, hinner, hquote⟩

theorem unbroken_call {f : Text} {ts : List Text} (hf : Unbroken f) (h : ∀ t ∈ ts, Unbroken t) :
    Unbroken (f ++ '(' :: commaSeparated ts ++ [')']) := by
  have hinner := unbroken_intercalate (by decide : Unbroken ", ".toList) h
  rw [List.append_assoc, unbroken_append, List.cons_append, unbroken_cons, unbroken_append]
  exact ⟨hf, by decide, hinner, by decide⟩

mutual

/-- An expression stays on its line. -/
theorem Expr.unbroken : ∀ e : Expr, e.Legible → Unbroken e.render
  | .literal _, h => unbroken_literal h
  | .name _, h => unbroken_word h
  | .unary op operand, h => by
    have hoperand := unbroken_enclose (b := operand.needsParentheses) (Expr.unbroken operand h)
    have hsign : Unbroken op.symbol := by cases op <;> decide
    exact unbroken_append.mpr ⟨hsign, hoperand⟩
  | .binary op left right, h => by
    have hleft := unbroken_enclose (b := left.needsParentheses) (Expr.unbroken left h.1)
    have hright := unbroken_enclose (b := right.needsParentheses) (Expr.unbroken right h.2)
    have hsign : Unbroken op.symbol := by cases op <;> decide
    have hspaced : Unbroken (' ' :: op.symbol) := unbroken_cons.mpr ⟨by decide, hsign⟩
    exact unbroken_append.mpr
      ⟨unbroken_append.mpr ⟨hleft, hspaced⟩, unbroken_cons.mpr ⟨by decide, hright⟩⟩
  | .call function arguments, h => unbroken_call (unbroken_word h.1) (Expr.unbrokenAll arguments h.2)
  | .printf arguments, h => by
    have hall := List.forall_mem_cons.mpr ⟨unbroken_format arguments, Argument.unbrokenAll arguments h⟩
    exact unbroken_call (f := "printf".toList) (by decide) hall

theorem Expr.unbrokenAll : ∀ es : List Expr, Expr.LegibleAll es → ∀ t ∈ Expr.renderAll es, Unbroken t
  | [], _ => by simp [Expr.renderAll]
  | e :: es, h => List.forall_mem_cons.mpr ⟨Expr.unbroken e h.1, Expr.unbrokenAll es h.2⟩

theorem Argument.unbroken : ∀ a : Argument, a.Legible → Unbroken a.render
  | .int value, h | .float value, h | .str value, h => Expr.unbroken value h
  | .bool value, h => by
    have htail : Unbroken ") ? \"true\" : \"false\"".toList := by decide
    exact unbroken_append.mpr ⟨unbroken_cons.mpr ⟨by decide, Expr.unbroken value h⟩, htail⟩

theorem Argument.unbrokenAll : ∀ as : List Argument, Argument.LegibleAll as →
    ∀ t ∈ Argument.renderAll as, Unbroken t
  | [], _ => by simp [Argument.renderAll]
  | a :: as, h => List.forall_mem_cons.mpr ⟨Argument.unbroken a h.1, Argument.unbrokenAll as h.2⟩

end

end Unbroken

/-- A line that starts with no blank, and with a closing brace or not, and ends with an opening brace
or not. -/
structure Braced (closing opening : Bool) (t : Text) : Prop where
  head : ∃ c, t.head? = some c ∧ c ≠ ' ' ∧ (c = '\x7d' ↔ closing = true)
  last : t.getLast? = some '\x7b' ↔ opening = true

namespace Braced

variable {closing opening : Bool} {l : Line}

/-- No text starts with a blank, so the indentation can be told from it. -/
theorem dropWhile_shown (h : Braced closing opening l.text) :
    l.shown.dropWhile (· = ' ') = l.text := by
  obtain ⟨c, hc, hne, -⟩ := h.head
  obtain ⟨u, hu⟩ := List.head?_eq_some_iff.mp hc
  rw [Line.shown, Text.blanks, List.dropWhile_append_of_pos (by simp), hu,
    List.dropWhile_cons_of_neg (by simpa using hne)]

theorem takeWhile_shown (h : Braced closing opening l.text) :
    l.shown.takeWhile (· = ' ') = Text.blanks (4 * l.depth) := by
  obtain ⟨c, hc, hne, -⟩ := h.head
  obtain ⟨u, hu⟩ := List.head?_eq_some_iff.mp hc
  rw [Line.shown, Text.blanks, List.takeWhile_append_of_pos (by simp), hu,
    List.takeWhile_cons_of_neg (by simpa using hne), List.append_nil]

/-- Whether a line closes a block is told by its first character behind the indentation. -/
theorem closes_shown (h : Braced closing opening l.text) : C.closes l.shown = closing := by
  obtain ⟨c, hc, -, hiff⟩ := h.head
  rw [C.closes, h.dropWhile_shown, hc, Bool.eq_iff_iff, ← hiff]
  simp

theorem opens_shown (h : Braced closing opening l.text) : C.opens l.shown = opening := by
  obtain ⟨c, hc, -⟩ := h.head
  have hne : l.text ≠ [] := by
    intro hnil
    rw [hnil] at hc
    cases hc
  rw [C.opens, Line.shown, List.getLast?_append_of_ne_nil _ hne, Bool.eq_iff_iff, ← h.last]
  simp

end Braced

/-- The lines lead from one depth to another, each inside of as many blocks as it says, and after
none of them are there fewer than `least` open blocks. -/
inductive Walk (least : Nat) : Nat → List Line → Nat → Prop
  | nil (d : Nat) : Walk least d [] d
  | cons {d e : Nat} {l : Line} {closing opening : Bool} {ls : List Line}
      (braced : Braced closing opening l.text) (around : d = l.depth + closing.toNat)
      (enough : least ≤ l.depth + opening.toNat) (more : Walk least (l.depth + opening.toNat) ls e) :
      Walk least d (l :: ls) e

namespace Walk

variable {least d e : Nat} {ls : List Line}

theorem single {l : Line} {closing opening : Bool} (h : Braced closing opening l.text)
    (hleast : least ≤ l.depth + opening.toNat) :
    Walk least (l.depth + closing.toNat) [l] (l.depth + opening.toNat) :=
  .cons h rfl hleast (.nil _)

theorem zero (h : Walk least d ls e) : Walk 0 d ls e := by
  induction h with
  | nil => exact .nil _
  | cons braced around _ _ ih => exact .cons braced around (Nat.zero_le _) ih

/-- Walks are put together where one ends as deep as the next starts. -/
theorem append {m : Nat} {ms : List Line} (h : Walk least d ls m) (h' : Walk least m ms e) :
    Walk least d (ls ++ ms) e := by
  induction h with
  | nil => exact h'
  | cons braced around enough _ ih => exact .cons braced around enough (ih h')

/-- What a line does to the depth. -/
theorem line_depth {l : Line} {closing opening : Bool} (h : Braced closing opening l.text) :
    around? (l.depth + closing.toNat) l.shown = some l.depth ∧
      (if C.opens l.shown then l.depth + 1 else l.depth) = l.depth + opening.toNat := by
  constructor
  · rw [around?, h.closes_shown]
    cases closing <;> simp
  · rw [h.opens_shown]
    cases opening <;> simp

/-- The depth is that of the walk, as it is told by the lines alone. -/
theorem depth? (h : Walk least d ls e) : C.depth? d (ls.map Line.shown) = some e := by
  induction h with
  | nil => rfl
  | cons braced around _ _ ih =>
    obtain ⟨haround, hafter⟩ := line_depth braced
    rw [List.map_cons, C.depth?, around, haround, Option.bind_some, hafter, ih]

/-- Nowhere on the way is a walk less deep than its bound. -/
theorem depth?_take (h : Walk least d ls e) (hd : least ≤ d) (n : Nat) :
    ∃ m, least ≤ m ∧ C.depth? d ((ls.map Line.shown).take n) = some m := by
  induction h generalizing n with
  | nil d => exact ⟨d, hd, by simp [C.depth?]⟩
  | @cons d _ _ _ _ _ braced around enough _ ih =>
    cases n with
    | zero => exact ⟨d, hd, rfl⟩
    | succ n =>
      obtain ⟨haround, hafter⟩ := line_depth braced
      obtain ⟨m, hm, hdepth⟩ := ih enough n
      refine ⟨m, hm, ?_⟩
      rw [List.map_cons, List.take_succ_cons, C.depth?, around, haround, Option.bind_some, hafter,
        hdepth]

/-- Every line is indented by its depth. -/
theorem indented (h : Walk least d ls e) : Indented d (ls.map Line.shown) := by
  induction h with
  | nil => exact indented_nil _
  | cons braced around _ _ ih =>
    obtain ⟨haround, hafter⟩ := line_depth braced
    rw [List.map_cons, around]
    exact indented_cons haround (fun _ => braced.takeWhile_shown) (hafter ▸ ih)

end Walk

end ImpC.Target
