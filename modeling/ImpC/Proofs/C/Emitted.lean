import Mathlib.Data.List.Forall2
import ImpC.Proofs.C.Literal
import ImpC.Proofs.Target.Emission

/-!
# The lexemes of emitted programs

Emitted C as a list of lexemes, row by row. The text of a program is read as exactly these, whatever
its depth of indentation, if its names are words and its floating-point literals are not negative.
-/
namespace ImpC.Target

open ImpC.C

def commas (parts : List (List Lexeme)) : List Lexeme := List.intercalate [.mark [',']] parts

def enclosed (b : Bool) (ls : List Lexeme) : List Lexeme :=
  if b then .mark ['('] :: ls ++ [.mark [')']] else ls

mutual

def Expr.lexemes : Expr → List Lexeme
  | .literal value => literalLexemes value
  | .name name => [.word name]
  | .unary op operand => .mark op.symbol :: enclosed operand.needsParentheses operand.lexemes
  | .binary op left right =>
    enclosed left.needsParentheses left.lexemes ++
      .mark op.symbol :: enclosed right.needsParentheses right.lexemes
  | .call function arguments =>
    .word function :: .mark ['('] :: commas (Expr.lexemesAll arguments) ++ [.mark [')']]
  | .printf arguments =>
    .word "printf".toList :: .mark ['('] ::
      commas ([.string (format arguments)] :: Argument.lexemesAll arguments) ++ [.mark [')']]

def Expr.lexemesAll : List Expr → List (List Lexeme)
  | [] => []
  | e :: es => e.lexemes :: Expr.lexemesAll es

def Argument.lexemes : Argument → List Lexeme
  | .int value | .float value | .str value => value.lexemes
  | .bool value =>
    .mark ['('] :: value.lexemes ++ [.mark [')'], .mark ['?'], .string "\"true\"".toList,
      .mark [':'], .string "\"false\"".toList]

def Argument.lexemesAll : List Argument → List (List Lexeme)
  | [] => []
  | a :: as => a.lexemes :: Argument.lexemesAll as

end

def CType.lexemes : CType → List Lexeme
  | .int => [.word "int".toList]
  | .double => [.word "double".toList]
  | .bool => [.word "bool".toList]
  | .text => [.word "const".toList, .word "char".toList, .mark ['*']]

/-- A keyword, a condition and the brace that opens a block. -/
def guardLexemes (w : Text) (condition : List Lexeme) : List Lexeme :=
  .word w :: .mark ['('] :: condition ++ [.mark [')'], .mark ['\x7b']]

def Declarator.lexemes (d : Declarator) : List Lexeme :=
  d.type.lexemes ++ [.word d.name, .mark [';']]

/-- The lexemes up to the brace that opens a block. -/
def openingLexemes : Opening Expr → List Lexeme
  | .main =>
    [.word "int".toList, .word "main".toList, .mark ['('], .word "void".toList, .mark [')'],
      .mark ['\x7b']]
  | .plain => [.mark ['\x7b']]
  | .conditional condition => guardLexemes "if".toList condition.lexemes
  | .loop condition => guardLexemes "while".toList condition.lexemes
  | .otherwise => [.mark ['\x7d'], .word "else".toList, .mark ['\x7b']]
  | .alternative condition =>
    .mark ['\x7d'] :: .word "else".toList :: guardLexemes "if".toList condition.lexemes

def Row.lexemes : Row → List Lexeme
  | .enter opening declarators =>
    openingLexemes opening ++ declarators.flatMap Declarator.lexemes
  | .assignment target value => .word target :: .mark ['='] :: value.lexemes ++ [.mark [';']]
  | .evaluation value => value.lexemes ++ [.mark [';']]
  | .leave => [.mark ['\x7d']]

/-- The lexemes after the body of `main`. -/
def epilogueLexemes : List Lexeme :=
  [.word "return".toList, .number "0".toList, .mark [';'], .mark ['\x7d']]

mutual

/-- Names are words, and floating-point literals are not negative. -/
def Expr.Legible : Expr → Prop
  | .literal value => IsPlain value
  | .name name => isWord name = true
  | .unary _ operand => operand.Legible
  | .binary _ left right => left.Legible ∧ right.Legible
  | .call function arguments => isWord function = true ∧ Expr.LegibleAll arguments
  | .printf arguments => Argument.LegibleAll arguments

def Expr.LegibleAll : List Expr → Prop
  | [] => True
  | e :: es => e.Legible ∧ Expr.LegibleAll es

def Argument.Legible : Argument → Prop
  | .int value | .float value | .bool value | .str value => value.Legible

def Argument.LegibleAll : List Argument → Prop
  | [] => True
  | a :: as => a.Legible ∧ Argument.LegibleAll as

end

def Expr.isCall : Expr → Bool
  | .call _ _ | .printf _ => true
  | _ => false

/-- All expressions and names are legible, no keyword is declared, and only calls stand alone. -/
def Row.Legible : Row → Prop
  | .enter opening declarators =>
    (∀ condition ∈ opening.condition?, condition.Legible) ∧
      ∀ d ∈ declarators, isWord d.name = true ∧ isKeyword d.name = false
  | .assignment target value => isWord target = true ∧ value.Legible
  | .evaluation value => value.isCall = true ∧ value.Legible
  | .leave => True

variable {follows : Char → Prop}

theorem scans_parenthesized {t : Text} {ls : List Lexeme} (h : Scans Ends t ls) :
    Scans (fun _ => True) ('(' :: t ++ [')']) (.mark ['('] :: ls ++ [.mark [')']]) := by
  have hopen : Scans (fun _ => True) ['('] [.mark ['(']] := scans_mark_alone (by decide)
  have hclose : Scans (fun _ => True) [')'] [.mark [')']] := scans_mark_alone (by decide)
  exact hopen.andThen (h.append (.inr (.inl rfl)) hclose)

theorem scans_enclose {b : Bool} {t : Text} {ls : List Lexeme} (h : Scans Ends t ls) :
    Scans Ends (enclose b t) (enclosed b ls) := by
  cases b with
  | true => exact (scans_parenthesized h).weaken
  | false => exact h

/-- A comma ends whatever lexeme stands before it. -/
theorem scans_commas {ts : List Text} {parts : List (List Lexeme)}
    (h : List.Forall₂ (Scans Ends) ts parts) : Scans Ends (commaSeparated ts) (commas parts) := by
  have hcomma : Scans (fun _ => True) [','] [.mark [',']] := scans_mark_alone (by decide)
  induction h with
  | nil => exact fun _ _ _ => rfl
  | @cons t ls ts parts hfirst hmore ih =>
    cases hmore with
    | nil => simpa [commaSeparated, commas] using hfirst
    | cons _ _ =>
      rw [commaSeparated, commas, List.intercalate_cons_cons, List.intercalate_cons_cons,
        List.append_assoc, List.append_assoc]
      exact hfirst.append (.inr (.inr (.inr rfl))) (hcomma.andThen (scans_space.andThen ih))

theorem scans_call {f : Text} {ts : List Text} {parts : List (List Lexeme)} (hf : isWord f = true)
    (h : List.Forall₂ (Scans Ends) ts parts) :
    Scans Ends (f ++ '(' :: commaSeparated ts ++ [')'])
      (.word f :: .mark ['('] :: commas parts ++ [.mark [')']]) := by
  have harguments := scans_parenthesized (scans_commas h)
  rw [List.append_assoc]
  exact (scans_word hf).append (by decide) harguments.weaken

theorem unary_scans (op : UnaryOp) :
    Scans (fun c => c ∉ joining) op.symbol [.mark op.symbol] := by
  cases op with
  | negate => exact scans_mark (c := '-') (t := []) (by decide)
  | not => exact scans_mark (c := '!') (t := []) (by decide)

/-- An operator is one lexeme if what follows cannot make it longer. -/
theorem binary_scans (op : BinaryOp) :
    Scans (fun c => c ∉ joining) op.symbol [.mark op.symbol] := by
  have hsymbol : ∃ c t, op.symbol = c :: t ∧ (enter c).run t = some (.mark (c :: t)) := by
    cases op <;> exact ⟨_, _, rfl, by decide⟩
  obtain ⟨c, t, ht, hrun⟩ := hsymbol
  rw [ht]
  exact scans_mark hrun

/-- An operand that stands without parentheses does not join the operator before it. -/
theorem Expr.render_head {e : Expr} (h : e.Legible) (hbare : e.needsParentheses = false) :
    ∃ c t, e.render = c :: t ∧ c ∉ joining := by
  cases e with
  | literal value =>
    cases value with
    | int n =>
      have hpos : ¬ n.toInt < 0 := of_decide_eq_false hbare
      obtain ⟨m, hm⟩ := Int.eq_ofNat_of_zero_le (Int.not_lt.mp hpos)
      have hrender : (Expr.literal (.int n)).render = Text.ofNat m := by
        have hinteger : integer n = Text.ofInt n.toInt := if_neg (by omega)
        rw [hm] at hinteger
        exact hinteger
      rw [hrender]
      exact (isNumber_ofNat m).head
    | float x =>
      have hrender : (Expr.literal (.float x)).render = floating x := rfl
      rw [hrender]
      exact (isNumber_floating h).head
    | bool b =>
      cases b with
      | true => exact ⟨'t', _, rfl, by decide⟩
      | false => exact ⟨'f', _, rfl, by decide⟩
    | str t => exact ⟨'"', _, rfl, by decide⟩
  | name name => exact isWord_head h
  | unary | binary => cases hbare
  | call function arguments =>
    obtain ⟨c, t, rfl, hc⟩ := isWord_head h.1
    exact ⟨c, _, rfl, hc⟩
  | printf arguments => exact ⟨'p', _, rfl, by decide⟩

theorem run_plain {t : Text} (h : ∀ c ∈ t, c ≠ '"' ∧ c ≠ '\\') (read : Text) :
    (Mode.string read false).run t = some (.string (read ++ t) false) := by
  induction t generalizing read with
  | nil => simp [Mode.run]
  | cons c t ih =>
    rw [List.forall_mem_cons] at h
    simp [Mode.run, Mode.next?, h.1, ih h.2]

/-- Formats have no character that would end the literal early. -/
theorem conversions_plain (arguments : List Argument) :
    ∀ c ∈ List.intercalate [' '] (arguments.map Argument.conversion), c ≠ '"' ∧ c ≠ '\\' := by
  have hall (a : Argument) : ∀ c ∈ a.conversion, c ≠ '"' ∧ c ≠ '\\' := by
    have hplain : a.conversion.all (fun c => c ≠ '"' ∧ c ≠ '\\') = true := by cases a <;> rfl
    exact fun c hc => of_decide_eq_true (List.all_eq_true.mp hplain c hc)
  induction arguments with
  | nil => nofun
  | cons a as ih =>
    cases as with
    | nil => simpa using hall a
    | cons b as =>
      intro c hc
      rw [List.map_cons, List.map_cons, List.intercalate_cons_cons] at hc
      simp only [List.mem_append, List.mem_singleton] at hc
      rcases hc with (hc | rfl) | hc
      · exact hall a c hc
      · decide
      · exact ih c hc

theorem isString_format (arguments : List Argument) : IsString (format arguments) := by
  refine ⟨List.intercalate [' '] (arguments.map Argument.conversion) ++ "\\n\"".toList, rfl, ?_⟩
  rw [run_append (run_plain (conversions_plain arguments) _)]
  simp [Mode.run, Mode.next?, format]

mutual

/-- A rendered expression is scanned as its lexemes, if what follows ends its last one. -/
theorem Expr.scans : ∀ e : Expr, e.Legible → Scans Ends e.render e.lexemes
  | .literal _, h => literal_scans h
  | .name _, h => scans_word_end h
  | .unary op operand, h => by
    have hoperand := scans_enclose (b := operand.needsParentheses) (Expr.scans operand h)
    obtain ⟨c, t, ht, hc⟩ : ∃ c t, enclose operand.needsParentheses operand.render = c :: t ∧
        c ∉ joining := by
      cases hbare : operand.needsParentheses with
      | true => exact ⟨'(', _, rfl, by decide⟩
      | false => exact Expr.render_head h hbare
    rw [ht] at hoperand
    have hboth := (unary_scans op).append hc hoperand
    rw [← ht] at hboth
    exact hboth
  | .binary op left right, h => by
    have hleft := scans_enclose (b := left.needsParentheses) (Expr.scans left h.1)
    have hright := scans_enclose (b := right.needsParentheses) (Expr.scans right h.2)
    have hboth := scans_infix hleft (binary_scans op) hright
    rw [← List.cons_append, ← List.append_assoc] at hboth
    exact hboth
  | .call _ arguments, h => scans_call h.1 (Expr.scansAll arguments h.2)
  | .printf arguments, h =>
    scans_call (f := "printf".toList) (by decide)
      (.cons (scans_string (isString_format arguments)).weaken (Argument.scansAll arguments h))

theorem Expr.scansAll : ∀ es : List Expr, Expr.LegibleAll es →
    List.Forall₂ (Scans Ends) (Expr.renderAll es) (Expr.lexemesAll es)
  | [], _ => .nil
  | e :: es, h => .cons (Expr.scans e h.1) (Expr.scansAll es h.2)

theorem Argument.scans : ∀ a : Argument, a.Legible → Scans Ends a.render a.lexemes
  | .int value, h | .float value, h | .str value, h => Expr.scans value h
  | .bool value, h => by
    have hvalue := scans_parenthesized (Expr.scans value h)
    have hfirst := scans_infix hvalue.weaken (scans_mark (c := '?') (t := []) (by decide))
      (scans_string (t := "\"true\"".toList) ⟨_, rfl, by decide⟩).weaken
    have hboth := scans_infix hfirst (scans_mark (c := ':') (t := []) (by decide))
      (scans_string (t := "\"false\"".toList) ⟨_, rfl, by decide⟩).weaken
    simp only [List.cons_append, List.append_assoc, List.nil_append] at hboth
    exact hboth

theorem Argument.scansAll : ∀ as : List Argument, Argument.LegibleAll as →
    List.Forall₂ (Scans Ends) (Argument.renderAll as) (Argument.lexemesAll as)
  | [], _ => .nil
  | a :: as, h => .cons (Argument.scans a h.1) (Argument.scansAll as h.2)

end

/-- The lines are read as the lexemes, whatever follows. -/
def LinesScan (lines : List Line) (ls : List Lexeme) : Prop :=
  Scans (fun _ => True) (lines.flatMap Line.pieces).flatten ls

theorem linesScan_nil : LinesScan [] [] := fun _ _ _ => rfl

/-- Lines end with a line feed, so no lexeme goes over the end of one. -/
theorem LinesScan.append {lines lines' : List Line} {ls ms : List Lexeme} (h : LinesScan lines ls)
    (h' : LinesScan lines' ms) : LinesScan (lines ++ lines') (ls ++ ms) := by
  rw [LinesScan, List.flatMap_append, List.flatten_append]
  exact h.andThen h'

theorem scans_blanks (n : Nat) : Scans (fun _ => True) (Text.blanks n) [] := by
  induction n with
  | zero => exact fun _ _ _ => rfl
  | succ n ih => exact scans_space.andThen ih

/-- The blanks in front of a line are no lexemes. -/
theorem linesScan_line {l : Line} {ls : List Lexeme} (h : Scans (fun c => c = '\n') l.text ls) :
    LinesScan [l] ls := by
  have hend : Scans (fun _ => True) ['\n'] [] := scans_blank (by decide)
  have hline := (scans_blanks (4 * l.depth)).andThen (h.append rfl hend)
  simpa [LinesScan, Line.pieces, Line.text] using hline

theorem scans_semicolon : Scans (fun _ => True) [';'] [.mark [';']] := scans_mark_alone (by decide)

theorem scans_opening : Scans (fun _ => True) ['\x7b'] [.mark ['\x7b']] :=
  scans_mark_alone (by decide)

theorem scans_closing : Scans (fun _ => True) ['\x7d'] [.mark ['\x7d']] :=
  scans_mark_alone (by decide)

theorem scans_terminated {t : Text} {ls : List Lexeme} (h : Scans Ends t ls) :
    Scans (fun _ => True) (t ++ [';']) (ls ++ [.mark [';']]) :=
  h.append (.inr (.inr (.inl rfl))) scans_semicolon

/-- The word, condition and brace of a line that opens a block. -/
theorem scans_guard {w t : Text} {ls : List Lexeme} (hw : isWord w = true) (h : Scans Ends t ls) :
    Scans (fun _ => True) (w ++ " (".toList ++ (t ++ ") \x7b".toList)) (guardLexemes w ls) := by
  have hblock := (scans_parenthesized h).andThen (scans_space.andThen scans_opening)
  have hguard := (scans_word hw).append (by decide) (scans_space.andThen hblock)
  simpa [guardLexemes] using hguard

theorem scans_closing_else {t : Text} {ls : List Lexeme} (h : Scans (fun _ => True) t ls) :
    Scans (fun _ => True) ("\x7d else ".toList ++ t)
      (.mark ['\x7d'] :: .word "else".toList :: ls) := by
  have helse : Scans (fun c => Pattern.inWord c = false) "else".toList [.word "else".toList] :=
    scans_word (by decide)
  exact scans_closing.andThen
    (scans_space.andThen (helse.append (by decide) (scans_space.andThen h)))

/-- The star of a pointer type ends before the name that stands at it. -/
theorem Declarator.scans {d : Declarator} (h : isWord d.name = true) :
    Scans (fun _ => True) (d.render ++ [';']) d.lexemes := by
  have hword {t : Text} (ht : isWord t = true) :
      Scans (fun _ => True) (t ++ ' ' :: (d.name ++ [';'])) [.word t, .word d.name, .mark [';']] :=
    (scans_word ht).append (by decide) (scans_space.andThen (scans_terminated (scans_word_end h)))
  obtain ⟨type, name⟩ := d
  cases type with
  | int => exact hword (t := "int".toList) (by decide)
  | double => exact hword (t := "double".toList) (by decide)
  | bool => exact hword (t := "bool".toList) (by decide)
  | text =>
    have hword : Scans (fun c => Pattern.inWord c = false) "const".toList [.word "const".toList] :=
      scans_word (by decide)
    have hchar : Scans (fun c => Pattern.inWord c = false) "char".toList [.word "char".toList] :=
      scans_word (by decide)
    have hstar : Scans (fun c => c ∉ joining) ['*'] [.mark ['*']] := scans_mark (by decide)
    have hname := scans_terminated (scans_word_end h)
    obtain ⟨c, t, ht, hc⟩ := isWord_head h
    have hhead : name ++ [';'] = c :: (t ++ [';']) := congrArg (· ++ [';']) ht
    rw [hhead] at hname
    have hstarred := hstar.append hc hname
    rw [← hhead] at hstarred
    exact hword.append (by decide) (scans_space.andThen
      (hchar.append (by decide) (scans_space.andThen hstarred)))

/-- A directive goes up to the end of its line and has no lexemes. -/
theorem scans_directive {t : Text} (h : Mode.line.run t = some .line) :
    Scans (fun c => c = '\n') ('#' :: t) [] := by
  have hrun : (enter '#').run t = some .line := h
  exact (scans_of_run hrun).mono fun _ hc => by simp [Mode.next?, hc]

theorem prologue_scans : LinesScan prologue (openingLexemes .main) := by
  have hword {w : Text} (hw : isWord w = true) :
      Scans (fun c => Pattern.inWord c = false) w [.word w] := scans_word hw
  have hblock := (scans_parenthesized (scans_word_end (t := "void".toList) (by decide))).andThen
    (scans_space.andThen scans_opening)
  have hmain := (hword (w := "int".toList) (by decide)).append (by decide)
    (scans_space.andThen ((hword (w := "main".toList) (by decide)).append (by decide) hblock))
  have hbool : LinesScan [⟨0, ["#include <stdbool.h>".toList]⟩] [] :=
    linesScan_line (scans_directive (by decide))
  have hio : LinesScan [⟨0, ["#include <stdio.h>".toList]⟩] [] :=
    linesScan_line (scans_directive (by decide))
  have hblank : LinesScan [⟨0, []⟩] [] := linesScan_line fun _ _ _ => rfl
  exact hbool.append (hio.append (hblank.append (linesScan_line hmain.weaken)))

theorem openingLines_scan (depth : Nat) {opening : Opening Expr}
    (h : ∀ condition ∈ opening.condition?, condition.Legible) :
    LinesScan (openingLines depth opening) (openingLexemes opening) := by
  have hguard {w : Text} (hw : isWord w = true) {condition : Expr} (h : condition.Legible) :
      Scans (fun _ => True) (w ++ " (".toList ++ (condition.render ++ (") \x7b".toList ++ [])))
        (guardLexemes w condition.lexemes) := by
    rw [List.append_nil]
    exact scans_guard hw (Expr.scans condition h)
  cases opening with
  | main => exact prologue_scans
  | plain => exact linesScan_line scans_opening.weaken
  | conditional condition =>
    exact linesScan_line (hguard (w := "if".toList) (by decide) (h _ rfl)).weaken
  | loop condition =>
    exact linesScan_line (hguard (w := "while".toList) (by decide) (h _ rfl)).weaken
  | otherwise => exact linesScan_line (scans_closing_else scans_opening).weaken
  | alternative condition =>
    have helse := scans_closing_else (hguard (w := "if".toList) (by decide) (h condition rfl))
    exact linesScan_line helse.weaken

theorem declaratorLines_scan (depth : Nat) {ds : List Declarator}
    (h : ∀ d ∈ ds, isWord d.name = true ∧ isKeyword d.name = false) :
    LinesScan (declaratorLines depth ds) (ds.flatMap Declarator.lexemes) := by
  induction ds with
  | nil => exact linesScan_nil
  | cons d ds ih =>
    rw [List.forall_mem_cons] at h
    have hline : LinesScan [⟨depth, [d.render, [';']]⟩] d.lexemes :=
      linesScan_line (Declarator.scans h.1.1).weaken
    exact hline.append (ih h.2)

theorem Row.scans (depth : Nat) {r : Row} (h : r.Legible) : LinesScan (r.lines depth) r.lexemes := by
  cases r with
  | enter opening declarators =>
    exact (openingLines_scan depth h.1).append (declaratorLines_scan (depth + 1) h.2)
  | assignment target value =>
    have hassign := scans_infix (scans_word_end h.1) (scans_mark (c := '=') (t := []) (by decide))
      (Expr.scans value h.2)
    have hline := scans_terminated hassign
    rw [List.append_assoc] at hline
    exact linesScan_line hline.weaken
  | evaluation value => exact linesScan_line (scans_terminated (Expr.scans value h.2)).weaken
  | leave => exact linesScan_line scans_closing.weaken

/-- The lines of rows are scanned as the lexemes of the rows, whatever their depth. -/
theorem Row.scansAll (depth : Nat) {rows : List Row} (h : ∀ r ∈ rows, r.Legible) :
    LinesScan (linesAll depth rows) (rows.flatMap Row.lexemes) := by
  induction rows generalizing depth with
  | nil => exact linesScan_nil
  | cons r rows ih =>
    rw [List.forall_mem_cons] at h
    exact (Row.scans (r.around depth) h.1).append (ih (r.after depth) h.2)

/-- The text of legible rows is read as their lexemes. -/
theorem program_lexemes {rows : List Row} (h : ∀ r ∈ rows, r.Legible) :
    C.lexemes ((Row.linesAll 0 rows ++ epilogue).flatMap Line.pieces).flatten =
      rows.flatMap Row.lexemes ++ epilogueLexemes := by
  have hnumber : Scans Ends "0".toList [.number "0".toList] :=
    scans_number_end (isNumber_of_plain (c := '0') rfl (List.all_eq_true.mp rfl))
  have hreturn : Scans (fun _ => True) "return 0;".toList
      [.word "return".toList, .number "0".toList, .mark [';']] :=
    (scans_word (t := "return".toList) (by decide)).append (by decide)
      (scans_space.andThen (scans_terminated hnumber))
  have hline : LinesScan [⟨1, ["return 0;".toList]⟩] _ := linesScan_line hreturn.weaken
  have hlines := (Row.scansAll 0 h).append hline
  -- the last line has nothing after it
  have hsplit : ((Row.linesAll 0 rows ++ epilogue).flatMap Line.pieces).flatten =
      ((Row.linesAll 0 rows ++ [(⟨1, ["return 0;".toList]⟩ : Line)]).flatMap
        Line.pieces).flatten ++ ['\x7d', '\n'] := by
    simp [epilogue, Line.pieces, Text.blanks]
  have hlast : scan .between ['\x7d', '\n'] = [.mark ['\x7d']] := rfl
  rw [C.lexemes, hsplit, hlines '\x7d' ['\n'] trivial, hlast, List.append_assoc]
  rfl

end ImpC.Target
