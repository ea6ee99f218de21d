import Mathlib.Data.List.Nodup
import Mathlib.Data.List.Forall2
import Mathlib.Data.List.ReduceOption
import ImpC.Proofs.C.Emitted
import ImpC.Proofs.C.Outline
import ImpC.Proofs.Target.Binding
import ImpC.Proofs.Target.Name
import ImpC.Proofs.Program.Sites

/-!
# Every variable is declared once or reported once

A block declares, at its head, the variables of its scope in the order of the table, unless a block
before it has the same scope. A variable whose type has no counterpart in C is reported instead, and
the only other reports are those of arguments to print.
-/
namespace ImpC.Target

/-- The variables of a scope, by their indices in the table. -/
def indicesOf (table : List Variable) (scope : Nat) : List Nat :=
  (List.range table.length).filter fun i => table[i]?.any (·.scope = scope)

/-- The variables that each of some blocks declares or reports, by their indices. The scopes `before`
belong to earlier blocks. -/
def owned (table : List Variable) : List Nat → List Nat → List (List Nat)
  | _, [] => []
  | before, scope :: scopes =>
    (if scope ∈ before then [] else indicesOf table scope) ::
      owned table (before.insert scope) scopes

/-- The type in C of variables of a given type, if there is one. -/
def counterpart? : Ty → Option CType
  | .int => some .int
  | .float => some .double
  | .bool => some .bool
  | .string => some .text
  | .named _ | .unknown => none

theorem ofTy?_eq_counterpart? (type : Ty) : CType.ofTy? type = counterpart? type := by
  cases type <;> rfl

def Context.declarator? (k : Context) (i : Nat) : Option Declarator := do
  let v ← k.table[i]?
  let name ← k.names[i]?
  let type ← counterpart? v.type
  return ⟨type, name⟩

/-- The line of C that declares a variable. -/
def Declarator.line (d : Declarator) : Text :=
  match d.type with
  | .int => "int ".toList ++ d.name ++ [';']
  | .double => "double ".toList ++ d.name ++ [';']
  | .bool => "bool ".toList ++ d.name ++ [';']
  | .text => "const char *".toList ++ d.name ++ [';']

theorem Declarator.render_eq_line (d : Declarator) : d.render ++ [';'] = d.line := by
  obtain ⟨type, name⟩ := d
  cases type <;> rfl

def IsDeclaration (t : Text) : Prop := ∃ d : Declarator, C.isWord d.name = true ∧ t = d.line

/-- The report of a variable, if its type has no counterpart in C. -/
def unsupported? (v : Variable) : Option (Located EmissionError) :=
  match v.type with
  | .named name => some ⟨v.location, .unsupportedType (.named name)⟩
  | .unknown => some ⟨v.location, .unsupportedType .unknown⟩
  | .int | .float | .bool | .string => none

/-- The report of a variable of a table. -/
def typeReport? (table : List Variable) (i : Nat) : Option (Located EmissionError) :=
  table[i]?.bind unsupported?

/-- The report of an argument to print. -/
def printReport? (table : List Variable) (e : ImpC.Expr) : Option (Located EmissionError) :=
  match e.type table with
  | .named name => some ⟨e.location, .unprintable (.named name)⟩
  | .unknown => some ⟨e.location, .unprintable .unknown⟩
  | .int | .float | .bool | .string => none

def reports (table : List Variable) : List Nat → List Site → Errors
  | _, [] => []
  | before, .block scope :: sites =>
    (if scope ∈ before then [] else (indicesOf table scope).filterMap (typeReport? table)) ++
      reports table (before.insert scope) sites
  | before, .argument e :: sites => (printReport? table e).toList ++ reports table before sites

namespace Row

/-- The declarators at the head of the block that a row enters. -/
def head? : Row → Option (List Declarator)
  | .enter _ declarators => some declarators
  | _ => none

/-- For every line of a row the declarator that it is the line of, if any. -/
def origins : Row → List (Option Declarator)
  | .enter opening declarators =>
    (openingLines 0 opening).map (fun _ => none) ++ declarators.map some
  | .assignment _ _ | .evaluation _ | .leave => [none]

end Row

/-- For every line of a program the declarator that it is the line of, if any. -/
def programOrigins (program : ImpC.Block) (table : List Variable) : List (Option Declarator) :=
  (programRows program table).flatMap Row.origins ++ epilogue.map fun _ => none

/-- A line comes from a declarator if it is the line of it. Any other line declares nothing. -/
def Line.ComesFrom (line : Line) : Option Declarator → Prop
  | some d => line.text = d.line
  | none => ¬ IsDeclaration line.text

section Undeclared

/-- What stands on a line that declares something. -/
theorem IsDeclaration.chars {t : Text} (h : IsDeclaration t) :
    ∀ c ∈ t, Pattern.inWord c = true ∨ c ∈ [' ', '*', ';'] := by
  obtain ⟨⟨type, name⟩, hname, rfl⟩ := h
  have hword : ∀ c ∈ name, Pattern.inWord c = true ∨ c ∈ [' ', '*', ';'] :=
    fun c hc => .inl (C.inWord_of_isWord hname c hc)
  -- The texts around the name are gone through as lists: there are too many characters for `decide`.
  have hfixed : ∀ t : Text, t.all (fun c => Pattern.inWord c || [' ', '*', ';'].contains c) = true →
      ∀ c ∈ t, Pattern.inWord c = true ∨ c ∈ [' ', '*', ';'] := by
    intro t ht c hc
    have hall := List.all_eq_true.mp ht c hc
    simpa only [Bool.or_eq_true, List.contains_iff_mem] using hall
  cases type
  all_goals
    simp only [Declarator.line, List.forall_mem_append]
    exact ⟨⟨hfixed _ (by decide), hword⟩, hfixed _ (by decide)⟩

/-- A declaration has words, blanks, a star and a semicolon, and nothing else. -/
theorem not_isDeclaration {t : Text} {c : Char} (hc : c ∈ t)
    (hother : Pattern.inWord c = false ∧ c ∉ [' ', '*', ';']) : ¬ IsDeclaration t := by
  intro h
  rcases h.chars c hc with hword | hmark
  · rw [hother.1] at hword
    cases hword
  · exact hother.2 hmark

theorem isDeclaration_ne_nil {t : Text} (h : IsDeclaration t) :
    ∃ c ∈ ['i', 'd', 'b', 'c'], t.head? = some c := by
  obtain ⟨⟨type, name⟩, -, rfl⟩ := h
  cases type
  · exact ⟨'i', by simp, rfl⟩
  · exact ⟨'d', by simp, rfl⟩
  · exact ⟨'b', by simp, rfl⟩
  · exact ⟨'c', by simp, rfl⟩

/-- A line with any other character comes from no declaration. -/
theorem comesFrom_char {l : Line} {c : Char} (hc : c ∈ l.text)
    (hother : Pattern.inWord c = false ∧ c ∉ [' ', '*', ';']) : l.ComesFrom none :=
  not_isDeclaration hc hother

theorem comesFrom_closing (depth : Nat) : Line.ComesFrom ⟨depth, [['\x7d']]⟩ none :=
  comesFrom_char (c := '\x7d') (by simp [Line.text]) (by decide)

/-- The lines around a condition have a parenthesis. -/
theorem comesFrom_guard (depth : Nat) {opening : Text} (h : '(' ∈ opening) (more : List Text) :
    Line.ComesFrom ⟨depth, opening :: more⟩ none :=
  comesFrom_char (c := '(') (by simp [Line.text, h]) (by decide)

theorem prologue_origins :
    List.Forall₂ Line.ComesFrom prologue (prologue.map fun _ => none) := by
  have hempty : Line.ComesFrom ⟨0, []⟩ none := by
    intro h
    obtain ⟨c, -, hc⟩ := isDeclaration_ne_nil h
    cases hc
  exact .cons (comesFrom_char (c := '#') (by simp [Line.text]) (by decide))
    (.cons (comesFrom_char (c := '#') (by simp [Line.text]) (by decide))
      (.cons hempty (.cons (comesFrom_guard 0 (by decide) []) .nil)))

theorem epilogue_origins :
    List.Forall₂ Line.ComesFrom epilogue (epilogue.map fun _ => none) := by
  have hreturn : Line.ComesFrom ⟨1, ["return 0;".toList]⟩ none := by
    intro h
    obtain ⟨c, hmem, hc⟩ := isDeclaration_ne_nil h
    obtain rfl : 'r' = c := Option.some.inj hc
    exact absurd hmem (by decide)
  exact .cons hreturn (.cons (comesFrom_closing 0) .nil)

theorem openingLines_origins (depth : Nat) (opening : Opening Expr) :
    List.Forall₂ Line.ComesFrom (openingLines depth opening)
      ((openingLines 0 opening).map fun _ => none) := by
  cases opening with
  | main => exact prologue_origins
  | plain => exact .cons (comesFrom_char (c := '\x7b') (by simp [Line.text]) (by decide)) .nil
  | conditional condition | loop condition | alternative condition =>
    exact .cons (comesFrom_guard depth (by decide) _) .nil
  | otherwise => exact .cons (comesFrom_char (c := '\x7d') (by simp [Line.text]) (by decide)) .nil

/-- A call has a parenthesis on its line. -/
theorem opening_mem_render {value : Expr} (h : value.isCall = true) : '(' ∈ value.render := by
  cases value with
  | call function arguments =>
    exact List.mem_append_left _ (List.mem_append_right _ List.mem_cons_self)
  | printf arguments =>
    have hword : '(' ∈ "printf(".toList := by decide
    exact List.mem_append_left _ (List.mem_append_left _ hword)
  | literal | name | unary | binary => cases h

end Undeclared

/-- Only calls stand alone. -/
def Row.CallsAlone : Row → Prop
  | .evaluation value => value.isCall = true
  | .enter _ _ | .assignment _ _ | .leave => True

/-- The only values that stand alone on a line are calls. -/
theorem row_callsAlone {k : Context} {opened : List Nat} {s : Step} {r : Row}
    (h : k.row? opened s = some r) : r.CallsAlone := by
  cases s with
  | enter | assignment | leave =>
    cases h
    trivial
  | declaration i initial =>
    cases initial with
    | none => cases h
    | some a =>
      cases h
      trivial
  | call location function arguments =>
    cases h
    exact lower_call_isCall k location function arguments

theorem rows_callsAlone (k : Context) (opened : List Nat) (steps : List Step) :
    ∀ r ∈ k.rows opened steps, r.CallsAlone := by
  induction steps generalizing opened with
  | nil => nofun
  | cons s steps ih =>
    rw [Context.rows, List.forall_mem_append]
    exact ⟨fun r hr => row_callsAlone (Option.mem_toList.mp hr), ih _⟩

theorem Row.lines_origins (depth : Nat) {r : Row} (h : r.CallsAlone) :
    List.Forall₂ Line.ComesFrom (r.lines depth) r.origins := by
  cases r with
  | enter opening declarators =>
    refine List.rel_append (openingLines_origins depth opening) ?_
    rw [declaratorLines, List.forall₂_map_left_iff, List.forall₂_map_right_iff, List.forall₂_same]
    intro d _
    show d.render ++ ([';'] ++ []) = d.line
    exact d.render_eq_line
  | assignment target value =>
    exact .cons (comesFrom_char (c := '=') (by simp [Line.text]) (by decide)) .nil
  | evaluation value => exact .cons (comesFrom_guard depth (opening_mem_render h) _) .nil
  | leave => exact .cons (comesFrom_closing depth) .nil

/-- Each line comes from the declarator it was written for, or from none. -/
theorem Row.linesAll_origins (depth : Nat) {rows : List Row} (h : ∀ r ∈ rows, r.CallsAlone) :
    List.Forall₂ Line.ComesFrom (linesAll depth rows) (rows.flatMap Row.origins) := by
  induction rows generalizing depth with
  | nil => exact .nil
  | cons r rows ih =>
    rw [List.forall_mem_cons] at h
    exact List.rel_append (Row.lines_origins (r.around depth) h.1) (ih (r.after depth) h.2)

theorem reduceOption_none {α β : Type} (l : List α) :
    (l.map fun _ => (none : Option β)).reduceOption = [] := by
  simp [List.reduceOption]

/-- The declarators that lines come from are those at the heads of blocks. -/
theorem Row.origins_heads (rows : List Row) :
    (rows.flatMap Row.origins).reduceOption = (rows.filterMap Row.head?).flatten := by
  induction rows with
  | nil => rfl
  | cons r rows ih =>
    rw [List.flatMap_cons, List.reduceOption_append, ih]
    cases r with
    | enter opening declarators =>
      have hsome : (declarators.map some).reduceOption = declarators := by simp [List.reduceOption]
      rw [Row.origins, List.reduceOption_append, reduceOption_none, hsome]
      rfl
    | assignment | evaluation | leave => rfl

section Owned

variable {table : List Variable}

theorem mem_indicesOf {scope i : Nat} :
    i ∈ indicesOf table scope ↔ ∃ v, table[i]? = some v ∧ v.scope = scope := by
  rw [indicesOf, List.mem_filter, List.mem_range]
  constructor
  · rintro ⟨-, h⟩
    cases hv : table[i]? with
    | none => simp [hv] at h
    | some v => exact ⟨v, rfl, by simpa [hv] using h⟩
  · rintro ⟨v, hv, hscope⟩
    obtain ⟨hlt, -⟩ := List.getElem?_eq_some_iff.mp hv
    exact ⟨hlt, by simp [hv, hscope]⟩

/-- A variable is declared with the first block of its scope. -/
theorem mem_owned {before scopes : List Nat} {i : Nat} :
    i ∈ (owned table before scopes).flatten ↔
      ∃ v, table[i]? = some v ∧ v.scope ∈ scopes ∧ v.scope ∉ before := by
  induction scopes generalizing before with
  | nil => simp [owned]
  | cons scope scopes ih =>
    rw [owned, List.flatten_cons, List.mem_append, ih]
    by_cases hbefore : scope ∈ before
    · rw [if_pos hbefore, List.insert_of_mem hbefore]
      simp only [List.not_mem_nil, false_or, List.mem_cons]
      constructor
      · rintro ⟨v, hv, hscope, hnew⟩
        exact ⟨v, hv, .inr hscope, hnew⟩
      · rintro ⟨v, hv, hscope | hscope, hnew⟩
        · exact absurd (hscope ▸ hbefore) hnew
        · exact ⟨v, hv, hscope, hnew⟩
    · rw [if_neg hbefore, mem_indicesOf]
      constructor
      · rintro (⟨v, hv, rfl⟩ | ⟨v, hv, hscope, hnew⟩)
        · exact ⟨v, hv, List.mem_cons_self, hbefore⟩
        · rw [List.mem_insert_iff, not_or] at hnew
          exact ⟨v, hv, List.mem_cons_of_mem _ hscope, hnew.2⟩
      · rintro ⟨v, hv, hscope, hnew⟩
        by_cases heq : v.scope = scope
        · exact .inl ⟨v, hv, heq⟩
        · refine .inr ⟨v, hv, (List.mem_cons.mp hscope).resolve_left heq, ?_⟩
          rw [List.mem_insert_iff]
          exact fun h => h.elim heq hnew

/-- No variable is declared twice. -/
theorem nodup_owned (before scopes : List Nat) : (owned table before scopes).flatten.Nodup := by
  induction scopes generalizing before with
  | nil => simp [owned]
  | cons scope scopes ih =>
    rw [owned, List.flatten_cons, List.nodup_append']
    refine ⟨?_, ih _, fun i hi hmore => ?_⟩
    · split
      · exact List.nodup_nil
      · exact List.nodup_range.filter _
    · -- what the first block owns is of a scope that no later block owns
      obtain ⟨v, hv, -, hnew⟩ := mem_owned.mp hmore
      rw [List.mem_insert_iff, not_or] at hnew
      split at hi
      · cases hi
      · obtain ⟨w, hw, hscope⟩ := mem_indicesOf.mp hi
        obtain rfl : w = v := Option.some.inj (hw.symm.trans hv)
        exact hnew.1 hscope

/-- The scopes that are open or have been. -/
def opens (before scopes : List Nat) : List Nat :=
  scopes.foldl (fun before scope => before.insert scope) before

theorem reports_append (before : List Nat) (sites more : List Site) :
    reports table before (sites ++ more) =
      reports table before sites ++ reports table (opens before (sites.filterMap Site.scope?)) more := by
  induction sites generalizing before with
  | nil => rfl
  | cons site sites ih =>
    cases site with
    | block scope =>
      rw [List.cons_append, reports, reports, ih, List.append_assoc]
      rfl
    | argument e =>
      rw [List.cons_append, reports, reports, ih, List.append_assoc]
      rfl

theorem reports_arguments (before : List Nat) (es : List ImpC.Expr) :
    reports table before (es.map .argument) = es.filterMap (printReport? table) := by
  induction es with
  | nil => rfl
  | cons e es ih =>
    rw [List.map_cons, reports, ih, List.filterMap_cons]
    cases printReport? table e <;> rfl

end Owned

mutual

/-- The errors of an expression are those of its printed arguments, in their order. -/
theorem lower_errors (k : Context) : ∀ e : ImpC.Expr,
    (lower k e).2 = e.printed.filterMap (printReport? k.table)
  | .literal _ _ => rfl
  | .reference _ _ => rfl
  | .unary _ _ operand => lower_errors k operand
  | .binary _ _ left right => by
    rw [Expr.printed, List.filterMap_append, ← lower_errors k left, ← lower_errors k right]
    rfl
  | .call _ function arguments => by
    rw [lower, printName, Expr.printed]
    split
    · exact lowerPrinted_errors k arguments
    · exact lowerAll_errors k arguments

theorem lowerAll_errors (k : Context) : ∀ es : List ImpC.Expr,
    (lowerAll k es).2 = (Expr.printedAll es).filterMap (printReport? k.table)
  | [] => rfl
  | e :: es => by
    rw [Expr.printedAll, List.filterMap_append, ← lower_errors k e, ← lowerAll_errors k es]
    rfl

theorem lowerPrinted_errors (k : Context) : ∀ es : List ImpC.Expr,
    (lowerPrinted k es).2 = (Expr.printedArguments es).filterMap (printReport? k.table)
  | [] => rfl
  | e :: es => by
    rw [Expr.printedArguments, List.filterMap_append, List.filterMap_cons, ← lower_errors k e,
      ← lowerPrinted_errors k es, lowerPrinted, printReport?]
    cases e.type k.table <;> rfl

end

/-- A list by its indices. -/
theorem filterMap_eq_range {α β : Type} (f : α → Option β) (l : List α) :
    l.filterMap f = (List.range l.length).filterMap fun i => l[i]?.bind f := by
  induction l with
  | nil => rfl
  | cons a l ih =>
    rw [List.length_cons, List.range_succ_eq_map, List.filterMap_cons, List.filterMap_cons,
      List.filterMap_map, ih]
    rfl

theorem declarator?_of_getElem? {k : Context} {i : Nat} {v : Variable} {n : Text}
    (hv : k.table[i]? = some v) (hn : k.names[i]? = some n) :
    k.declarator? i = (counterpart? v.type).map (⟨·, n⟩) := by
  simp only [Context.declarator?, hv, hn, Option.bind_eq_bind, Option.bind_some]
  cases counterpart? v.type <;> rfl

/-- What is evaluated has no scope of its own. -/
theorem sites_scopes_value (value? : Option ImpC.Expr) :
    (value?.toList.flatMap Expr.sites).filterMap Site.scope? = [] := by
  cases value? <;> simp [Expr.sites, Site.scope?]

theorem Step.sites_scopes (s : Step) : s.sites.filterMap Site.scope? = s.scope?.toList := by
  rw [Step.sites, List.filterMap_append, sites_scopes_value]
  cases s.scope? <;> rfl

/-- Blocks are met in the order of the program. -/
theorem sites_scopes (program : ImpC.Block) :
    program.sites.filterMap Site.scope? = program.scopes := by
  rw [Block.sites, List.filterMap_flatMap, Block.scopes, List.filterMap_eq_flatMap_toList]
  simp only [Step.sites_scopes]

section Scopes

variable {k : Context} (hk : k.names.length = k.table.length)
include hk

/-- What is said of the variables of a scope with their names is said of their indices. -/
theorem filterMap_own (scope : Nat) {β : Type} {f : Variable × Text → Option β} {g : Nat → Option β}
    (h : ∀ (i : Nat) v n, k.table[i]? = some v → k.names[i]? = some n → g i = f (v, n)) :
    (k.own scope).filterMap f = (indicesOf k.table scope).filterMap g := by
  have hlength : (k.table.zip k.names).length = k.table.length := by
    rw [List.length_zip, hk, Nat.min_self]
  rw [Context.own, List.filterMap_filter, filterMap_eq_range, hlength, indicesOf,
    List.filterMap_filter]
  refine List.filterMap_congr fun i hi => ?_
  have hi : i < k.table.length := List.mem_range.mp hi
  have hv := List.getElem?_eq_getElem hi
  have hn := List.getElem?_eq_getElem (hk ▸ hi)
  have hpair : (k.table.zip k.names)[i]? = some (k.table[i], k.names.get ⟨i, hk ▸ hi⟩) :=
    List.getElem?_zip_eq_some.mpr ⟨hv, hn⟩
  rw [hpair, hv, h i _ _ hv hn]
  simp

/-- The variables of a scope are taken in the order of the table. -/
theorem declarators_eq (scope : Nat) :
    k.declarators scope = (indicesOf k.table scope).filterMap k.declarator? := by
  refine filterMap_own hk scope fun i v n hv hn => ?_
  rw [declarator?_of_getElem? hv hn]
  show _ = (declarator v n).1
  rw [declarator, ofTy?_eq_counterpart?]
  cases counterpart? v.type <;> rfl

theorem undeclared_eq (scope : Nat) :
    k.undeclared scope = (indicesOf k.table scope).filterMap (typeReport? k.table) := by
  have hreport (p : Variable × Text) : (declarator p.1 p.2).2 = (unsupported? p.1).toList := by
    rw [declarator, unsupported?]
    cases p.1.type <;> rfl
  rw [Context.undeclared]
  simp only [hreport, ← List.filterMap_eq_flatMap_toList]
  refine filterMap_own hk scope fun i v n hv _ => ?_
  rw [typeReport?, hv]
  rfl

/-- A block declares the variables of its scope if it is the first of the scope. -/
theorem rows_heads (opened : List Nat) (steps : List Step) :
    (k.rows opened steps).filterMap Row.head? =
      (owned k.table opened (steps.filterMap Step.scope?)).map (·.filterMap k.declarator?) := by
  induction steps generalizing opened with
  | nil => rfl
  | cons s steps ih =>
    rw [Context.rows, List.filterMap_append, ih]
    cases s with
    | enter opening scope =>
      have hhead : (if scope ∈ opened then [] else k.declarators scope) =
          (if scope ∈ opened then [] else indicesOf k.table scope).filterMap k.declarator? := by
        rw [declarators_eq hk]
        split <;> rfl
      exact congrArg (· :: _) hhead
    | declaration i initial => cases initial <;> rfl
    | assignment | call | leave => rfl

/-- What is reported of a step is what there is to report of its sites. -/
theorem reports_step (opened : List Nat) (s : Step) :
    k.reports opened s = Target.reports k.table opened s.sites := by
  have hvalue : s.value?.toList.flatMap (fun e => (lower k e).2) =
      Target.reports k.table opened (s.value?.toList.flatMap Expr.sites) := by
    cases s.value? <;> simp [Target.reports, lower_errors, Expr.sites, reports_arguments]
  have hscope : (s.scope?.toList.flatMap fun scope =>
      if scope ∈ opened then [] else k.undeclared scope) =
      Target.reports k.table opened (s.scope?.toList.map .block) := by
    cases s.scope? <;> simp [Target.reports, undeclared_eq hk]
  rw [Context.reports, Step.sites, reports_append, sites_scopes_value, hvalue, hscope]
  rfl

/-- What the steps report is what is wrong at the sites of the program. -/
theorem reportsAll_eq (opened : List Nat) (steps : List Step) :
    k.reportsAll opened steps = Target.reports k.table opened (steps.flatMap Step.sites) := by
  induction steps generalizing opened with
  | nil => rfl
  | cons s steps ih =>
    have hopened : openedAfter opened s = opens opened (s.sites.filterMap Site.scope?) := by
      rw [Step.sites_scopes, openedAfter]
      cases s.scope? <;> rfl
    rw [Context.reportsAll, List.flatMap_cons, reports_append, reports_step hk, ih, hopened]

end Scopes

def EmissionError.isUnsupportedType : EmissionError → Bool
  | .unsupportedType _ => true
  | .unprintable _ => false

theorem typeReport?_unsupported {table : List Variable} {i : Nat} {report : Located EmissionError}
    (h : typeReport? table i = some report) : report.value.isUnsupportedType = true := by
  obtain ⟨v, -, hv⟩ := Option.bind_eq_some_iff.mp h
  rw [unsupported?] at hv
  split at hv
  · cases hv
    rfl
  · cases hv
    rfl
  all_goals cases hv

theorem printReport?_unprintable {table : List Variable} {e : ImpC.Expr}
    {report : Located EmissionError} (h : printReport? table e = some report) :
    report.value.isUnsupportedType = false := by
  unfold printReport? at h
  split at h
  · cases h
    rfl
  · cases h
    rfl
  all_goals cases h

/-- The reports of types are those of the variables that the blocks own, and the others those of
arguments to print. -/
theorem reports_split (table : List Variable) (before : List Nat) (sites : List Site) :
    (reports table before sites).filter (·.value.isUnsupportedType) =
        (owned table before (sites.filterMap Site.scope?)).flatten.filterMap (typeReport? table) ∧
      (reports table before sites).filter (!·.value.isUnsupportedType) =
        (sites.filterMap Site.argument?).filterMap (printReport? table) := by
  have hunsupported (is : List Nat) : ∀ report ∈ is.filterMap (typeReport? table),
      report.value.isUnsupportedType = true := by
    intro report hreport
    obtain ⟨i, -, hi⟩ := List.mem_filterMap.mp hreport
    exact typeReport?_unsupported hi
  induction sites generalizing before with
  | nil => exact ⟨rfl, rfl⟩
  | cons site sites ih =>
    cases site with
    | block scope =>
      obtain ⟨htypes, hprints⟩ := ih (before.insert scope)
      have hscopes : (.block scope :: sites).filterMap Site.scope? =
          scope :: sites.filterMap Site.scope? := rfl
      -- only the first block of a scope owns its variables
      have hown : (if scope ∈ before then [] else
          (indicesOf table scope).filterMap (typeReport? table)) =
          (if scope ∈ before then [] else indicesOf table scope).filterMap (typeReport? table) := by
        split <;> rfl
      rw [reports, hown, List.filter_append, List.filter_append, htypes, hprints, hscopes, owned,
        List.flatten_cons, List.filterMap_append, List.filter_eq_self.mpr (hunsupported _),
        List.filter_eq_nil_iff.mpr fun report hreport => by simp [hunsupported _ report hreport]]
      exact ⟨rfl, rfl⟩
    | argument e =>
      obtain ⟨htypes, hprints⟩ := ih before
      have hscopes : (.argument e :: sites).filterMap Site.scope? =
          sites.filterMap Site.scope? := rfl
      rw [reports, List.filter_append, List.filter_append, htypes, hprints, hscopes,
        List.filterMap_cons]
      cases hreport : printReport? table e with
      | none => simp [Site.argument?, hreport]
      | some report =>
        simp [Site.argument?, hreport, printReport?_unprintable hreport]

/-- In a list without repetitions, one index gives one result. -/
theorem filterMap_single {L : List Nat} (h : L.Nodup) {β : Type} (i : Nat) (f : Nat → Option β)
    (hf : ∀ j ≠ i, f j = none) : L.filterMap f = if i ∈ L then (f i).toList else [] := by
  induction L with
  | nil => rfl
  | cons j L ih =>
    rw [List.nodup_cons] at h
    rw [List.filterMap_cons, ih h.2]
    by_cases hj : j = i
    · subst hj
      rw [if_neg h.1, if_pos List.mem_cons_self]
      cases f j <;> rfl
    · have hmem : i ∈ j :: L ↔ i ∈ L := by
        rw [List.mem_cons]
        exact ⟨fun h => h.resolve_left fun heq => hj heq.symm, .inr⟩
      rw [hf j hj, if_congr hmem rfl rfl]

theorem filter_origins (p : Declarator → Bool) (origins : List (Option Declarator)) :
    origins.filter (·.any p) = (origins.reduceOption.filter p).map some := by
  induction origins with
  | nil => rfl
  | cons origin origins ih =>
    cases origin with
    | none => simpa using ih
    | some d => by_cases hd : p d <;> simp [hd, ih]

theorem name_of_declarator? {k : Context} {i : Nat} {d : Declarator} (h : k.declarator? i = some d) :
    k.names[i]? = some d.name := by
  obtain ⟨v, -, h⟩ := Option.bind_eq_some_iff.mp h
  obtain ⟨n, hn, h⟩ := Option.bind_eq_some_iff.mp h
  obtain ⟨type, -, h⟩ := Option.bind_eq_some_iff.mp h
  cases h
  exact hn

/-- Among the declarators of some variables, those with the name of a variable are its own. -/
theorem filter_declarators {k : Context} (hk : k.names.Nodup) {L : List Nat} (hL : L.Nodup) {i : Nat}
    {v : Variable} {n : Text} (hv : k.table[i]? = some v) (hn : k.names[i]? = some n) :
    (L.filterMap k.declarator?).filter (·.name = n) =
      if i ∈ L then ((counterpart? v.type).map (⟨·, n⟩)).toList else [] := by
  have hother : ∀ j ≠ i, (k.declarator? j).filter (·.name = n) = none := by
    intro j hj
    cases hd : k.declarator? j with
    | none => rfl
    | some d =>
      have hname : d.name ≠ n := by
        intro heq
        have hsame : k.names[j]? = k.names[i]? := by rw [name_of_declarator? hd, heq, hn]
        obtain ⟨hlt, -⟩ := List.getElem?_eq_some_iff.mp (name_of_declarator? hd)
        exact hj ((List.getElem?_inj hlt hk).mp hsame)
      simp [Option.filter, hname]
  rw [List.filter_filterMap, filterMap_single hL i _ hother, declarator?_of_getElem? hv hn]
  cases counterpart? v.type <;> simp [Option.filter]

/-- How an emitted program declares or reports the variables of its table. -/
structure Accounts (program : ImpC.Block) (table : List Variable) : Prop where
  /-- What is emitted are the lines of the program. -/
  text : (generate program table).text =
    ((programLines program table).flatMap Line.pieces).flatten
  /-- Every block declares the variables that it owns at its head. -/
  heads : (programRows program table).filterMap Row.head? =
    (owned table [] program.scopes).map
      (·.filterMap (Context.declarator? ⟨table, assignNames (table.map (·.name))⟩))
  /-- The lines that come from declarators are those at the heads of blocks. No other line
  declares anything. -/
  lines : List.Forall₂ Line.ComesFrom (programLines program table) (programOrigins program table) ∧
    (programOrigins program table).reduceOption =
      ((programRows program table).filterMap Row.head?).flatten
  /-- A variable of some block has one line, if its type has a counterpart, and any other has none. -/
  declared : ∀ (i : Nat) v n, table[i]? = some v → (assignNames (table.map (·.name)))[i]? = some n →
    (programOrigins program table).filter (·.any (·.name = n)) =
      if v.scope ∈ program.scopes then ((counterpart? v.type).map (some ⟨·, n⟩)).toList else []
  /-- The variables of all blocks are owned once. -/
  once : (owned table [] program.scopes).flatten.Nodup ∧ ∀ i,
    i ∈ (owned table [] program.scopes).flatten ↔ ∃ v, table[i]? = some v ∧ v.scope ∈ program.scopes
  /-- The types that are reported are those of the owned variables that have no counterpart. -/
  types : (generate program table).errors.filter (·.value.isUnsupportedType) =
    (owned table [] program.scopes).flatten.filterMap (typeReport? table)
  /-- All else that is reported is an argument to print. -/
  prints : (generate program table).errors.filter (!·.value.isUnsupportedType) =
    program.printed.filterMap (printReport? table)
  inOrder : (generate program table).errors = reports table [] program.sites

/-- All variables whose scope is a block of the program are declared, and each of them once. -/
theorem owned_once (program : ImpC.Block) (table : List Variable) :
    (owned table [] program.scopes).flatten.Nodup ∧ ∀ i,
      i ∈ (owned table [] program.scopes).flatten ↔
        ∃ v, table[i]? = some v ∧ v.scope ∈ program.scopes := by
  refine ⟨nodup_owned _ _, fun i => ?_⟩
  rw [mem_owned]
  simp

/-- Each variable is declared or reported, and nothing else is. -/
theorem program_accounts (program : ImpC.Block) (table : List Variable) : Accounts program table := by
  let k : Context := ⟨table, assignNames (table.map (·.name))⟩
  have hk : k.names.length = k.table.length := by
    rw [assignNames_length, List.length_map]
  obtain ⟨hnodup, hmem⟩ := owned_once program table
  have hheads : (programRows program table).filterMap Row.head? =
      (owned table [] program.scopes).map (·.filterMap k.declarator?) := rows_heads hk [] _
  have horigins : (programOrigins program table).reduceOption =
      ((programRows program table).filterMap Row.head?).flatten := by
    rw [programOrigins, List.reduceOption_append, Row.origins_heads, reduceOption_none,
      List.append_nil]
  have herrors : (generate program table).errors = reports table [] program.sites := by
    rw [generate_eq]
    exact reportsAll_eq hk [] _
  obtain ⟨htypes, hprints⟩ := reports_split table [] program.sites
  rw [sites_scopes, ← herrors] at htypes
  rw [← herrors] at hprints
  have hlines := (Row.linesAll_origins 0 (rows_callsAlone k [] (program.steps .main)))
  refine ⟨by rw [generate_eq], hheads, ⟨List.rel_append hlines epilogue_origins, horigins⟩, ?_,
    ⟨hnodup, hmem⟩, htypes, hprints, herrors⟩
  intro i v n hv hn
  have hscope : i ∈ (owned table [] program.scopes).flatten ↔ v.scope ∈ program.scopes := by
    rw [hmem, hv]
    simp
  rw [filter_origins, horigins, hheads, ← List.filterMap_flatten,
    filter_declarators (k := k) (assignNames_nodup _) hnodup hv hn, if_congr hscope rfl rfl]
  split
  · cases counterpart? v.type <;> rfl
  · rfl

/-- Every variable is declared once or reported once, and nothing else is. In a resolved program every
variable belongs to one block. -/
theorem variables_accounted (program : ImpC.Block) (table : List Variable) :
    Accounts program table ∧
      ∀ body : List Surface.Statement, ∀ (i : Nat) v, (resolve body).table[i]? = some v →
        (resolve body).program.scopes.count v.scope = 1 ∧
          (owned (resolve body).table [] (resolve body).program.scopes).flatten.count i = 1 := by
  refine ⟨program_accounts program table, fun body i v hv => ?_⟩
  obtain ⟨n, hscopes, hlt⟩ := resolve_scopes body
  have hscope : v.scope ∈ (resolve body).program.scopes := by
    rw [hscopes, List.mem_range]
    exact hlt v (List.mem_of_getElem? hv)
  constructor
  · rw [hscopes] at hscope ⊢
    exact List.count_eq_one_of_mem List.nodup_range hscope
  · obtain ⟨hnodup, hmem⟩ := owned_once (resolve body).program (resolve body).table
    exact List.count_eq_one_of_mem hnodup ((hmem i).mpr ⟨v, hv, hscope⟩)

/-- Two blocks of one scope, in which a variable without a counterpart is printed, and a variable
whose scope has no block. -/
def sharedScope (location : Location) : ImpC.Block × List Variable :=
  (.mk 0
    [.block (.mk 1 [.call location "print".toList [.reference location ⟨"b".toList, some 1⟩]]),
      .block (.mk 1 [])],
    [⟨"a".toList, .int, 1, 0, location⟩, ⟨"b".toList, .named "T".toList, 1, 1, location⟩,
      ⟨"c".toList, .float, 2, 2, location⟩])

theorem variables_accounted_shared :
    let location : Location := Location.mk ⟨[], []⟩ 0 0 .origin .origin
    let program := (sharedScope location).1
    let table := (sharedScope location).2
    (programRows program table).filterMap Row.head? = [[], [⟨.int, "a".toList⟩], []] ∧
      (programOrigins program table).filter (·.any (·.name = "c".toList)) = [] ∧
      (generate program table).errors.map (·.value) =
        [.unsupportedType (.named "T".toList), .unprintable (.named "T".toList)] := by
  intro location program table
  obtain ⟨haccounts, -⟩ := variables_accounted program table
  refine ⟨?_, ?_, ?_⟩
  · rw [haccounts.heads]
    decide +kernel
  · exact haccounts.declared 2 _ "c".toList rfl (by decide +kernel)
  · rw [haccounts.inOrder]
    decide +kernel

end ImpC.Target
