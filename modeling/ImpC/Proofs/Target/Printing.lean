import ImpC.Proofs.C.Printf
import ImpC.Proofs.Target.Expression

/-!
# What is printed in C

A call that prints becomes one of `printf`. Its format has one conversion for every argument whose
type has one, in order, and nothing of the program enters it. In C the argument has the type that its
conversion expects. The only other calls of `printf` are those that the program itself makes, and
these are emitted as they stand.
-/
namespace ImpC

open ImpC.C (printfName)

/-- A call of `printf` in C: for a call that prints, or for one of this name. -/
inductive Printing where
  | line (arguments : List Expr)
  | direct (arguments : List Expr)

mutual

/-- What an expression is emitted with, in the order in which it is written. An argument to print
whose type has no conversion is left out, with all that is in it. -/
def Expr.printings (table : List Variable) : Expr → List Printing
  | .literal _ _ | .reference _ _ => []
  | .unary _ _ operand => operand.printings table
  | .binary _ _ left right => left.printings table ++ right.printings table
  | .call _ function arguments =>
    if function = "print".toList then .line arguments :: Expr.printingsPrinted table arguments
    else (if function = printfName then [.direct arguments] else []) ++
      Expr.printingsAll table arguments

def Expr.printingsAll (table : List Variable) : List Expr → List Printing
  | [] => []
  | e :: es => e.printings table ++ Expr.printingsAll table es

def Expr.printingsPrinted (table : List Variable) : List Expr → List Printing
  | [] => []
  | e :: es =>
    (if (e.type table).conversion?.isSome then e.printings table else []) ++
      Expr.printingsPrinted table es

end

/-- All calls of `printf` that are emitted for a program, in order. -/
def Block.printings (table : List Variable) (program : Block) : List Printing :=
  program.values.flatMap (Expr.printings table)

/-- The letter of the conversion that prints an argument, and what it prints. A truth value is printed
as a word. -/
def Expr.printing? (k : Target.Context) (e : Expr) : Option (Char × C.Expr) :=
  match e.type k.table with
  | .int => some ('d', e.inC k)
  | .float => some ('g', e.inC k)
  | .string => some ('s', e.inC k)
  | .bool =>
    some ('s', .conditional (e.inC k) (.string "\"true\"".toList) (.string "\"false\"".toList))
  | .named _ | .unknown => none

def Printing.inC (k : Target.Context) : Printing → C.Expr
  | .line arguments =>
    .call (.name printfName)
      (.string (Expr.printFormat k.table arguments) :: Expr.printedInC k arguments)
  | .direct arguments => .call (.name printfName) (Expr.allInC k arguments)

namespace Target

open ImpC.C

mutual

/-- The calls of `printf` in an emitted expression, as they are read. -/
def Expr.printfs : Expr → List C.Expr
  | .literal _ | .name _ => []
  | .unary _ operand => operand.printfs
  | .binary _ left right => left.printfs ++ right.printfs
  | .call function arguments =>
    (if function = printfName then [.call (.name function) (Expr.treeAll arguments)] else []) ++
      (Expr.printfsAll arguments).flatten
  | .printf arguments =>
    .call (.name printfName) (.string (format arguments) :: Argument.treeAll arguments) ::
      (Argument.printfsAll arguments).flatten

def Expr.printfsAll : List Expr → List (List C.Expr)
  | [] => []
  | e :: es => e.printfs :: Expr.printfsAll es

def Argument.printfs : Argument → List C.Expr
  | .int value | .float value | .bool value | .str value => value.printfs

def Argument.printfsAll : List Argument → List (List C.Expr)
  | [] => []
  | a :: as => a.printfs :: Argument.printfsAll as

end

mutual

/-- The calls of `printf` in the lexemes of an expression are its own. -/
theorem Expr.prints : ∀ e : Expr, PrintsBefore e.lexemes e.printfs
  | .literal value => (prints_silent (literal_silent value)).before
  | .name name => printsBefore_name name
  | .unary op operand => (printsBefore_enclosed (Expr.prints operand)).cons (unary_silent op)
  | .binary op left right =>
    (printsBefore_enclosed (Expr.prints left)).append
      ((printsBefore_enclosed (Expr.prints right)).cons (binary_silent op))
      (by simp [binary_not_opening op])
  | .call function arguments =>
    printsBefore_call function (Expr.readableAll arguments) (Expr.printsAll arguments)
  | .printf arguments => by
    have hcall := printsBefore_call printfName
      (.cons (isOperand_string (format arguments)).isExpression (Argument.readableAll arguments))
      (.cons (prints_silent (format_silent arguments)).before (Argument.printsAll arguments))
    rw [if_pos rfl] at hcall
    exact hcall

theorem Expr.printsAll : ∀ es : List Expr,
    List.Forall₂ PrintsBefore (Expr.lexemesAll es) (Expr.printfsAll es)
  | [] => .nil
  | e :: es => .cons (Expr.prints e) (Expr.printsAll es)

theorem Argument.prints : ∀ a : Argument, PrintsBefore a.lexemes a.printfs
  | .int value | .float value | .str value => Expr.prints value
  | .bool value =>
    ((Expr.prints value).before_silent (by simp [IsSilent]) (by simp)).before.cons
      (by simp [IsSilent])

theorem Argument.printsAll : ∀ as : List Argument,
    List.Forall₂ PrintsBefore (Argument.lexemesAll as) (Argument.printfsAll as)
  | [] => .nil
  | a :: as => .cons (Argument.prints a) (Argument.printsAll as)

end

theorem prints_mark (m : Text) : Prints [.mark m] [] := by
  intro rest
  simp [printfs_cons]

theorem prints_terminated (e : Expr) : Prints (e.lexemes ++ [.mark [';']]) e.printfs := by
  simpa using e.prints.closed (prints_mark [';']) rfl (by simp)

theorem prints_guard {w : Text} (hw : isKeyword w = true) (condition : Expr) :
    Prints (guardLexemes w condition.lexemes) condition.printfs := by
  have hopen : Prints [.word w, .mark ['(']] [] := prints_silent (by simp [IsSilent, hw])
  have hclose : Prints [.mark [')'], .mark ['\x7b']] [] :=
    (prints_mark [')']).append (prints_mark ['\x7b'])
  simpa [guardLexemes] using hopen.append (condition.prints.closed hclose rfl (by simp))

theorem prints_else : Prints [.mark ['\x7d'], .word "else".toList] [] :=
  (prints_mark ['\x7d']).append (prints_silent (List.forall_mem_singleton.mpr rfl))

theorem prints_declarators (ds : List Declarator) : Prints (ds.flatMap Declarator.lexemes) [] := by
  induction ds with
  | nil => exact fun _ => rfl
  | cons d ds ih =>
    have hfirst : Prints d.lexemes [] :=
      (prints_silent (type_silent d.type)).append (prints_word_mark d.name (by decide))
    exact hfirst.append ih

theorem prints_opening (opening : Opening Expr) :
    Prints (openingLexemes opening) (opening.condition?.toList.flatMap Expr.printfs) := by
  have hbrace := prints_mark ['\x7b']
  cases opening with
  | main =>
    have hmain : Prints [.word "int".toList, .word "main".toList, .mark ['('], .word "void".toList,
        .mark [')']] [] := by
      intro rest
      simp [printfs_cons, printfName]
    exact hmain.append hbrace
  | plain => exact hbrace
  | conditional condition | loop condition =>
    simpa [openingLexemes, Opening.condition?] using prints_guard (by decide) condition
  | otherwise => exact prints_else.append hbrace
  | alternative condition =>
    simpa [openingLexemes, Opening.condition?] using
      prints_else.append (prints_guard (w := "if".toList) (by decide) condition)

theorem Row.prints (r : Row) : Prints r.lexemes (r.value?.toList.flatMap Expr.printfs) := by
  cases r with
  | enter opening declarators =>
    simpa [Row.lexemes, Row.value?] using
      (prints_opening opening).append (prints_declarators declarators)
  | assignment target value =>
    have hvalue := (prints_word_mark target (m := ['=']) (by decide)).append (prints_terminated value)
    simpa [Row.lexemes, Row.value?] using hvalue
  | evaluation value => simpa [Row.lexemes, Row.value?] using prints_terminated value
  | leave => exact prints_mark ['\x7d']

/-- Rows are printed one after the other. -/
theorem Row.printsAll (rows : List Row) :
    Prints (rows.flatMap Row.lexemes) ((rows.filterMap Row.value?).flatMap Expr.printfs) := by
  induction rows with
  | nil => exact fun _ => rfl
  | cons r rows ih =>
    rw [List.filterMap_eq_flatMap_toList] at ih ⊢
    rw [List.flatMap_cons, List.flatMap_cons, List.flatMap_append]
    exact r.prints.append ih

/-- The calls of `printf` in the text of some rows are those of their expressions. -/
theorem program_printfs {rows : List Row} (h : ∀ r ∈ rows, r.Legible) :
    C.printfsIn ((Row.linesAll 0 rows ++ epilogue).flatMap Line.pieces).flatten =
      ((rows.filterMap Row.value?).flatMap Expr.printfs).map some := by
  rw [C.printfsIn, program_lexemes h, Row.printsAll]
  exact List.append_nil _

mutual

/-- Lowering keeps the calls of `print` in their order, as calls of `printf`. -/
theorem lower_printfs (k : Context) : ∀ e : ImpC.Expr,
    (lower k e).1.printfs = (e.printings k.table).map (Printing.inC k)
  | .literal _ _ => rfl
  | .reference _ _ => rfl
  | .unary _ _ operand => lower_printfs k operand
  | .binary _ _ left right => by
    rw [Expr.printings, List.map_append, ← lower_printfs k left, ← lower_printfs k right]
    rfl
  | .call _ function arguments => by
    rw [lower, printName, Expr.printings]
    split
    · obtain ⟨htrees, hformat⟩ := lowerPrinted_trees k arguments
      rw [List.map_cons, ← lowerPrinted_printfs k arguments, Printing.inC, Expr.printFormat,
        ← htrees, ← hformat]
      rfl
    · rw [List.map_append, ← lowerAll_printfs k arguments]
      refine congrArg (· ++ _) ?_
      split
      · rename_i hprintf
        rw [List.map_singleton, Printing.inC, ← lowerAll_trees k arguments, hprintf]
      · rfl

theorem lowerAll_printfs (k : Context) : ∀ es : List ImpC.Expr,
    (Expr.printfsAll (lowerAll k es).1).flatten =
      (Expr.printingsAll k.table es).map (Printing.inC k)
  | [] => rfl
  | e :: es => by
    rw [Expr.printingsAll, List.map_append, ← lower_printfs k e, ← lowerAll_printfs k es]
    rfl

theorem lowerPrinted_printfs (k : Context) : ∀ es : List ImpC.Expr,
    (Argument.printfsAll (lowerPrinted k es).1).flatten =
      (Expr.printingsPrinted k.table es).map (Printing.inC k)
  | [] => rfl
  | e :: es => by
    have he := lower_printfs k e
    rw [Expr.printingsPrinted, List.map_append, ← lowerPrinted_printfs k es, lowerPrinted]
    cases e.type k.table with
    | int | float | bool | string => exact congrArg (· ++ _) he
    | named | unknown => rfl

end

/-- The type in C of a variable by its name there. -/
def Context.types (k : Context) (name : Text) : Option CType :=
  (k.table[k.names.idxOf name]?).bind fun v => CType.ofTy? v.type

theorem types_name {k : Context} (hk : k.Proper) {i : Nat} {v : Variable} {name : Text}
    (hv : k.table[i]? = some v) (hname : k.names[i]? = some name) :
    k.types name = CType.ofTy? v.type := by
  obtain ⟨hlt, rfl⟩ := List.getElem?_eq_some_iff.mp hname
  rw [Context.types, hk.nodup.idxOf_getElem i hlt, hv, Option.bind_some]

/-- The type in C of an expression that is no truth value. -/
def valueType? : Ty → Option CType
  | .int => some .int
  | .float => some .double
  | .string => some .text
  | .bool | .named _ | .unknown => none

/-- A literal has the type in C that its format is for. -/
theorem literal_type (env : Text → Option CType) {value : Literal} {type : CType}
    (h : valueType? value.type = some type) : value.inC.type? env = some type := by
  cases value with
  | int n =>
    cases h
    have hlow := n.le_toInt
    have hhigh := n.toInt_lt
    rw [Literal.inC]
    split
    · rfl
    · split
      · have hfits : n.toInt.natAbs ≤ 2147483647 := by omega
        simp [C.Expr.type?, hfits, promote?]
      · have hfits : n.toInt.natAbs ≤ 2147483647 := by omega
        simp [C.Expr.type?, hfits]
  | float x =>
    cases h
    rw [Literal.inC, C.Expr.type?, isFloating_floating, if_pos rfl]
  | bool b => cases h
  | str t =>
    cases h
    rfl

/-- The name of a variable is no truth value. -/
theorem name_type {k : Context} (hk : k.Proper) {name : Text} (h : name ∈ k.names) :
    (C.Expr.name name).type? k.types = k.types name := by
  have hfree := hk.free name h
  refine if_neg fun htruth => ?_
  rw [List.contains_iff_mem, List.mem_pair] at htruth
  rcases htruth with rfl | rfl
  · exact absurd hfree (by decide)
  · exact absurd hfree (by decide)

theorem reference_type {k : Context} (hk : k.Proper) {target : Reference} {type : CType}
    (h : valueType? (target.type k.table) = some type) :
    (C.Expr.name (k.nameOf target)).type? k.types = some type := by
  unfold Reference.type at h
  split at h
  · rename_i v hv
    obtain ⟨i, hi, hv⟩ := Option.bind_eq_some_iff.mp hv
    obtain ⟨hlt, -⟩ := List.getElem?_eq_some_iff.mp hv
    obtain ⟨name, hname⟩ : ∃ name, k.names[i]? = some name :=
      ⟨_, List.getElem?_eq_getElem (hk.length.symm ▸ hlt)⟩
    have hnameOf : k.nameOf target = name := by
      rw [Context.nameOf, hi, Option.bind_some, hname]
    rw [hnameOf, name_type hk (List.mem_of_getElem? hname), types_name hk hv hname]
    cases htype : v.type <;> rw [htype] at h <;> cases h <;> rfl
  · cases h

theorem truthOperators_inC (op : BinaryOp) : truthOperators.contains op.inC = op.isTruth := by
  cases op <;> decide

theorem inC_mod {op : BinaryOp} (h : op.inC = ['%']) : op = .mod := by
  cases op <;> first | rfl | exact absurd h (by decide)

/-- Arithmetic has the common type of its operands, and a remainder is one of integers. -/
theorem arithmeticType_balance {op : BinaryOp} {a b : Ty} {type : CType}
    (h : valueType? (op.arithmeticType a b) = some type) :
    ∃ l r, valueType? a = some l ∧ valueType? b = some r ∧ balance? l r = some type ∧
      (op = .mod → type = .int) := by
  unfold BinaryOp.arithmeticType at h
  split at h
  · cases h
    exact ⟨.int, .int, rfl, rfl, rfl, fun _ => rfl⟩
  · cases h
  · rename_i hmod
    cases h
    exact ⟨.double, .int, rfl, rfl, rfl, fun hop => absurd hop hmod⟩
  · rename_i hmod
    cases h
    exact ⟨.double, .double, rfl, rfl, rfl, fun hop => absurd hop hmod⟩
  · rename_i hmod
    cases h
    exact ⟨.int, .double, rfl, rfl, rfl, fun hop => absurd hop hmod⟩
  · cases h

/-- In C an expression has the type that it has in the program. -/
theorem inC_type {k : Context} (hk : k.Proper) : ∀ (e : ImpC.Expr) {type : CType},
    valueType? (e.type k.table) = some type → (e.inC k).type? k.types = some type
  | .literal _ value, _, h => literal_type _ h
  | .reference _ target, _, h => reference_type hk h
  | .unary _ .not _, _, h => by cases h
  | .unary location .negate operand, type, h => by
    have hoperand {type : CType} (h : valueType? (operand.type k.table) = some type) :
        (operand.inC k).type? k.types = some type := inC_type hk operand h
    have hnegate : (ImpC.Expr.inC k (.unary location .negate operand)).type? k.types =
        ((operand.inC k).type? k.types).bind promote? := rfl
    rw [hnegate]
    rw [Expr.type] at h
    split at h
    · rename_i hint
      cases h
      rw [hoperand (by rw [hint]; rfl)]
      rfl
    · rename_i hfloat
      cases h
      rw [hoperand (by rw [hfloat]; rfl)]
      rfl
    · cases h
  | .binary _ op left right, type, h => by
    -- a truth value is never printed
    rw [Expr.type] at h
    split at h
    · cases h
    · rename_i htruth
      obtain ⟨l, r, hl, hr, hbalance, hmod⟩ := arithmeticType_balance h
      have hinteger : ¬ (op.inC = ['%'] ∧ type ≠ .int) :=
        fun hboth => hboth.2 (hmod (inC_mod hboth.1))
      rw [Expr.inC, C.Expr.type?, truthOperators_inC, if_neg htruth, inC_type hk left hl,
        inC_type hk right hr]
      simp [hbalance, hinteger]
  | .call _ _ _, _, h => by cases h

/-- A value has the type that its conversion expects. -/
theorem printing?_typed {k : Context} (hk : k.Proper) {e : ImpC.Expr} {p : Char × C.Expr}
    (h : e.printing? k = some p) :
    ∃ type, expected? p.1 = some type ∧ p.2.type? k.types = some type := by
  unfold Expr.printing? at h
  split at h
  · rename_i htype
    cases h
    exact ⟨.int, rfl, inC_type hk e (by rw [htype]; rfl)⟩
  · rename_i htype
    cases h
    exact ⟨.double, rfl, inC_type hk e (by rw [htype]; rfl)⟩
  · rename_i htype
    cases h
    exact ⟨.text, rfl, inC_type hk e (by rw [htype]; rfl)⟩
  · cases h
    exact ⟨.text, rfl, rfl⟩
  · cases h
  · cases h

/-- A conversion that prints something is neither a percent sign nor escaped. -/
theorem expected?_plain {c : Char} {type : CType} (h : expected? c = some type) :
    c ≠ '%' ∧ escapeChar c = [c] := by
  unfold expected? at h
  split at h
  · rename_i hc
    rw [hc]
    decide
  · split at h
    · rename_i hc
      rw [hc]
      decide
    · obtain ⟨hc, -⟩ := Option.ite_none_right_eq_some.mp h
      rw [hc]
      decide

theorem printedInC_eq (k : Context) (es : List ImpC.Expr) :
    Expr.printedInC k es = (es.filterMap (Expr.printing? k)).map Prod.snd := by
  induction es with
  | nil => rfl
  | cons e es ih =>
    rw [Expr.printedInC, List.filterMap_cons, Expr.printing?]
    cases e.type k.table <;> simp [ih]

/-- The formats of the arguments are those of their types in C. -/
theorem printFormat_eq {k : Context} (hk : k.Proper) (es : List ImpC.Expr) :
    Expr.printFormat k.table es =
      escape (lineFormat ((es.filterMap (Expr.printing? k)).map Prod.fst)) := by
  have hconversion (e : ImpC.Expr) :
      (e.type k.table).conversion? = (e.printing? k).map fun p => ['%', p.1] := by
    rw [Expr.printing?]
    cases e.type k.table <;> rfl
  have hplain : ∀ c ∈ (es.filterMap (Expr.printing? k)).map Prod.fst, escapeChar c = [c] := by
    intro c hc
    obtain ⟨p, hp, rfl⟩ := List.mem_map.mp hc
    obtain ⟨e, -, he⟩ := List.mem_filterMap.mp hp
    obtain ⟨type, hexpected, -⟩ := printing?_typed hk he
    exact (expected?_plain hexpected).2
  rw [escape_lineFormat hplain, Expr.printFormat, List.map_map, List.map_filterMap]
  simp only [hconversion]
  rfl

/-- How a call of `printf` is read in C. For a call that prints, its format is that of a line with the
conversions of the arguments that have one, in order, the values are those of these arguments, and
each value has the type that its conversion expects. -/
def Emitted (k : Context) : Printing → Option C.Expr → Prop
  | .line arguments, c =>
    let printed := arguments.filterMap (Expr.printing? k)
    ∃ format, c = some (.call (.name printfName) (.string format :: printed.map Prod.snd)) ∧
      stringValue? format = some (lineFormat (printed.map Prod.fst)) ∧
      conversions (lineFormat (printed.map Prod.fst)) = printed.map Prod.fst ∧
      ∀ p ∈ printed, ∃ type, expected? p.1 = some type ∧ p.2.type? k.types = some type
  | .direct arguments, c => c = some (.call (.name printfName) (Expr.allInC k arguments))

/-- Each `print` is emitted as a `printf` whose format fits its arguments. -/
theorem emitted_inC {k : Context} (hk : k.Proper) (p : Printing) : Emitted k p (some (p.inC k)) := by
  cases p with
  | direct arguments => rfl
  | line arguments =>
    have htyped : ∀ p ∈ arguments.filterMap (Expr.printing? k),
        ∃ type, expected? p.1 = some type ∧ p.2.type? k.types = some type := by
      intro p hp
      obtain ⟨e, -, he⟩ := List.mem_filterMap.mp hp
      exact printing?_typed hk he
    refine ⟨Expr.printFormat k.table arguments, ?_, ?_, conversions_lineFormat ?_, htyped⟩
    · rw [Printing.inC, printedInC_eq]
    · rw [printFormat_eq hk, stringValue?_escape]
    · intro c hc
      obtain ⟨p, hp, rfl⟩ := List.mem_map.mp hc
      obtain ⟨type, hexpected, -⟩ := htyped p hp
      exact (expected?_plain hexpected).1

/-- The calls of `printf` in the C that is emitted for a parsed program are those for its calls that
print, which are well formed and well typed, and those that it makes itself. -/
theorem prints_well_typed {source : Source} {tree : Tree}
    (h : (parse (Lexer.start source).tokenize.tokens).tree = some tree) :
    let resolved := resolve (Surface.ofTree tree)
    let k : Context := ⟨resolved.table, assignNames (resolved.table.map (·.name))⟩
    List.Forall₂ (Emitted k) (resolved.program.printings resolved.table)
      (C.printfsIn (generate resolved.program resolved.table).text) := by
  have hbody := Surface.words_ofTree h
  obtain ⟨-, hwords⟩ := resolve_scoped hbody
  intro resolved k
  have hk : k.Proper := assignNames_proper hwords
  have hvalues : (programRows resolved.program resolved.table).filterMap Row.value? =
      resolved.program.values.map fun e => (lower k e).1 := rows_values k [] _
  have hprintfs : C.printfsIn (generate resolved.program resolved.table).text =
      (resolved.program.printings resolved.table).map fun p => some (p.inC k) := by
    rw [generate_eq, programLines, program_printfs (programRows_legible hbody), hvalues,
      Block.printings, List.flatMap_map, List.map_flatMap, List.map_flatMap]
    refine List.flatMap_congr fun e _ => ?_
    rw [lower_printfs, List.map_map]
    rfl
  rw [hprintfs, List.forall₂_map_right_iff, List.forall₂_same]
  exact fun p _ => emitted_inC hk p

/-- A line with an argument that is left out and one that prints a line itself, and a call of `printf`
by its name. -/
def mixedPrintsText : Text :=
  "var s = \"a\"; var n = 1; print(s, n + 1, 2.5 * n, f(n), !print(n)); printf(\"%d\");".toList

theorem prints_well_typed_mixed :
    ∃ tree, (parse (Lexer.start ⟨[], mixedPrintsText⟩).tokenize.tokens).tree = some tree ∧
      let resolved := resolve (Surface.ofTree tree)
      let k : Context := ⟨resolved.table, assignNames (resolved.table.map (·.name))⟩
      let n : C.Expr := .name ['n']
      let inner : C.Expr := .call (.name printfName) [.string "\"%d\\n\"".toList, n]
      let outer : C.Expr := .call (.name printfName) [.string "\"%s %d %g %s\\n\"".toList,
        .name ['s'], .binary ['+'] n (.integer 1), .binary ['*'] (.constant "2.5".toList) n,
        .conditional (.unary ['!'] inner) (.string "\"true\"".toList) (.string "\"false\"".toList)]
      let direct : C.Expr := .call (.name printfName) [.string "\"%d\"".toList]
      C.printfsIn (generate resolved.program resolved.table).text =
          [some outer, some inner, some direct] ∧
        List.Forall₂ (Emitted k) (resolved.program.printings resolved.table)
          [some outer, some inner, some direct] := by
  let n : C.Expr := .name ['n']
  let inner : C.Expr := .call (.name printfName) [.string "\"%d\\n\"".toList, n]
  let outer : C.Expr := .call (.name printfName) [.string "\"%s %d %g %s\\n\"".toList,
    .name ['s'], .binary ['+'] n (.integer 1), .binary ['*'] (.constant "2.5".toList) n,
    .conditional (.unary ['!'] inner) (.string "\"true\"".toList) (.string "\"false\"".toList)]
  let direct : C.Expr := .call (.name printfName) [.string "\"%d\"".toList]
  have htokens : (Lexer.start ⟨[], mixedPrintsText⟩).tokens =
      ((Lexer.start ⟨[], mixedPrintsText⟩).advance 90).1 :=
    Lexer.tokens_eq_advance (by decide)
  have hrun : (parse (Lexer.start ⟨[], mixedPrintsText⟩).tokenize.tokens).tree.map (fun tree =>
      let resolved := resolve (Surface.ofTree tree)
      C.printfsIn (generate resolved.program resolved.table).text) =
      some [some outer, some inner, some direct] := by
    rw [Lexer.tokenize, htokens]
    decide +kernel
  obtain ⟨tree, htree, hprintfs⟩ := Option.map_eq_some_iff.mp hrun
  have hemitted := prints_well_typed htree
  exact ⟨tree, htree, hprintfs, hprintfs ▸ hemitted⟩

/-- A call of `printf` by its name, with a conversion for which there is no value. -/
def printfCallText : Text := "printf(\"%d\");".toList

theorem prints_unmatched :
    (compile [] printfCallText false).diagnostics = [] ∧
      ∃ c format, (compile [] printfCallText false).c = some c ∧
        C.printfsIn c = [some (.call (.name printfName) [.string format])] ∧
        stringValue? format = some "%d".toList ∧ conversions "%d".toList = ['d'] := by
  have htokens : (Lexer.start ⟨[], printfCallText⟩).tokens =
      ((Lexer.start ⟨[], printfCallText⟩).advance 20).1 :=
    Lexer.tokens_eq_advance (by decide)
  have hrun : (compile [] printfCallText false).diagnostics = [] ∧
      (compile [] printfCallText false).c.map C.printfsIn =
        some [some (.call (.name printfName) [.string "\"%d\"".toList])] := by
    rw [compile, Lexer.tokenize, htokens]
    decide +kernel
  obtain ⟨hclean, hread⟩ := hrun
  obtain ⟨c, hc, hprintfs⟩ := Option.map_eq_some_iff.mp hread
  exact ⟨hclean, c, _, hc, hprintfs, by decide +kernel, by decide⟩

end Target

end ImpC
