import ImpC.Proofs.C.Emitted

/-!
# The scopes of C

Blocks are numbered in the order in which they are opened. An identifier behind a type at the start
of a statement is declared in the innermost block, from there to the end of the block; an identifier
before a parenthesis is a function's; any other one is looked up in the blocks around it, innermost
first. Declarations outside of functions and initial values are not read.
-/
namespace ImpC.C

open ImpC.Target

/-- An open block and the declarators in it so far. -/
structure Frame where
  number : Nat
  declared : List Declarator

/-- The use of an identifier: the blocks around it and the declarator it refers to, with its block. -/
structure Use where
  name : Text
  path : List Nat
  found : Option (Nat × Declarator)
  deriving DecidableEq

def find? (frames : List Frame) (name : Text) : Option (Nat × Declarator) :=
  frames.findSome? fun f => (f.declared.find? (·.name = name)).map (f.number, ·)

def use (frames : List Frame) (name : Text) : Use :=
  ⟨name, frames.map (·.number), find? frames name⟩

def typeOf? (ls : List Lexeme) : Option CType :=
  [CType.int, .double, .bool, .text].find? (·.lexemes = ls)

/-- The blocks around the place reached, innermost first, the number of the next one, and the lexemes
since the last semicolon or brace. -/
structure Reader where
  frames : List Frame
  next : Nat
  since : List Lexeme

def Reader.declare (r : Reader) (d : Declarator) : Reader :=
  match r.frames with
  | [] => r
  | f :: outer => { r with frames := { f with declared := f.declared ++ [d] } :: outer }

/-- A lexeme within a statement. -/
def Reader.pass (r : Reader) (l : Lexeme) : Reader := { r with since := r.since ++ [l] }

/-- One lexeme, when `after` is the one after it. -/
def Reader.step (r : Reader) (l : Lexeme) (after : Option Lexeme) : List Use × Reader :=
  match l with
  | .mark ['\x7b'] => ([], ⟨⟨r.next, []⟩ :: r.frames, r.next + 1, []⟩)
  | .mark ['\x7d'] => ([], ⟨r.frames.tail, r.next, []⟩)
  | .mark [';'] => ([], { r with since := [] })
  | .word w =>
    if isKeyword w ∨ after = some (.mark ['(']) then ([], r.pass l)
    else match typeOf? r.since with
      | some type => ([], (r.declare ⟨type, w⟩).pass l)
      | none => ([use r.frames w], r.pass l)
  | _ => ([], r.pass l)

def Reader.uses (r : Reader) : List Lexeme → List Use
  | [] => []
  | l :: ls =>
    let (found, r) := r.step l ls.head?
    found ++ r.uses ls

/-- The uses of identifiers in a C text, in order. -/
def uses (t : Text) : List Use := Reader.uses ⟨[], 0, []⟩ (lexemes t)

/-- The uses of some identifiers in the same place. -/
def usesOf (frames : List Frame) (names : List Text) : List Use :=
  (names.filter (!isKeyword ·)).map (use frames)

@[simp] theorem usesOf_append (frames : List Frame) (ns ms : List Text) :
    usesOf frames (ns ++ ms) = usesOf frames ns ++ usesOf frames ms := by
  simp [usesOf]

/-- No declaration starts here: an assignment or a parenthesis is before. -/
def Inside (since : List Lexeme) : Prop := .mark ['('] ∈ since ∨ .mark ['='] ∈ since

theorem Inside.append {since : List Lexeme} (h : Inside since) (ls : List Lexeme) :
    Inside (since ++ ls) :=
  h.imp (List.mem_append_left ls) (List.mem_append_left ls)

/-- Inside a statement nothing is declared. -/
theorem Inside.typeOf? {since : List Lexeme} (h : Inside since) : typeOf? since = none := by
  rw [C.typeOf?, List.find?_eq_none]
  have htypes : ∀ type : CType, ¬ Inside type.lexemes := by
    intro type
    cases type <;> simp [Inside, CType.lexemes]
  intro type _ heq
  exact htypes type (of_decide_eq_true heq ▸ h)

/-- Lexemes of an expression that use the names `names`, in a statement that has begun with lexemes
that `start`. -/
def Reads (start : List Lexeme → Prop) (ls : List Lexeme) (names : List Text) : Prop :=
  ∀ r rest, start r.since → rest.head? ≠ some (.mark ['(']) →
    Reader.uses r (ls ++ rest) =
      usesOf r.frames names ++ Reader.uses ⟨r.frames, r.next, r.since ++ ls⟩ rest

variable {start : List Lexeme → Prop}

/-- What follows must not open a parenthesis, or the last name would be that of a function. -/
theorem Reads.append {ls ms : List Lexeme} {ns ns' : List Text} (h : Reads Inside ls ns)
    (h' : Reads Inside ms ns') (hhead : ms.head? ≠ some (.mark ['('])) :
    Reads Inside (ls ++ ms) (ns ++ ns') := by
  intro r rest hstart hrest
  have hnext : (ms ++ rest).head? ≠ some (.mark ['(']) := by
    cases ms with
    | nil => exact hrest
    | cons l ms => exact hhead
  rw [List.append_assoc, h r _ hstart hnext, h' _ rest (hstart.append ls) hrest, usesOf_append,
    List.append_assoc, List.append_assoc]

/-- The lexeme is read without regard to what follows, and changes nothing. -/
def IsSilent : Lexeme → Prop
  | .word w => isKeyword w = true
  | .mark t => t ∉ [['\x7b'], ['\x7d'], [';']]
  | .number _ | .string _ => True

/-- A lexeme that is no name, brace or semicolon changes nothing but what was read. -/
theorem step_silent {l : Lexeme} (h : IsSilent l) (r : Reader) (after : Option Lexeme) :
    r.step l after = ([], r.pass l) := by
  cases l with
  | word w => simp [Reader.step, show isKeyword w = true from h]
  | number t | string t => rfl
  | mark t =>
    simp only [IsSilent, List.mem_cons, List.not_mem_nil, or_false, not_or] at h
    unfold Reader.step
    split <;> simp_all

theorem Reads.cons {l : Lexeme} {ls : List Lexeme} {ns : List Text} (hl : IsSilent l)
    (h : Reads Inside ls ns) : Reads Inside (l :: ls) ns := by
  intro r rest hstart hrest
  rw [List.cons_append, Reader.uses, step_silent hl]
  have hreads := h (r.pass l) rest (hstart.append [l]) hrest
  simpa [Reader.pass] using hreads

theorem reads_nil : Reads start [] [] := fun r rest _ _ => by simp [usesOf]

theorem reads_name (name : Text) : Reads Inside [.word name] [name] := by
  intro r rest hstart hrest
  rw [List.singleton_append, Reader.uses, Reader.step, hstart.typeOf?]
  by_cases hname : isKeyword name = true
  · simp [hname, usesOf, Reader.pass]
  · simp [hname, hrest, usesOf, Reader.pass]

theorem uses_silent {ls : List Lexeme} (h : ∀ l ∈ ls, IsSilent l) (r : Reader)
    (rest : List Lexeme) :
    r.uses (ls ++ rest) = Reader.uses ⟨r.frames, r.next, r.since ++ ls⟩ rest := by
  induction ls generalizing r with
  | nil => simp
  | cons l ls ih =>
    rw [List.forall_mem_cons] at h
    rw [List.cons_append, Reader.uses, step_silent h.1]
    simpa [Reader.pass] using ih h.2 (r.pass l)

theorem reads_silent {ls : List Lexeme} (h : ∀ l ∈ ls, IsSilent l) : Reads start ls [] := by
  intro r rest _ _
  exact uses_silent h r rest

/-- A mark behind a name makes it a use. -/
theorem Reads.before_silent {l : Lexeme} {ls ms : List Lexeme} {ns : List Text}
    (h : Reads Inside ls ns) (hms : ∀ m ∈ l :: ms, IsSilent m) (hl : l ≠ .mark ['(']) :
    Reads Inside (ls ++ l :: ms) ns := by
  simpa using h.append (reads_silent hms) (by simpa using hl)

/-- The name of a function is not looked up, and what is between its parentheses is inside. -/
theorem reads_call {ls : List Lexeme} {ns : List Text} (h : Reads Inside ls ns) (f : Text) :
    Reads start (.word f :: .mark ['('] :: ls ++ [.mark [')']]) ns := by
  intro r rest _ hrest
  have hclosed : Reads Inside (ls ++ [.mark [')']]) ns :=
    h.before_silent (by simp [IsSilent]) (by simp)
  have hinside : Inside (r.since ++ [.word f, .mark ['(']]) := .inl (by simp)
  have hreads := hclosed ⟨r.frames, r.next, r.since ++ [.word f, .mark ['(']]⟩ rest hinside hrest
  simpa [Reader.uses, Reader.step, Reader.pass] using hreads

theorem literal_silent (v : Literal) : ∀ l ∈ literalLexemes v, IsSilent l := by
  cases v with
  | int n =>
    rw [literalLexemes, integerLexemes]
    split
    · simp [IsSilent]
    · split <;> simp [IsSilent]
  | float x => simp [literalLexemes, IsSilent]
  | bool b =>
    cases b with
    | true | false => exact List.forall_mem_singleton.mpr rfl
  | str t => simp [literalLexemes, IsSilent]

theorem reads_enclosed {b : Bool} {ls : List Lexeme} {ns : List Text} (h : Reads Inside ls ns) :
    Reads Inside (enclosed b ls) ns := by
  cases b with
  | true => exact (h.before_silent (by simp [IsSilent]) (by simp)).cons (by simp [IsSilent])
  | false => exact h

/-- The names in the arguments of a call are used in order. -/
theorem reads_commas {parts : List (List Lexeme)} {names : List (List Text)}
    (h : List.Forall₂ (Reads Inside) parts names) : Reads Inside (commas parts) names.flatten := by
  induction h with
  | nil => exact reads_nil
  | @cons ls ns parts names hfirst hmore ih =>
    cases hmore with
    | nil => simpa [commas] using hfirst
    | cons _ _ =>
      rw [commas, List.intercalate_cons_cons, List.append_assoc]
      exact hfirst.append (ih.cons (by simp [IsSilent])) (by simp)

end ImpC.C

namespace ImpC.Target

open ImpC.C

mutual

/-- The names of an expression in the order in which they are written, without those of functions. -/
def Expr.names : Expr → List Text
  | .literal _ => []
  | .name name => [name]
  | .unary _ operand => operand.names
  | .binary _ left right => left.names ++ right.names
  | .call _ arguments => (Expr.namesAll arguments).flatten
  | .printf arguments => (Argument.namesAll arguments).flatten

def Expr.namesAll : List Expr → List (List Text)
  | [] => []
  | e :: es => e.names :: Expr.namesAll es

def Argument.names : Argument → List Text
  | .int value | .float value | .bool value | .str value => value.names

def Argument.namesAll : List Argument → List (List Text)
  | [] => []
  | a :: as => a.names :: Argument.namesAll as

end

theorem unary_silent (op : UnaryOp) : IsSilent (.mark op.symbol) := by
  cases op <;> simp [IsSilent, UnaryOp.symbol, UnaryOp.operator, Operator.symbol]

theorem binary_silent (op : BinaryOp) : IsSilent (.mark op.symbol) := by
  cases op <;> simp [IsSilent, BinaryOp.symbol, BinaryOp.operator, Operator.symbol]

theorem binary_not_opening (op : BinaryOp) : op.symbol ≠ ['('] := by
  cases op <;> decide

theorem format_silent (arguments : List Argument) :
    ∀ l ∈ [Lexeme.string (format arguments)], IsSilent l := by
  simp [IsSilent]

mutual

/-- The lexemes of an expression use the names of its variables, and not those of functions. -/
theorem Expr.reads : ∀ e : Expr, Reads Inside e.lexemes e.names
  | .literal value => reads_silent (literal_silent value)
  | .name name => reads_name name
  | .unary op operand => (reads_enclosed (Expr.reads operand)).cons (unary_silent op)
  | .binary op left right =>
    (reads_enclosed (Expr.reads left)).append
      ((reads_enclosed (Expr.reads right)).cons (binary_silent op))
      (by simp [binary_not_opening op])
  | .call function arguments => reads_call (reads_commas (Expr.readsAll arguments)) function
  | .printf arguments =>
    reads_call (reads_commas (.cons (reads_silent (format_silent arguments))
      (Argument.readsAll arguments))) _

theorem Expr.readsAll : ∀ es : List Expr,
    List.Forall₂ (Reads Inside) (Expr.lexemesAll es) (Expr.namesAll es)
  | [] => .nil
  | e :: es => .cons (Expr.reads e) (Expr.readsAll es)

theorem Argument.reads : ∀ a : Argument, Reads Inside a.lexemes a.names
  | .int value | .float value | .str value => Expr.reads value
  | .bool value =>
    ((Expr.reads value).before_silent (by simp [IsSilent]) (by simp)).cons (by simp [IsSilent])

theorem Argument.readsAll : ∀ as : List Argument,
    List.Forall₂ (Reads Inside) (Argument.lexemesAll as) (Argument.namesAll as)
  | [] => .nil
  | a :: as => .cons (Argument.reads a) (Argument.readsAll as)

end

/-- A call may start a statement, where other expressions would not be told from declarations. -/
theorem Expr.reads_of_isCall {e : Expr} (h : e.isCall = true) :
    Reads (fun _ => True) e.lexemes e.names := by
  cases e with
  | call function arguments => exact reads_call (reads_commas (Expr.readsAll arguments)) function
  | printf arguments =>
    exact reads_call (reads_commas (.cons (reads_silent (format_silent arguments))
      (Argument.readsAll arguments))) _
  | literal | name | unary | binary => cases h

/-- The uses of identifiers in a row inside the blocks `frames`. -/
def Row.uses (frames : List Frame) : Row → List Use
  | .enter opening _ =>
    usesOf (opening.outer frames) (opening.condition?.toList.flatMap Expr.names)
  | .assignment target value => usesOf frames (target :: value.names)
  | .evaluation value => usesOf frames value.names
  | .leave => []

/-- The blocks around the place after a row, if the next block that is opened has the number `n`. -/
def Row.frames (frames : List Frame) (n : Nat) : Row → List Frame
  | .enter opening declarators => ⟨n, declarators⟩ :: opening.outer frames
  | .assignment _ _ | .evaluation _ => frames
  | .leave => frames.tail

/-- The number of the next block that is opened after a row. -/
def Row.next (n : Nat) : Row → Nat
  | .enter _ _ => n + 1
  | .assignment _ _ | .evaluation _ | .leave => n

/-- What is read of some rows, one by one, inside the blocks `frames`, if the next block that is
opened has the number `n`. -/
def Row.readAll {α : Type} (read : List Frame → Row → List α) (frames : List Frame) (n : Nat) :
    List Row → List α
  | [] => []
  | r :: rows => read frames r ++ readAll read (r.frames frames n) (r.next n) rows

theorem type_silent (type : CType) : ∀ l ∈ type.lexemes, IsSilent l := by
  cases type <;> simp [CType.lexemes, IsSilent, isKeyword, keywords]

/-- Types are told from their lexemes. -/
theorem typeOf?_lexemes (type : CType) : typeOf? type.lexemes = some type := by
  cases type <;> decide

theorem Declarator.reads {d : Declarator} (h : isKeyword d.name = false) (f : Frame)
    (frames : List Frame) (n : Nat) (rest : List Lexeme) :
    Reader.uses ⟨f :: frames, n, []⟩ (d.lexemes ++ rest) =
      Reader.uses ⟨⟨f.number, f.declared ++ [d]⟩ :: frames, n, []⟩ rest := by
  rw [Declarator.lexemes, List.append_assoc, uses_silent (type_silent d.type), List.nil_append]
  simp [Reader.uses, Reader.step, h, typeOf?_lexemes, Reader.declare, Reader.pass]

/-- Declarations use nothing and leave their names in the frame. -/
theorem declarators_read {ds : List Declarator} (h : ∀ d ∈ ds, isKeyword d.name = false) (f : Frame)
    (frames : List Frame) (n : Nat) (rest : List Lexeme) :
    Reader.uses ⟨f :: frames, n, []⟩ (ds.flatMap Declarator.lexemes ++ rest) =
      Reader.uses ⟨⟨f.number, f.declared ++ ds⟩ :: frames, n, []⟩ rest := by
  induction ds generalizing f with
  | nil => simp
  | cons d ds ih =>
    rw [List.forall_mem_cons] at h
    rw [List.flatMap_cons, List.append_assoc, Declarator.reads h.1, ih h.2]
    simp

/-- The names in a condition are used in the frames around the block that it guards. -/
theorem uses_guard {w : Text} (hw : isKeyword w = true) (condition : Expr) (r : Reader)
    (rest : List Lexeme) :
    r.uses (guardLexemes w condition.lexemes ++ rest) = usesOf r.frames condition.names ++
      Reader.uses ⟨⟨r.next, []⟩ :: r.frames, r.next + 1, []⟩ rest := by
  have hopening : ∀ l ∈ [Lexeme.word w, .mark ['(']], IsSilent l := by simp [IsSilent, hw]
  have hinside : Inside (r.since ++ [.word w, .mark ['(']]) := .inl (by simp)
  have hcondition := condition.reads ⟨r.frames, r.next, r.since ++ [.word w, .mark ['(']]⟩
    (.mark [')'] :: .mark ['\x7b'] :: rest) hinside (by simp)
  have hguard := uses_silent hopening r
    (condition.lexemes ++ .mark [')'] :: .mark ['\x7b'] :: rest)
  rw [hcondition] at hguard
  simp only [guardLexemes, List.cons_append, List.append_assoc, List.nil_append]
  exact hguard

theorem uses_target (target : Text) (frames : List Frame) (n : Nat) (rest : List Lexeme) :
    Reader.uses ⟨frames, n, []⟩ (.word target :: .mark ['='] :: rest) =
      usesOf frames [target] ++ Reader.uses ⟨frames, n, [.word target, .mark ['=']]⟩ rest := by
  have htype : typeOf? [] = none := by decide
  by_cases htarget : isKeyword target = true
  · simp [Reader.uses, Reader.step, Reader.pass, usesOf, htarget]
  · simp [Reader.uses, Reader.step, Reader.pass, usesOf, htarget, htype]

/-- The words between the blocks of a conditional. -/
theorem uses_else (frames : List Frame) (n : Nat) (rest : List Lexeme) :
    Reader.uses ⟨frames, n, []⟩ (.mark ['\x7d'] :: .word "else".toList :: rest) =
      Reader.uses ⟨frames.tail, n, [.word "else".toList]⟩ rest := by
  have hsilent : ∀ l ∈ [Lexeme.word "else".toList], IsSilent l := List.forall_mem_singleton.mpr rfl
  exact uses_silent hsilent ⟨frames.tail, n, []⟩ rest

/-- An alternative closes the block before it, and its condition is read outside. -/
theorem uses_opening (opening : Opening Expr) (frames : List Frame) (n : Nat) (rest : List Lexeme) :
    Reader.uses ⟨frames, n, []⟩ (openingLexemes opening ++ rest) =
      usesOf (opening.outer frames) (opening.condition?.toList.flatMap Expr.names) ++
        Reader.uses ⟨⟨n, []⟩ :: opening.outer frames, n + 1, []⟩ rest := by
  have hguard {w : Text} (hw : isKeyword w = true) (condition : Expr) (r : Reader) :
      r.uses (guardLexemes w condition.lexemes ++ rest) =
        usesOf r.frames ((some condition).toList.flatMap Expr.names) ++
          Reader.uses ⟨⟨r.next, []⟩ :: r.frames, r.next + 1, []⟩ rest := by
    rw [uses_guard hw, Option.toList_some, List.flatMap_singleton]
  cases opening with
  | main =>
    have hsilent : ∀ l ∈ [Lexeme.mark ['('], .word "void".toList, .mark [')']], IsSilent l := by
      simp [IsSilent, isKeyword, keywords]
    exact uses_silent hsilent ⟨frames, n, [.word "int".toList, .word "main".toList]⟩ _
  | plain => rfl
  | conditional condition => exact hguard (by decide) condition _
  | loop condition => exact hguard (by decide) condition _
  | otherwise => exact uses_else frames n _
  | alternative condition =>
    exact (uses_else frames n _).trans (hguard (by decide) condition _)

theorem Row.reads {r : Row} (h : r.Legible) (frames : List Frame) (n : Nat) (rest : List Lexeme) :
    Reader.uses ⟨frames, n, []⟩ (r.lexemes ++ rest) =
      r.uses frames ++ Reader.uses ⟨r.frames frames n, r.next n, []⟩ rest := by
  cases r with
  | enter opening declarators =>
    have hnames : ∀ d ∈ declarators, isKeyword d.name = false := fun d hd => (h.2 d hd).2
    rw [Row.lexemes, List.append_assoc, uses_opening, declarators_read hnames]
    rfl
  | assignment target value =>
    have hvalue := value.reads ⟨frames, n, [.word target, .mark ['=']]⟩ (.mark [';'] :: rest)
      (.inr (by simp)) (by simp)
    rw [Row.lexemes, List.append_assoc, List.cons_append, List.cons_append, uses_target,
      List.singleton_append, hvalue, ← List.append_assoc, ← usesOf_append]
    rfl
  | evaluation value =>
    have hvalue := Expr.reads_of_isCall h.1 ⟨frames, n, []⟩ (.mark [';'] :: rest) trivial (by simp)
    rw [Row.lexemes, List.append_assoc]
    exact hvalue
  | leave => rfl

/-- The uses of a program are those of its rows, each in the frames around it. -/
theorem Row.readsAll {rows : List Row} (h : ∀ r ∈ rows, r.Legible) (frames : List Frame) (n : Nat) :
    Reader.uses ⟨frames, n, []⟩ (rows.flatMap Row.lexemes ++ epilogueLexemes) =
      Row.readAll Row.uses frames n rows := by
  induction rows generalizing frames n with
  | nil => rfl
  | cons r rows ih =>
    rw [List.forall_mem_cons] at h
    rw [List.flatMap_cons, List.append_assoc, Row.reads h.1, ih h.2]
    rfl

/-- The uses of identifiers in the text of some rows are those of the rows. -/
theorem program_uses {rows : List Row} (h : ∀ r ∈ rows, r.Legible) :
    C.uses ((Row.linesAll 0 rows ++ epilogue).flatMap Line.pieces).flatten =
      Row.readAll Row.uses [] 0 rows := by
  rw [C.uses, program_lexemes h]
  exact Row.readsAll h [] 0

end ImpC.Target
