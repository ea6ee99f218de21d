import ImpC.Proofs.C.Scope

/-!
# The calls of C

A word before a parenthesis is the name of a function, unless C reserves it. Like any identifier it
is looked up in the blocks around it, so it refers to a function outside only if none of them
declares it.
-/
namespace ImpC.C

open ImpC.Target

/-- A function may have the name. Of the reserved names, only `main` and `printf` are functions. -/
def isFunction (w : Text) : Bool :=
  !reserved.contains w || ["main".toList, "printf".toList].contains w

/-- The function that is called by a lexeme, when `after` is the one after it. -/
def Lexeme.called (l : Lexeme) (after : Option Lexeme) : List Text :=
  match l with
  | .word w => if isFunction w = true ∧ after = some (.mark ['(']) then [w] else []
  | _ => []

def Reader.calls (r : Reader) : List Lexeme → List Use
  | [] => []
  | l :: ls => (l.called ls.head?).map (use r.frames) ++ (r.step l ls.head?).2.calls ls

def callsIn (t : Text) : List Use := Reader.calls ⟨[], 0, []⟩ (lexemes t)

/-- The calls of some functions in the same place. -/
def callsOf (frames : List Frame) (fs : List Text) : List Use :=
  (fs.filter isFunction).map (use frames)

/-- The functions that some lexemes call, when `after` follows them. -/
def called (after : Option Lexeme) : List Lexeme → List Text
  | [] => []
  | l :: ls => l.called (ls.head?.or after) ++ called after ls

/-- Whether a word is called depends on the lexeme behind it only. -/
theorem called_append (after : Option Lexeme) (ls ms : List Lexeme) :
    called after (ls ++ ms) = called (ms.head?.or after) ls ++ called after ms := by
  induction ls with
  | nil => rfl
  | cons l ls ih =>
    rw [List.cons_append, called, called, ih, List.head?_append, Option.or_assoc, List.append_assoc]

/-- The lexeme ends no statement and bounds no block. -/
def IsInner : Lexeme → Prop
  | .mark t => t ∉ [['\x7b'], ['\x7d'], [';']]
  | _ => True

theorem IsSilent.isInner {l : Lexeme} (h : IsSilent l) : IsInner l := by
  cases l with
  | mark t => exact h
  | word | number | string => trivial

theorem isFunction_keyword {w : Text} (h : isKeyword w = true) : isFunction w = false := by
  have hall : keywords.all (fun w => !isFunction w) = true := by decide
  have hw := List.all_eq_true.mp hall w (List.contains_iff_mem.mp h)
  simpa using hw

theorem IsSilent.called {l : Lexeme} (h : IsSilent l) (after : Option Lexeme) :
    l.called after = [] := by
  cases l with
  | word w => simp [Lexeme.called, isFunction_keyword h]
  | mark | number | string => rfl

/-- The lexemes stand within a statement and call the functions `fs`, if no parenthesis follows. -/
structure Invokes (ls : List Lexeme) (fs : List Text) : Prop where
  inner : ∀ l ∈ ls, IsInner l
  called : ∀ after, after ≠ some (.mark ['(']) → called after ls = fs.filter isFunction

/-- What follows must not open a parenthesis, or the last word would be called. -/
theorem Invokes.append {ls ms : List Lexeme} {fs gs : List Text} (h : Invokes ls fs)
    (h' : Invokes ms gs) (hhead : ms.head? ≠ some (.mark ['('])) :
    Invokes (ls ++ ms) (fs ++ gs) := by
  refine ⟨List.forall_mem_append.mpr ⟨h.inner, h'.inner⟩, fun after hafter => ?_⟩
  have hnext : ms.head?.or after ≠ some (.mark ['(']) := by
    cases ms with
    | nil => exact hafter
    | cons l ms => exact hhead
  rw [called_append, h.called _ hnext, h'.called after hafter, List.filter_append]

theorem invokes_silent {ls : List Lexeme} (h : ∀ l ∈ ls, IsSilent l) : Invokes ls [] := by
  refine ⟨fun l hl => (h l hl).isInner, fun after _ => ?_⟩
  induction ls with
  | nil => rfl
  | cons l ls ih =>
    rw [List.forall_mem_cons] at h
    rw [C.called, h.1.called, ih h.2]
    rfl

theorem Invokes.cons {l : Lexeme} {ls : List Lexeme} {fs : List Text} (hl : IsSilent l)
    (h : Invokes ls fs) : Invokes (l :: ls) fs := by
  refine ⟨List.forall_mem_cons.mpr ⟨hl.isInner, h.inner⟩, fun after hafter => ?_⟩
  rw [C.called, hl.called, h.called after hafter]
  rfl

/-- A mark behind an expression keeps what follows from calling it. -/
theorem Invokes.before_silent {l : Lexeme} {ls ms : List Lexeme} {fs : List Text}
    (h : Invokes ls fs) (hms : ∀ m ∈ l :: ms, IsSilent m) (hl : l ≠ .mark ['(']) :
    Invokes (ls ++ l :: ms) fs := by
  simpa using h.append (invokes_silent hms) (by simpa using hl)

theorem invokes_name (name : Text) : Invokes [.word name] [] :=
  ⟨List.forall_mem_singleton.mpr trivial, fun after hafter => by
    simp [called, Lexeme.called, hafter]⟩

/-- A call invokes its function before those in its arguments. -/
theorem invokes_call {ls : List Lexeme} {fs : List Text} (h : Invokes ls fs) (f : Text) :
    Invokes (.word f :: .mark ['('] :: ls ++ [.mark [')']]) (f :: fs) := by
  have hclosed : Invokes (.mark ['('] :: (ls ++ [.mark [')']])) fs :=
    (h.before_silent (by simp [IsSilent]) (by simp)).cons (by simp [IsSilent])
  refine ⟨List.forall_mem_cons.mpr ⟨trivial, hclosed.inner⟩, fun after hafter => ?_⟩
  have hmore := hclosed.called after hafter
  rw [List.cons_append, List.cons_append, C.called, hmore, List.filter_cons]
  cases hf : isFunction f <;> simp [Lexeme.called, hf]

theorem invokes_enclosed {b : Bool} {ls : List Lexeme} {fs : List Text} (h : Invokes ls fs) :
    Invokes (enclosed b ls) fs := by
  cases b with
  | true => exact (h.before_silent (by simp [IsSilent]) (by simp)).cons (by simp [IsSilent])
  | false => exact h

theorem invokes_commas {parts : List (List Lexeme)} {functions : List (List Text)}
    (h : List.Forall₂ Invokes parts functions) : Invokes (commas parts) functions.flatten := by
  induction h with
  | nil => exact invokes_silent nofun
  | @cons ls fs parts functions hfirst hmore ih =>
    cases hmore with
    | nil => simpa [commas] using hfirst
    | cons _ _ =>
      rw [commas, List.intercalate_cons_cons, List.append_assoc]
      exact hfirst.append (ih.cons (by simp [IsSilent])) (by simp)

/-- Within a statement that is no declaration, a lexeme is passed. -/
theorem step_inner {l : Lexeme} (hl : IsInner l) {r : Reader} (h : Inside r.since)
    (after : Option Lexeme) : (r.step l after).2 = r.pass l := by
  cases l with
  | word w =>
    rw [Reader.step, h.typeOf?]
    split <;> rfl
  | number t | string t => rfl
  | mark t => rw [step_silent (show IsSilent (.mark t) from hl)]

/-- Behind the first lexeme of a statement no word is declared, so every called word is a use. -/
theorem calls_inside {ls : List Lexeme} (hls : ∀ l ∈ ls, IsInner l) {r : Reader}
    (h : Inside r.since) (rest : List Lexeme) :
    r.calls (ls ++ rest) = (called rest.head? ls).map (use r.frames) ++
      Reader.calls ⟨r.frames, r.next, r.since ++ ls⟩ rest := by
  induction ls generalizing r with
  | nil => simp [called]
  | cons l ls ih =>
    rw [List.forall_mem_cons] at hls
    have hmore := ih hls.2 (r := r.pass l) (h.append [l])
    rw [List.cons_append, Reader.calls, step_inner hls.1 h, hmore, called, List.head?_append]
    simp [Reader.pass]

theorem Invokes.calls_inside {ls : List Lexeme} {fs : List Text} (h : Invokes ls fs) {r : Reader}
    (hr : Inside r.since) (rest : List Lexeme) (hrest : rest.head? ≠ some (.mark ['('])) :
    r.calls (ls ++ rest) =
      callsOf r.frames fs ++ Reader.calls ⟨r.frames, r.next, r.since ++ ls⟩ rest := by
  rw [C.calls_inside h.inner hr, h.called _ hrest, callsOf]

/-- What starts with a word and a parenthesis is no declaration either. -/
theorem Invokes.calls_opening {f : Text} {ls : List Lexeme} {fs : List Text}
    (h : Invokes (.word f :: .mark ['('] :: ls) fs) (r : Reader) (rest : List Lexeme)
    (hrest : rest.head? ≠ some (.mark ['('])) :
    r.calls (.word f :: .mark ['('] :: ls ++ rest) = callsOf r.frames fs ++
      Reader.calls ⟨r.frames, r.next, r.since ++ .word f :: .mark ['('] :: ls⟩ rest := by
  have hinside : Inside (r.since ++ [.word f, .mark ['(']]) := .inl (by simp)
  have hls : ∀ l ∈ ls, IsInner l := fun l hl => h.inner l (by simp [hl])
  have hmore := C.calls_inside hls (r := ⟨r.frames, r.next, _⟩) hinside rest
  rw [callsOf, ← h.called _ hrest]
  simp [Reader.calls, Reader.step, Reader.pass, C.called, Lexeme.called, hmore]

theorem calls_silent {ls : List Lexeme} (h : ∀ l ∈ ls, IsSilent l) (r : Reader)
    (rest : List Lexeme) :
    r.calls (ls ++ rest) = Reader.calls ⟨r.frames, r.next, r.since ++ ls⟩ rest := by
  induction ls generalizing r with
  | nil => simp
  | cons l ls ih =>
    rw [List.forall_mem_cons] at h
    rw [List.cons_append, Reader.calls, h.1.called, step_silent h.1]
    simpa [Reader.pass] using ih h.2 (r.pass l)

end ImpC.C

namespace ImpC.Target

open ImpC.C

mutual

/-- The functions that an expression calls, in the order in which they are written. -/
def Expr.callees : Expr → List Text
  | .literal _ | .name _ => []
  | .unary _ operand => operand.callees
  | .binary _ left right => left.callees ++ right.callees
  | .call function arguments => function :: (Expr.calleesAll arguments).flatten
  | .printf arguments => "printf".toList :: (Argument.calleesAll arguments).flatten

def Expr.calleesAll : List Expr → List (List Text)
  | [] => []
  | e :: es => e.callees :: Expr.calleesAll es

def Argument.callees : Argument → List Text
  | .int value | .float value | .bool value | .str value => value.callees

def Argument.calleesAll : List Argument → List (List Text)
  | [] => []
  | a :: as => a.callees :: Argument.calleesAll as

end

mutual

/-- The lexemes of an expression invoke its functions in the order in which they are written. -/
theorem Expr.invokes : ∀ e : Expr, Invokes e.lexemes e.callees
  | .literal value => invokes_silent (literal_silent value)
  | .name name => invokes_name name
  | .unary op operand => (invokes_enclosed (Expr.invokes operand)).cons (unary_silent op)
  | .binary op left right =>
    (invokes_enclosed (Expr.invokes left)).append
      ((invokes_enclosed (Expr.invokes right)).cons (binary_silent op))
      (by simp [binary_not_opening op])
  | .call function arguments => invokes_call (invokes_commas (Expr.invokesAll arguments)) function
  | .printf arguments =>
    invokes_call (invokes_commas (.cons (invokes_silent (format_silent arguments))
      (Argument.invokesAll arguments))) _

theorem Expr.invokesAll : ∀ es : List Expr,
    List.Forall₂ Invokes (Expr.lexemesAll es) (Expr.calleesAll es)
  | [] => .nil
  | e :: es => .cons (Expr.invokes e) (Expr.invokesAll es)

theorem Argument.invokes : ∀ a : Argument, Invokes a.lexemes a.callees
  | .int value | .float value | .str value => Expr.invokes value
  | .bool value =>
    ((Expr.invokes value).before_silent (by simp [IsSilent]) (by simp)).cons (by simp [IsSilent])

theorem Argument.invokesAll : ∀ as : List Argument,
    List.Forall₂ Invokes (Argument.lexemesAll as) (Argument.calleesAll as)
  | [] => .nil
  | a :: as => .cons (Argument.invokes a) (Argument.invokesAll as)

end

/-- A call that is a statement of its own stands at the start of one. -/
theorem Expr.calls_of_isCall {e : Expr} (h : e.isCall = true) (r : Reader) (rest : List Lexeme)
    (hrest : rest.head? ≠ some (.mark ['('])) :
    r.calls (e.lexemes ++ rest) = callsOf r.frames e.callees ++
      Reader.calls ⟨r.frames, r.next, r.since ++ e.lexemes⟩ rest := by
  have hinvokes := e.invokes
  cases e with
  | call function arguments => exact hinvokes.calls_opening r rest hrest
  | printf arguments => exact hinvokes.calls_opening r rest hrest
  | literal | name | unary | binary => cases h

/-- What is called before a block is entered. The definition of `main` is read like a call. -/
def openingCallees : Opening Expr → List Text
  | .main => ["main".toList]
  | .plain | .otherwise => []
  | .conditional condition | .loop condition | .alternative condition => condition.callees

/-- The calls in a row inside the blocks `frames`. -/
def Row.calls (frames : List Frame) : Row → List Use
  | .enter opening _ => callsOf (opening.outer frames) (openingCallees opening)
  | .assignment _ value | .evaluation value => callsOf frames value.callees
  | .leave => []

theorem calls_declarator {d : Declarator} (h : isKeyword d.name = false) (f : Frame)
    (frames : List Frame) (n : Nat) (rest : List Lexeme) :
    Reader.calls ⟨f :: frames, n, []⟩ (d.lexemes ++ rest) =
      Reader.calls ⟨⟨f.number, f.declared ++ [d]⟩ :: frames, n, []⟩ rest := by
  rw [Declarator.lexemes, List.append_assoc, calls_silent (type_silent d.type), List.nil_append]
  simp [Reader.calls, Lexeme.called, Reader.step, h, typeOf?_lexemes, Reader.declare, Reader.pass]

/-- Declarations call nothing and leave their names in the frame. -/
theorem calls_declarators {ds : List Declarator} (h : ∀ d ∈ ds, isKeyword d.name = false)
    (f : Frame) (frames : List Frame) (n : Nat) (rest : List Lexeme) :
    Reader.calls ⟨f :: frames, n, []⟩ (ds.flatMap Declarator.lexemes ++ rest) =
      Reader.calls ⟨⟨f.number, f.declared ++ ds⟩ :: frames, n, []⟩ rest := by
  induction ds generalizing f with
  | nil => simp
  | cons d ds ih =>
    rw [List.forall_mem_cons] at h
    rw [List.flatMap_cons, List.append_assoc, calls_declarator h.1, ih h.2]
    simp

/-- The calls in a condition are made in the frames around the block that it guards. -/
theorem calls_guard {w : Text} (hw : isKeyword w = true) (condition : Expr) (r : Reader)
    (rest : List Lexeme) :
    r.calls (guardLexemes w condition.lexemes ++ rest) = callsOf r.frames condition.callees ++
      Reader.calls ⟨⟨r.next, []⟩ :: r.frames, r.next + 1, []⟩ rest := by
  have hcondition : Invokes (.word w :: .mark ['('] :: (condition.lexemes ++ [.mark [')']]))
      (w :: condition.callees) := invokes_call condition.invokes w
  have hguard := hcondition.calls_opening r (.mark ['\x7b'] :: rest) (by simp)
  have hname : callsOf r.frames (w :: condition.callees) = callsOf r.frames condition.callees := by
    simp [callsOf, isFunction_keyword hw]
  rw [hname] at hguard
  simp only [guardLexemes, List.cons_append, List.append_assoc, List.nil_append] at hguard ⊢
  exact hguard

theorem calls_target (target : Text) (frames : List Frame) (n : Nat) (rest : List Lexeme) :
    Reader.calls ⟨frames, n, []⟩ (.word target :: .mark ['='] :: rest) =
      Reader.calls ⟨frames, n, [.word target, .mark ['=']]⟩ rest := by
  have htype : typeOf? [] = none := by decide
  by_cases htarget : isKeyword target = true
  · simp [Reader.calls, Lexeme.called, Reader.step, Reader.pass, htarget]
  · simp [Reader.calls, Lexeme.called, Reader.step, Reader.pass, htarget, htype]

/-- The words between the blocks of a conditional. -/
theorem calls_else (frames : List Frame) (n : Nat) (rest : List Lexeme) :
    Reader.calls ⟨frames, n, []⟩ (.mark ['\x7d'] :: .word "else".toList :: rest) =
      Reader.calls ⟨frames.tail, n, [.word "else".toList]⟩ rest := by
  have hsilent : ∀ l ∈ [Lexeme.word "else".toList], IsSilent l := List.forall_mem_singleton.mpr rfl
  exact calls_silent hsilent ⟨frames.tail, n, []⟩ rest

theorem calls_openingLexemes (opening : Opening Expr) (frames : List Frame) (n : Nat)
    (rest : List Lexeme) :
    Reader.calls ⟨frames, n, []⟩ (openingLexemes opening ++ rest) =
      callsOf (opening.outer frames) (openingCallees opening) ++
        Reader.calls ⟨⟨n, []⟩ :: opening.outer frames, n + 1, []⟩ rest := by
  cases opening with
  | main =>
    have hvoid : ∀ l ∈ [Lexeme.word "void".toList], IsSilent l := List.forall_mem_singleton.mpr rfl
    have hmain := (invokes_call (invokes_silent hvoid) "main".toList).calls_opening
      ⟨frames, n, [.word "int".toList]⟩ (.mark ['\x7b'] :: rest) (by simp)
    exact hmain
  | plain => rfl
  | conditional condition => exact calls_guard (by decide) condition ⟨frames, n, []⟩ rest
  | loop condition => exact calls_guard (by decide) condition ⟨frames, n, []⟩ rest
  | otherwise => exact calls_else frames n _
  | alternative condition =>
    exact (calls_else frames n _).trans (calls_guard (by decide) condition _ rest)

theorem Row.calls_lexemes {r : Row} (h : r.Legible) (frames : List Frame) (n : Nat)
    (rest : List Lexeme) :
    Reader.calls ⟨frames, n, []⟩ (r.lexemes ++ rest) =
      r.calls frames ++ Reader.calls ⟨r.frames frames n, r.next n, []⟩ rest := by
  cases r with
  | enter opening declarators =>
    have hnames : ∀ d ∈ declarators, isKeyword d.name = false := fun d hd => (h.2 d hd).2
    rw [Row.lexemes, List.append_assoc, calls_openingLexemes, calls_declarators hnames]
    rfl
  | assignment target value =>
    have hvalue := value.invokes.calls_inside (r := ⟨frames, n, [.word target, .mark ['=']]⟩)
      (.inr (by simp)) (.mark [';'] :: rest) (by simp)
    rw [Row.lexemes, List.append_assoc, List.cons_append, List.cons_append, calls_target,
      List.singleton_append, hvalue]
    rfl
  | evaluation value =>
    have hvalue := Expr.calls_of_isCall h.1 ⟨frames, n, []⟩ (.mark [';'] :: rest) (by simp)
    rw [Row.lexemes, List.append_assoc]
    exact hvalue
  | leave => rfl

/-- The calls of a program are those of its rows, each in the frames around it. -/
theorem Row.callsAll_lexemes {rows : List Row} (h : ∀ r ∈ rows, r.Legible) (frames : List Frame)
    (n : Nat) :
    Reader.calls ⟨frames, n, []⟩ (rows.flatMap Row.lexemes ++ epilogueLexemes) =
      Row.readAll Row.calls frames n rows := by
  induction rows generalizing frames n with
  | nil => rfl
  | cons r rows ih =>
    rw [List.forall_mem_cons] at h
    rw [List.flatMap_cons, List.append_assoc, Row.calls_lexemes h.1, ih h.2]
    rfl

/-- The calls in the text of some rows are those of the rows. -/
theorem program_calls {rows : List Row} (h : ∀ r ∈ rows, r.Legible) :
    C.callsIn ((Row.linesAll 0 rows ++ epilogue).flatMap Line.pieces).flatten =
      Row.readAll Row.calls [] 0 rows := by
  rw [C.callsIn, program_lexemes h]
  exact Row.callsAll_lexemes h [] 0

end ImpC.Target
