import ImpC.Tree.Program

/-!
# The parser reads kinds only

A map of tokens that keeps their kinds can be applied to the tokens or to the tree that is read from
them: the result is the same, and so is every place where reading gets stuck.
-/
namespace ImpC

mutual

def Tree.mapTokens (f : Token → Token) : Tree → Tree
  | .leaf t => .leaf (f t)
  | .node rule first rest => .node rule (first.mapTokens f) (Tree.mapTokensAll f rest)

def Tree.mapTokensAll (f : Token → Token) : List Tree → List Tree
  | [] => []
  | t :: ts => t.mapTokens f :: Tree.mapTokensAll f ts

end

theorem Tree.mapTokensAll_append (f : Token → Token) (ts ts' : List Tree) :
    Tree.mapTokensAll f (ts ++ ts') = Tree.mapTokensAll f ts ++ Tree.mapTokensAll f ts' := by
  induction ts with
  | nil => rfl
  | cons t ts ih => rw [List.cons_append, mapTokensAll, mapTokensAll, ih, List.cons_append]

theorem Tree.mapTokensAll_leaves (f : Token → Token) (ts : List Token) :
    Tree.mapTokensAll f (ts.map .leaf) = (ts.map f).map .leaf := by
  induction ts with
  | nil => rfl
  | cons t ts ih => rw [List.map_cons, mapTokensAll, mapTokens, ih, List.map_cons, List.map_cons]

def Stuck.mapTokens (f : Token → Token) (s : Stuck) : Stuck := ⟨s.expected, s.rest.map f⟩

namespace Parser

variable {f : Token → Token} {α β : Type} {g : α → α} {g' : β → β}

/-- An outcome with its tokens mapped by `f` and its value by `g`. -/
def mapped (f : Token → Token) (g : α → α) :
    Except Stuck (α × List Token) → Except Stuck (α × List Token)
  | .ok (a, ts) => .ok (g a, ts.map f)
  | .error stuck => .error (stuck.mapTokens f)

@[simp] theorem mapped_ok (f : Token → Token) (g : α → α) (p : α × List Token) :
    mapped f g (.ok p) = .ok (g p.1, p.2.map f) := rfl

@[simp] theorem mapped_error (f : Token → Token) (g : α → α) (stuck : Stuck) :
    mapped f g (.error stuck) = .error (stuck.mapTokens f) := rfl

/-- Mapping the tokens first gives the mapped outcome. -/
def Natural (f : Token → Token) (g : α → α) (p : Parser α) : Prop :=
  ∀ ts, p (ts.map f) = mapped f g (p ts)

/-- Readers in turn are natural if each of them is. -/
theorem mapped_bind {x : Except Stuck (α × List Token)}
    {k k' : α × List Token → Except Stuck (β × List Token)}
    (h : ∀ a ts, k' (g a, ts.map f) = mapped f g' (k (a, ts))) :
    (mapped f g x >>= k') = mapped f g' (x >>= k) := by
  cases x with
  | error stuck => rfl
  | ok p => exact h p.1 p.2

section Expressions

variable (hf : ∀ t, (f t).kind = t.kind)
include hf

theorem startsWith_map (kind : Kind) (ts : List Token) :
    startsWith kind (ts.map f) = startsWith kind ts := by
  cases ts with
  | nil => rfl
  | cons t ts => rw [List.map_cons, startsWith, startsWith, hf]

/-- A token is taken or refused by its kind alone. -/
theorem token_natural (expected : Expected) (p : Kind → Bool) :
    Natural f (Tree.mapTokens f) (token expected p) := by
  intro ts
  cases ts with
  | nil => rfl
  | cons t ts =>
    rw [List.map_cons, token, token, hf]
    split <;> rfl

theorem exactly_natural (kind : Kind) : Natural f (Tree.mapTokens f) (exactly kind) :=
  token_natural hf _ _

theorem identifier_natural : Natural f (Tree.mapTokens f) identifier := token_natural hf _ _

omit hf in
theorem wrap_natural {p : Parser Tree} (hp : Natural f (Tree.mapTokens f) p) (rule : Rule) :
    Natural f (Tree.mapTokens f) (wrap rule p) := by
  intro ts
  rw [wrap, wrap, hp ts]
  exact mapped_bind fun _ _ => rfl

/-- The separators are told by their kinds. -/
theorem separated_natural {item : Parser Tree} (hitem : Natural f (Tree.mapTokens f) item)
    (isSeparator : Kind → Bool) (bound : Nat) :
    Natural f (Tree.mapTokensAll f) (separated isSeparator item bound) := by
  induction bound with
  | zero => exact fun _ => rfl
  | succ bound ih =>
    intro ts
    cases ts with
    | nil => rfl
    | cons t ts =>
      rw [List.map_cons, separated, separated, hf]
      split
      · rw [hitem ts]
        refine mapped_bind fun next ts => ?_
        dsimp only
        rw [ih ts]
        exact mapped_bind fun _ _ => rfl
      · rfl

theorem sequence_natural {item : Parser Tree} (hitem : Natural f (Tree.mapTokens f) item)
    (rule : Rule) (isSeparator : Kind → Bool) (bound : Nat) :
    Natural f (Tree.mapTokens f) (Parser.sequence rule isSeparator item bound) := by
  intro ts
  rw [Parser.sequence, Parser.sequence, hitem ts]
  refine mapped_bind fun first ts => ?_
  dsimp only
  rw [separated_natural hf hitem isSeparator bound ts]
  exact mapped_bind fun _ _ => rfl

theorem tower_natural {operand : Parser Tree} (hoperand : Natural f (Tree.mapTokens f) operand)
    (bound : Nat) (ls : List Level) : Natural f (Tree.mapTokens f) (tower bound operand ls) := by
  induction ls with
  | nil => exact hoperand
  | cons level ls ih => exact sequence_natural hf ih _ _ _

theorem expressionOver_natural {operand : Parser Tree}
    (hoperand : Natural f (Tree.mapTokens f) operand) (bound : Nat) :
    Natural f (Tree.mapTokens f) (expressionOver bound operand) :=
  wrap_natural (tower_natural hf hoperand bound levels) _

theorem parenthesized_natural {expression : Parser Tree}
    (hexpression : Natural f (Tree.mapTokens f) expression) :
    Natural f (fun (a, b, c) => (a.mapTokens f, b.mapTokens f, c.mapTokens f))
      (parenthesized expression) := by
  intro ts
  rw [parenthesized, parenthesized, exactly_natural hf _ ts]
  refine mapped_bind fun opening ts => ?_
  dsimp only
  rw [hexpression ts]
  refine mapped_bind fun inner ts => ?_
  dsimp only
  rw [exactly_natural hf _ ts]
  exact mapped_bind fun _ _ => rfl

theorem call_natural {expression : Parser Tree}
    (hexpression : Natural f (Tree.mapTokens f) expression) (bound : Nat) :
    Natural f (Tree.mapTokens f) (call bound expression) := by
  intro ts
  rw [call, call, identifier_natural hf ts]
  refine mapped_bind fun function ts => ?_
  dsimp only
  rw [exactly_natural hf _ ts]
  refine mapped_bind fun opening ts => ?_
  dsimp only
  rw [startsWith_map hf]
  split
  · rw [exactly_natural hf _ ts]
    exact mapped_bind fun _ _ => rfl
  · rw [sequence_natural hf hexpression _ _ _ ts]
    refine mapped_bind fun arguments ts => ?_
    dsimp only
    rw [exactly_natural hf _ ts]
    exact mapped_bind fun _ _ => rfl

theorem primary_natural {expression : Parser Tree}
    (hexpression : Natural f (Tree.mapTokens f) expression) (bound : Nat) :
    Natural f (Tree.mapTokens f) (primary bound expression) := by
  intro ts
  cases ts with
  | nil => rfl
  | cons t ts =>
    rw [List.map_cons, primary, primary, hf, startsWith_map hf]
    split
    · rfl
    · split
      · split
        · exact wrap_natural (call_natural hf hexpression bound) .primary (t :: ts)
        · rfl
      · split
        · rw [← List.map_cons, parenthesized_natural hf hexpression (t :: ts)]
          exact mapped_bind fun _ _ => rfl
        · rfl

/-- Signs and primaries are told by their kinds. -/
theorem unary_natural (bound : Nat) : Natural f (Tree.mapTokens f) (unary bound) := by
  induction bound with
  | zero => exact fun _ => rfl
  | succ bound ih =>
    intro ts
    cases ts with
    | nil => rfl
    | cons t ts =>
      rw [List.map_cons, unary, unary, hf]
      split
      · rw [ih ts]
        exact mapped_bind fun _ _ => rfl
      · have hprimary := primary_natural hf (expressionOver_natural hf ih bound) bound
        exact wrap_natural hprimary .unary (t :: ts)

theorem expression_natural (bound : Nat) : Natural f (Tree.mapTokens f) (expression bound) :=
  expressionOver_natural hf (unary_natural hf bound) bound

end Expressions

/-- A reading with its tokens mapped by `f` and its value by `g`. -/
def mappedReading (f : Token → Token) (g : α → α) (r : Reading α) : Reading α :=
  ⟨r.mistakes.map (Stuck.mapTokens f), mapped f g r.result⟩

def NaturalReading (f : Token → Token) (g : α → α) (p : List Token → Reading α) : Prop :=
  ∀ ts, p (ts.map f) = mappedReading f g (p ts)

theorem Natural.reading {p : Parser α} (h : Natural f g p) (ts : List Token) :
    Reading.of (p (ts.map f)) = mappedReading f g (Reading.of (p ts)) := by
  rw [h ts]
  rfl

/-- As `mapped_bind`, with the mistakes on the way. -/
theorem mapped_andThen {r : Reading α} {k k' : α → List Token → Reading β}
    (h : ∀ a ts, k' (g a) (ts.map f) = mappedReading f g' (k a ts)) :
    (mappedReading f g r).andThen k' = mappedReading f g' (r.andThen k) := by
  obtain ⟨mistakes, result⟩ := r
  cases result with
  | error stuck => rfl
  | ok p =>
    have hk := h p.1 p.2
    simp only [Reading.andThen, mappedReading, mapped_ok] at hk ⊢
    rw [hk, List.map_append]

section Statements

variable (hf : ∀ t, (f t).kind = t.kind)
include hf

theorem skip_map (ts : List Token) : skip (ts.map f) = (skip ts).map f := by
  induction ts with
  | nil => rfl
  | cons t ts ih =>
    rw [List.map_cons, skip, skip, hf]
    split
    all_goals first | rfl | exact ih

/-- Where reading goes on depends on kinds and lengths only. -/
theorem resume_map (start stuck : List Token) :
    resume (start.map f) (stuck.map f) = (resume start stuck).map f := by
  simp only [resume, List.length_map]
  split
  · cases stuck with
    | nil => rfl
    | cons t ts =>
      rw [List.map_cons]
      dsimp only
      rw [hf, skip_map hf]
      split <;> rfl
  · exact skip_map hf stuck

/-- The tokens that are stepped over are counted by lengths, so they are the mapped ones. -/
theorem recovering_natural {statement : List Token → Reading Tree}
    (h : NaturalReading f (Tree.mapTokens f) statement) :
    NaturalReading f (Tree.mapTokens f) (recovering statement) := by
  intro ts
  cases ts with
  | nil => exact h []
  | cons t ts =>
    have hread := h (t :: ts)
    rw [List.map_cons] at hread
    rw [List.map_cons, recovering, recovering]
    dsimp only
    rw [hread]
    cases hresult : (statement (t :: ts)).result with
    | ok p => simp only [mappedReading, hresult, mapped_ok]
    | error stuck =>
      have hempty : (stuck.mapTokens f).rest.isEmpty = stuck.rest.isEmpty := by
        cases stuck with
        | mk expected rest => cases rest <;> rfl
      have hresume := resume_map hf (t :: ts) stuck.rest
      rw [List.map_cons] at hresume
      simp only [mappedReading, hresult, mapped_error, hempty]
      split
      · rw [hresult, mapped_error]
      · simp only [Stuck.mapTokens, hresume, List.length_map, mapped_ok, Tree.mapTokens,
          Tree.mapTokensAll_leaves, ← List.map_take, List.map_append, List.map_cons, List.map_nil]

theorem statements_natural {statement : List Token → Reading Tree}
    (h : NaturalReading f (Tree.mapTokens f) statement) (stops : Kind → Bool) (bound : Nat) :
    NaturalReading f (Tree.mapTokensAll f) (statements statement stops bound) := by
  induction bound with
  | zero => exact fun _ => rfl
  | succ bound ih =>
    intro ts
    cases ts with
    | nil => rfl
    | cons t ts =>
      have hfirst := recovering_natural hf h (t :: ts)
      rw [List.map_cons] at hfirst
      rw [List.map_cons, statements, statements, hf]
      split
      · rfl
      · rw [hfirst]
        refine mapped_andThen fun first ts => ?_
        rw [ih ts]
        exact mapped_andThen fun _ _ => rfl

omit hf in
theorem optional_natural (hf : ∀ t, (f t).kind = t.kind) {p : Parser (List Tree)}
    (hp : Natural f (Tree.mapTokensAll f) p) (kind : Kind) :
    Natural f (Tree.mapTokensAll f) (Parser.optional kind p) := by
  intro ts
  rw [Parser.optional, Parser.optional, startsWith_map hf]
  split
  · exact hp ts
  · rfl

theorem typePart_natural : Natural f (Tree.mapTokensAll f) (fun ts => do
    let (type, ts) ← typeClause ts
    return ([type], ts)) := by
  have htype : Natural f (Tree.mapTokens f) typeClause := by
    intro ts
    rw [typeClause, typeClause, exactly_natural hf _ ts]
    refine mapped_bind fun colon ts => ?_
    dsimp only
    rw [token_natural hf _ _ ts]
    exact mapped_bind fun _ _ => rfl
  intro ts
  dsimp only
  rw [htype ts]
  exact mapped_bind fun _ _ => rfl

theorem initializer_natural {expression : Parser Tree}
    (hexpression : Natural f (Tree.mapTokens f) expression) :
    Natural f (Tree.mapTokensAll f) (initializer expression) := by
  intro ts
  rw [initializer, initializer, exactly_natural hf _ ts]
  refine mapped_bind fun sign ts => ?_
  dsimp only
  rw [hexpression ts]
  exact mapped_bind fun _ _ => rfl

theorem declaration_natural {expression : Parser Tree}
    (hexpression : Natural f (Tree.mapTokens f) expression) :
    Natural f (Tree.mapTokens f) (declaration expression) := by
  intro ts
  rw [declaration, declaration, exactly_natural hf _ ts]
  refine mapped_bind fun word ts => ?_
  dsimp only
  rw [identifier_natural hf ts]
  refine mapped_bind fun name ts => ?_
  dsimp only
  rw [optional_natural hf (typePart_natural hf) _ ts]
  refine mapped_bind fun type ts => ?_
  dsimp only
  rw [optional_natural hf (initializer_natural hf hexpression) _ ts]
  refine mapped_bind fun value ts => ?_
  dsimp only
  rw [exactly_natural hf _ ts]
  refine mapped_bind fun stop ts => ?_
  simp [Tree.mapTokens, Tree.mapTokensAll, Tree.mapTokensAll_append, pure, Except.pure]

theorem assignment_natural {expression : Parser Tree}
    (hexpression : Natural f (Tree.mapTokens f) expression) :
    Natural f (Tree.mapTokens f) (assignment expression) := by
  intro ts
  rw [assignment, assignment, identifier_natural hf ts]
  refine mapped_bind fun target ts => ?_
  dsimp only
  rw [exactly_natural hf _ ts]
  refine mapped_bind fun sign ts => ?_
  dsimp only
  rw [hexpression ts]
  refine mapped_bind fun value ts => ?_
  dsimp only
  rw [exactly_natural hf _ ts]
  exact mapped_bind fun _ _ => rfl

theorem callStatement_natural {expression : Parser Tree}
    (hexpression : Natural f (Tree.mapTokens f) expression) (bound : Nat) :
    Natural f (Tree.mapTokens f) (callStatement bound expression) := by
  intro ts
  rw [callStatement, callStatement, call_natural hf hexpression bound ts]
  refine mapped_bind fun call ts => ?_
  dsimp only
  rw [exactly_natural hf _ ts]
  exact mapped_bind fun _ _ => rfl

theorem block_natural {statement : List Token → Reading Tree}
    (h : NaturalReading f (Tree.mapTokens f) statement) (bound : Nat) :
    NaturalReading f (Tree.mapTokens f) (block bound statement) := by
  intro ts
  rw [block, block, (exactly_natural hf .openCurly).reading ts]
  refine mapped_andThen fun opening ts => ?_
  rw [statements_natural hf h _ bound ts]
  refine mapped_andThen fun body ts => ?_
  rw [(exactly_natural hf .closeCurly).reading ts]
  refine mapped_andThen fun closing ts => ?_
  simp [Reading.done, Reading.of, mappedReading, Tree.mapTokens, Tree.mapTokensAll,
    Tree.mapTokensAll_append]

theorem guarded_natural (word : Keyword) {expression : Parser Tree}
    (hexpression : Natural f (Tree.mapTokens f) expression) {block : List Token → Reading Tree}
    (hblock : NaturalReading f (Tree.mapTokens f) block) :
    NaturalReading f (fun (word, parts) => (word.mapTokens f, Tree.mapTokensAll f parts))
      (guarded word expression block) := by
  intro ts
  rw [guarded, guarded, (exactly_natural hf (.keyword word)).reading ts]
  refine mapped_andThen fun word ts => ?_
  rw [(parenthesized_natural hf hexpression).reading ts]
  refine mapped_andThen fun condition ts => ?_
  dsimp only
  rw [hblock ts]
  exact mapped_andThen fun _ _ => rfl

theorem loop_natural {expression : Parser Tree}
    (hexpression : Natural f (Tree.mapTokens f) expression) {block : List Token → Reading Tree}
    (hblock : NaturalReading f (Tree.mapTokens f) block) :
    NaturalReading f (Tree.mapTokens f) (loop expression block) := by
  intro ts
  rw [loop, loop, guarded_natural hf .while_ hexpression hblock ts]
  exact mapped_andThen fun _ _ => rfl

/-- The word behind `else` decides between a block and another conditional. -/
theorem conditional_natural {expression : Parser Tree}
    (hexpression : Natural f (Tree.mapTokens f) expression) {block : List Token → Reading Tree}
    (hblock : NaturalReading f (Tree.mapTokens f) block) (bound : Nat) :
    NaturalReading f (Tree.mapTokens f) (conditional expression block bound) := by
  induction bound with
  | zero => exact fun _ => rfl
  | succ bound ih =>
    intro ts
    rw [conditional, conditional, guarded_natural hf .if_ hexpression hblock ts]
    refine mapped_andThen fun ⟨word, parts⟩ ts => ?_
    cases ts with
    | nil => rfl
    | cons t ts =>
      rw [List.map_cons]
      dsimp only
      rw [hf, startsWith_map hf]
      split
      · -- the chain goes on, or ends with a block
        have hbody : (if startsWith (.keyword .if_) ts
            then conditional expression block bound (ts.map f)
            else block (ts.map f)) = mappedReading f (Tree.mapTokens f)
              (if startsWith (.keyword .if_) ts then conditional expression block bound ts
                else block ts) := by
          split
          · exact ih ts
          · exact hblock ts
        rw [hbody]
        refine mapped_andThen fun body ts => ?_
        simp [Reading.done, Reading.of, mappedReading, Tree.mapTokens, Tree.mapTokensAll,
          Tree.mapTokensAll_append]
      · rfl

/-- The first kinds announce the same statement. -/
theorem statement_natural (bound : Nat) :
    NaturalReading f (Tree.mapTokens f) (statement bound) := by
  induction bound with
  | zero => exact fun _ => rfl
  | succ bound ih =>
    intro ts
    cases ts with
    | nil => rfl
    | cons t ts =>
      have hexpression := expression_natural hf bound
      have hblock := block_natural hf ih bound
      rw [List.map_cons, statement, statement, hf, startsWith_map hf, ← List.map_cons]
      refine Eq.trans (congrArg (Reading.andThen · _) ?_) (mapped_andThen fun _ _ => rfl)
      split
      · exact (declaration_natural hf hexpression).reading (t :: ts)
      · exact conditional_natural hf hexpression hblock bound (t :: ts)
      · exact loop_natural hf hexpression hblock (t :: ts)
      · exact hblock (t :: ts)
      · split
        · exact (callStatement_natural hf hexpression bound).reading (t :: ts)
        · exact (assignment_natural hf hexpression).reading (t :: ts)
      · rfl

theorem body_map (tokens : List Token) : body (tokens.map f) = (body tokens).map f := by
  have hkinds : (fun t : Token => decide (t.kind ≠ .eof)) ∘ f = fun t => decide (t.kind ≠ .eof) := by
    funext t
    rw [Function.comp_apply, hf]
  rw [body, body, List.takeWhile_map, hkinds]

theorem ending?_map (tokens : List Token) : ending? (tokens.map f) = (ending? tokens).map f := by
  have hkinds : (fun t : Token => decide (t.kind = .eof)) ∘ f = fun t => decide (t.kind = .eof) := by
    funext t
    rw [Function.comp_apply, hf]
  rw [ending?, ending?, List.find?_map, hkinds]

/-- A program with other texts and places at its tokens is read alike. -/
theorem program_natural (bound : Nat) (ending : Option Token) (ts : List Token) :
    program bound (ending.map f) (ts.map f) =
      mappedReading f (Tree.mapTokens f) (program bound ending ts) := by
  rw [program, program, recovering_natural hf (statement_natural hf bound) ts]
  refine mapped_andThen fun first ts => ?_
  rw [statements_natural hf (statement_natural hf bound) _ bound ts]
  refine mapped_andThen fun more ts => ?_
  have hending : Tree.mapTokensAll f (ending.toList.map .leaf) = (ending.map f).toList.map .leaf := by
    cases ending <;> rfl
  simp [Reading.done, Reading.of, mappedReading, Tree.mapTokens, Tree.mapTokensAll_append, hending]

end Statements

end Parser

/-- An error names the kinds that were expected and found, and no text. -/
theorem Stuck.error_map {f : Token → Token} (hf : ∀ t, (f t).kind = t.kind) (s : Stuck)
    (ending ending' : Location) :
    ((s.mapTokens f).error ending').value = (s.error ending).value := by
  obtain ⟨expected, rest⟩ := s
  cases rest with
  | nil => rfl
  | cons t rest =>
    have hkind := hf t
    simp [Stuck.mapTokens, Stuck.error, hkind]

/-- Tokens of the same kinds are parsed alike. -/
theorem parse_map {f : Token → Token} (hf : ∀ t, (f t).kind = t.kind) (tokens : List Token) :
    (parse (tokens.map f)).tree = (parse tokens).tree.map (Tree.mapTokens f) ∧
      (parse (tokens.map f)).errors.map (·.value) = (parse tokens).errors.map (·.value) := by
  have herrors (mistakes : List Stuck) (ending ending' : Location) :
      ((mistakes.map (Stuck.mapTokens f)).map (·.error ending')).map (·.value) =
        (mistakes.map (·.error ending)).map (·.value) := by
    simp [Function.comp_def, Stuck.error_map hf _ ending ending']
  have hbody := Parser.body_map hf tokens
  have hprogram := Parser.program_natural hf ((Parser.body tokens).length + 1)
    (Parser.ending? tokens) (Parser.body tokens)
  simp only [parse, hbody, Parser.ending?_map hf, List.length_map, List.isEmpty_map, hprogram]
  split
  · exact ⟨rfl, rfl⟩
  · cases hresult : (Parser.program ((Parser.body tokens).length + 1) (Parser.ending? tokens)
        (Parser.body tokens)).result with
    | ok p =>
      simp only [Parser.mappedReading, hresult, Parser.mapped_ok]
      exact ⟨rfl, herrors _ _ _⟩
    | error stuck =>
      simp only [Parser.mappedReading, hresult, Parser.mapped_error]
      refine ⟨rfl, ?_⟩
      rw [← herrors _ (Parser.endLocation tokens) (Parser.endLocation (tokens.map f))]
      simp only [List.map_append, List.map_cons, List.map_nil]

end ImpC
