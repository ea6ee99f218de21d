import ImpC.Proofs.Grammar.Shape

/-!
# What readers read

Whatever a reader gives is a tree of the rule that it is for, and the leaves of the tree are the
tokens read. A reader that gets stuck has gone over tokens that neither end a statement nor open or
close a block.
-/
namespace ImpC.Grammar

open ImpC.Parser

variable {skips : List Token → Prop} {α β : Type}

/-- A reading ends well in the sense of `good`, or is stuck in the sense of `bad`. -/
def Outcome (good : α → List Token → Prop) (bad : Stuck → Prop) :
    Except Stuck (α × List Token) → Prop
  | .ok (a, rest) => good a rest
  | .error s => bad s

/-- A sequence ends well if both parts do, and gets stuck where one does. -/
theorem Outcome.bind {good : α → List Token → Prop} {bad bad' : Stuck → Prop}
    {good' : β → List Token → Prop} {x : Except Stuck (α × List Token)}
    {f : α × List Token → Except Stuck (β × List Token)} (hx : Outcome good bad x)
    (hf : ∀ a rest, good a rest → Outcome good' bad' (f (a, rest)))
    (hbad : ∀ s, bad s → bad' s) : Outcome good' bad' (x >>= f) := by
  cases x with
  | error s => exact hbad s hx
  | ok r => exact hf r.1 r.2 hx

theorem Outcome.imp {good good' : α → List Token → Prop} {bad bad' : Stuck → Prop}
    {x : Except Stuck (α × List Token)} (hx : Outcome good bad x)
    (hgood : ∀ a rest, good a rest → good' a rest) (hbad : ∀ s, bad s → bad' s) :
    Outcome good' bad' x := by
  cases x with
  | error s => exact hbad s hx
  | ok r => exact hgood r.1 r.2 hx

/-- Tokens that neither end a statement nor open or close a block. -/
def isPlain : Kind → Bool
  | .semicolon | .openCurly | .closeCurly => false
  | _ => true

/-- Reading `ts` got stuck at `s` after plain tokens. -/
def StuckAfter (ts : List Token) (s : Stuck) : Prop :=
  ∃ read, ts = read ++ s.rest ∧ ∀ t ∈ read, isPlain t.kind = true

namespace StuckAfter

variable {ts : List Token} {s : Stuck}

theorem here (h : s.rest = ts) : StuckAfter ts s := ⟨[], by simp [h], by simp⟩

theorem cons {t : Token} (ht : isPlain t.kind = true) (h : StuckAfter ts s) :
    StuckAfter (t :: ts) s := by
  obtain ⟨read, rfl, hread⟩ := h
  exact ⟨t :: read, rfl, by simpa [ht] using hread⟩

theorem append {pre : List Token} (hpre : ∀ t ∈ pre, isPlain t.kind = true)
    (h : StuckAfter ts s) : StuckAfter (pre ++ ts) s := by
  obtain ⟨read, rfl, hread⟩ := h
  refine ⟨pre ++ read, by simp, ?_⟩
  intro t ht
  exact (List.mem_append.mp ht).elim (hpre t) (hread t)

end StuckAfter

/-- The reader `p` reads trees of the rule `r`. -/
def Reads (skips : List Token → Prop) (r : Rule) (p : Parser Tree) : Prop :=
  ∀ ts, Outcome (fun t rest => IsA skips r t ∧ ts = t.leaves ++ rest) (StuckAfter ts) (p ts)

theorem token_outcome (expected : Expected) (p : Kind → Bool) (ts : List Token) :
    Outcome (fun t rest => ∃ u, p u.kind = true ∧ t = .leaf u ∧ ts = u :: rest)
      (fun s => s.rest = ts) (token expected p ts) := by
  cases ts with
  | nil => exact rfl
  | cons t ts =>
    rw [token]
    split
    · exact ⟨t, ‹_›, rfl, rfl⟩
    · exact rfl

theorem exactly_outcome (kind : Kind) (ts : List Token) :
    Outcome (fun t rest => ∃ u, u.kind = kind ∧ t = .leaf u ∧ ts = u :: rest)
      (fun s => s.rest = ts) (exactly kind ts) := by
  simpa only [exactly, decide_eq_true_eq] using token_outcome (.token kind) (· = kind) ts

theorem identifier_outcome (ts : List Token) :
    Outcome (fun t rest => ∃ u, u.kind = .ident ∧ t = .leaf u ∧ ts = u :: rest)
      (fun s => s.rest = ts) (identifier ts) := by
  simpa only [identifier, decide_eq_true_eq] using token_outcome .identifier (· = .ident) ts

/-- The rules all of whose tokens are plain: expressions, their parts, and types. -/
def isPlainRule : Rule → Bool
  | .typeClause | .expression | .or | .and | .equality | .comparison | .additive | .multiplicative
  | .unary | .primary | .call | .arguments => true
  | _ => false

/-- Expressions and types have no semicolon and no brace in them. -/
theorem IsA.leaves_plain {r : Rule} (hr : isPlainRule r = true) {t : Tree} (h : IsA skips r t) :
    ∀ u ∈ t.leaves, isPlain u.kind = true := by
  have hrules : ∀ r, isPlainRule r = true →
      (production r).within isPlain isPlainRule = true := by
    intro r hr
    cases r with
    | program | statement | declaration | assignment | conditional | alternative | loop
    | callStatement | block | error => cases hr
    | _ => rfl
  intro u hu
  exact Derives.leaves_within hrules (fun h => by cases h) h hr u (by simpa [Tree.leavesAll] using hu)

/-- The items behind separators that are plain. -/
theorem separated_outcome {isSeparator : Kind → Bool} {separators : List Kind}
    (hkinds : ∀ k, isSeparator k = true → k ∈ separators ∧ isPlain k = true) {item : Rule}
    (hitem : isPlainRule item = true) {p : Parser Tree} (hp : Reads skips item p) (bound : Nat)
    (ts : List Token) :
    Outcome (fun trees rest => Tail skips separators item trees ∧ ts = Tree.leavesAll trees ++ rest)
      (StuckAfter ts) (separated isSeparator p bound ts) := by
  induction bound generalizing ts with
  | zero => exact ⟨.nil, rfl⟩
  | succ bound ih =>
    cases ts with
    | nil => exact ⟨.nil, rfl⟩
    | cons t ts =>
      rw [separated]
      split
      · obtain ⟨ht, hplain⟩ := hkinds t.kind ‹_›
        refine (hp ts).bind ?_ (fun s h => h.cons hplain)
        rintro next ts₁ ⟨hnext, rfl⟩
        refine (ih ts₁).bind ?_ (fun s h => (h.append (hnext.leaves_plain hitem)).cons hplain)
        rintro more ts₂ ⟨hmore, rfl⟩
        exact ⟨.cons ht hnext hmore, by simp [Tree.leavesAll, Tree.leaves]⟩
      · exact ⟨.nil, rfl⟩

theorem sequence_reads {r item : Rule} {isSeparator : Kind → Bool} {separators : List Kind}
    (hr : r ≠ .statement) (hproduction : production r = .separated item separators)
    (hkinds : ∀ k, isSeparator k = true → k ∈ separators ∧ isPlain k = true)
    (hitem : isPlainRule item = true) {p : Parser Tree} (hp : Reads skips item p)
    (bound : Nat) : Reads skips r (sequence r isSeparator p bound) := by
  intro ts
  refine (hp ts).bind ?_ (fun _ h => h)
  rintro first ts₁ ⟨hfirst, rfl⟩
  refine (separated_outcome hkinds hitem hp bound ts₁).bind ?_
    (fun s h => h.append (hfirst.leaves_plain hitem))
  rintro more ts₂ ⟨hmore, rfl⟩
  exact ⟨(isA_separated hr hproduction).mpr ⟨first, more, hfirst, hmore, rfl⟩,
    by simp [Tree.leaves]⟩

/-- The rule of the loosest of some levels; below the last level stand operands with signs. -/
def ruleOf : List Level → Rule
  | [] => .unary
  | level :: _ => level.rule

/-- Each level is a rule of plain tokens whose operands are of the level after it, and has no
operator of a tighter level. -/
def Stacked : List Level → Prop
  | [] => True
  | level :: tighter =>
    isPlainRule level.rule = true ∧
      production level.rule = .operands (ruleOf tighter) level.operators ∧
      (∀ k, isOneOf level.operators k = true →
        ∀ other ∈ tighter, isOneOf other.operators k = false) ∧
      Stacked tighter

theorem isOneOf_iff {operators : List Operator} {k : Kind} :
    isOneOf operators k = true ↔ k ∈ operators.map .op := by
  cases k <;> simp [isOneOf]

theorem stacked_levels : Stacked levels := by
  have hdisjoint : ∀ (own : List Operator) (others : List Level),
      (∀ o ∈ own, ∀ other ∈ others, o ∉ other.operators) →
      ∀ k, isOneOf own k = true → ∀ other ∈ others, isOneOf other.operators k = false := by
    intro own others h k hk other hother
    obtain ⟨o, ho, rfl⟩ := List.mem_map.mp (isOneOf_iff.mp hk)
    simpa [isOneOf] using h o ho other hother
  refine ⟨rfl, rfl, hdisjoint _ _ (by decide), rfl, rfl, hdisjoint _ _ (by decide), rfl, rfl,
    hdisjoint _ _ (by decide), rfl, rfl, hdisjoint _ _ (by decide), rfl, rfl,
    hdisjoint _ _ (by decide), rfl, rfl, hdisjoint _ _ (by decide), trivial⟩

theorem Stacked.isPlainRule : ∀ {ls : List Level}, Stacked ls → isPlainRule (ruleOf ls) = true
  | [], _ => rfl
  | _ :: _, h => h.1

/-- Each level is a rule of its own, over the next tighter one. -/
theorem tower_reads {operand : Parser Tree} (ho : Reads skips .unary operand) (bound : Nat)
    {ls : List Level} (hls : Stacked ls) : Reads skips (ruleOf ls) (tower bound operand ls) := by
  induction ls with
  | nil => exact ho
  | cons level tighter ih =>
    obtain ⟨hin, hproduction, -, htighter⟩ := hls
    refine sequence_reads ?_ hproduction ?_ htighter.isPlainRule (ih htighter) bound
    · intro h
      rw [h] at hin
      cases hin
    · intro k hk
      have hmem := isOneOf_iff.mp hk
      obtain ⟨o, -, rfl⟩ := List.mem_map.mp hmem
      exact ⟨hmem, rfl⟩

theorem expressionOver_reads {operand : Parser Tree} (ho : Reads skips .unary operand)
    (bound : Nat) : Reads skips .expression (expressionOver bound operand) := by
  intro ts
  refine (tower_reads ho bound stacked_levels ts).bind ?_ (fun _ h => h)
  rintro inner ts₁ ⟨hinner, rfl⟩
  exact ⟨isA_expression.mpr ⟨inner, hinner, rfl⟩, by simp [Tree.leaves, Tree.leavesAll]⟩

/-- The expression between parentheses, which are leaves of the node around it. -/
theorem parenthesized_outcome {p : Parser Tree} (hp : Reads skips .expression p) (ts : List Token) :
    Outcome (fun (opening, inner, closing) rest => ∃ o c, o.kind = .openParen ∧
        IsA skips .expression inner ∧ c.kind = .closeParen ∧ opening = .leaf o ∧
        closing = .leaf c ∧ ts = o :: (inner.leaves ++ c :: rest))
      (StuckAfter ts) (parenthesized p ts) := by
  refine (exactly_outcome .openParen ts).bind ?_ (fun _ h => .here h)
  rintro _ ts₁ ⟨o, ho, rfl, rfl⟩
  have hplain : isPlain o.kind = true := by rw [ho]; rfl
  refine (hp ts₁).bind ?_ (fun _ h => h.cons hplain)
  rintro inner ts₂ ⟨hinner, rfl⟩
  refine (exactly_outcome .closeParen ts₂).bind ?_
    (fun _ h => ((StuckAfter.here h).append (hinner.leaves_plain rfl)).cons hplain)
  rintro _ ts₃ ⟨c, hc, rfl, rfl⟩
  exact ⟨o, c, ho, hinner, hc, rfl, rfl, rfl⟩

theorem arguments_reads {p : Parser Tree} (hp : Reads skips .expression p) (bound : Nat) :
    Reads skips .arguments (sequence .arguments (· = .comma) p bound) := by
  refine sequence_reads (by decide) rfl ?_ rfl hp bound
  intro k hk
  obtain rfl := of_decide_eq_true hk
  exact ⟨by simp, rfl⟩

theorem call_reads {p : Parser Tree} (hp : Reads skips .expression p) (bound : Nat) :
    Reads skips .call (call bound p) := by
  intro ts
  refine (identifier_outcome ts).bind ?_ (fun _ h => .here h)
  rintro _ ts₁ ⟨f, hf, rfl, rfl⟩
  have hplain : isPlain f.kind = true := by rw [hf]; rfl
  refine (exactly_outcome .openParen ts₁).bind ?_ (fun _ h => (StuckAfter.here h).cons hplain)
  rintro _ ts₂ ⟨o, ho, rfl, rfl⟩
  have hplain' : isPlain o.kind = true := by rw [ho]; rfl
  show Outcome _ _ (ite _ _ _)
  split
  · refine (exactly_outcome .closeParen ts₂).bind ?_
      (fun _ h => ((StuckAfter.here h).cons hplain').cons hplain)
    rintro _ ts₃ ⟨c, hc, rfl, rfl⟩
    exact ⟨isA_call.mpr ⟨f, o, c, hf, ho, hc, .inl rfl⟩, by simp [Tree.leaves, Tree.leavesAll]⟩
  · refine (arguments_reads hp bound ts₂).bind ?_ (fun _ h => (h.cons hplain').cons hplain)
    rintro arguments ts₃ ⟨ha, rfl⟩
    refine (exactly_outcome .closeParen ts₃).bind ?_
      (fun _ h => (((StuckAfter.here h).append (ha.leaves_plain rfl)).cons hplain').cons hplain)
    rintro _ ts₄ ⟨c, hc, rfl, rfl⟩
    exact ⟨isA_call.mpr ⟨f, o, c, hf, ho, hc, .inr ⟨arguments, ha, rfl⟩⟩,
      by simp [Tree.leaves, Tree.leavesAll]⟩

/-- The first one or two tokens decide what a primary is. -/
theorem primary_reads {p : Parser Tree} (hp : Reads skips .expression p) (bound : Nat) :
    Reads skips .primary (primary bound p) := by
  intro ts
  cases ts with
  | nil => exact .here rfl
  | cons t ts =>
    rw [primary]
    split
    · exact ⟨isA_primary.mpr (.inl ⟨t, .inl ‹_›, rfl⟩), rfl⟩
    split
    · split
      · refine (call_reads hp bound (t :: ts)).bind ?_ (fun _ h => h)
        rintro call ts₁ ⟨hcall, heq⟩
        exact ⟨isA_primary.mpr (.inr (.inl ⟨call, hcall, rfl⟩)),
          by simpa [Tree.leaves, Tree.leavesAll] using heq⟩
      · exact ⟨isA_primary.mpr (.inl ⟨t, .inr ‹_›, rfl⟩), rfl⟩
    split
    · refine (parenthesized_outcome hp (t :: ts)).bind ?_ (fun _ h => h)
      rintro ⟨opening, inner, closing⟩ ts₁ ⟨o, c, ho, hinner, hc, rfl, rfl, heq⟩
      exact ⟨isA_primary.mpr (.inr (.inr ⟨o, inner, c, ho, hinner, hc, rfl⟩)),
        by simpa [Tree.leaves, Tree.leavesAll] using heq⟩
    · exact .here rfl

theorem isSign_iff {k : Kind} : isSign k = true ↔ k = .op .minus ∨ k = .op .not := by
  simp [isSign]

/-- What is read as an operand is one. -/
theorem unary_reads (bound : Nat) : Reads skips .unary (unary bound) := by
  induction bound with
  | zero => exact fun ts => .here rfl
  | succ bound ih =>
    intro ts
    cases ts with
    | nil => exact .here rfl
    | cons t ts =>
      rw [unary]
      split
      · have ht := isSign_iff.mp ‹_›
        have hplain : isPlain t.kind = true := by rcases ht with ht | ht <;> rw [ht] <;> rfl
        refine (ih ts).bind ?_ (fun _ h => h.cons hplain)
        rintro operand ts₁ ⟨ho, rfl⟩
        exact ⟨isA_unary.mpr (.inl ⟨t, operand, ht, ho, rfl⟩),
          by simp [Tree.leaves, Tree.leavesAll]⟩
      · refine (primary_reads (expressionOver_reads ih bound) bound (t :: ts)).bind ?_
          (fun _ h => h)
        rintro inner ts₁ ⟨hinner, heq⟩
        exact ⟨isA_unary.mpr (.inr ⟨inner, hinner, rfl⟩),
          by simpa [Tree.leaves, Tree.leavesAll] using heq⟩

/-- Whatever is read as an expression is one. -/
theorem expression_reads (bound : Nat) : Reads skips .expression (expression bound) :=
  expressionOver_reads (unary_reads bound) bound

theorem typeClause_reads : Reads skips .typeClause typeClause := by
  intro ts
  refine (exactly_outcome .colon ts).bind ?_ (fun _ h => .here h)
  rintro _ ts₁ ⟨colon, hc, rfl, rfl⟩
  refine (token_outcome .type isTypeName ts₁).bind ?_
    (fun _ h => (StuckAfter.here h).cons (by rw [hc]; rfl))
  rintro _ ts₂ ⟨type, ht, rfl, rfl⟩
  exact ⟨isA_typeClause.mpr ⟨colon, type, hc, ht, rfl⟩, by simp [Tree.leaves, Tree.leavesAll]⟩

theorem typePart_outcome (ts : List Token) :
    Outcome (fun trees rest =>
        ((∃ clause, IsA skips .typeClause clause ∧ trees = [clause]) ∨ trees = []) ∧
          (∀ u ∈ Tree.leavesAll trees, isPlain u.kind = true) ∧ ts = Tree.leavesAll trees ++ rest)
      (StuckAfter ts)
      (Parser.optional .colon (fun ts => do let (type, ts) ← typeClause ts; return ([type], ts)) ts) := by
  rw [Parser.optional]
  split
  · refine (@typeClause_reads skips ts).bind ?_ (fun _ h => h)
    rintro clause ts₁ ⟨hclause, rfl⟩
    exact ⟨.inl ⟨clause, hclause, rfl⟩,
      by simpa [Tree.leavesAll] using hclause.leaves_plain rfl, by simp [Tree.leavesAll]⟩
  · exact ⟨.inr rfl, by simp [Tree.leavesAll], by simp [Tree.leavesAll]⟩

/-- The value of a declaration is there if and only if an equals sign is. -/
theorem valuePart_outcome {p : Parser Tree} (hp : Reads skips .expression p) (ts : List Token) :
    Outcome (fun trees rest => (Initial skips trees ∨ trees = []) ∧
          (∀ u ∈ Tree.leavesAll trees, isPlain u.kind = true) ∧ ts = Tree.leavesAll trees ++ rest)
      (StuckAfter ts) (Parser.optional (.op .assign) (initializer p) ts) := by
  rw [Parser.optional]
  split
  · refine (exactly_outcome (.op .assign) ts).bind ?_ (fun _ h => .here h)
    rintro _ ts₁ ⟨sign, hs, rfl, rfl⟩
    have hplain : isPlain sign.kind = true := by rw [hs]; rfl
    refine (hp ts₁).bind ?_ (fun _ h => h.cons hplain)
    rintro value ts₂ ⟨hvalue, rfl⟩
    refine ⟨.inl ⟨sign, value, hs, hvalue, rfl⟩, ?_, by simp [Tree.leavesAll, Tree.leaves]⟩
    simpa [Tree.leavesAll, Tree.leaves, hplain] using hvalue.leaves_plain rfl
  · exact ⟨.inr rfl, by simp [Tree.leavesAll], by simp [Tree.leavesAll]⟩

/-- Behind its first word, a declaration is read or stuck further on. -/
theorem declaration_outcome {p : Parser Tree} (hp : Reads skips .expression p) {word : Token}
    (hw : word.kind = .keyword .var) (ts : List Token) :
    Outcome (fun t rest => IsA skips .declaration t ∧ word :: ts = t.leaves ++ rest) (StuckAfter ts)
      (declaration p (word :: ts)) := by
  have hword : exactly (.keyword .var) (word :: ts) = .ok (.leaf word, ts) := by
    simp [exactly, token, hw]
  unfold declaration
  rw [hword]
  refine (identifier_outcome ts).bind ?_ (fun _ h => .here h)
  rintro _ ts₂ ⟨name, hn, rfl, rfl⟩
  have hplain : isPlain name.kind = true := by rw [hn]; rfl
  refine (@typePart_outcome skips ts₂).bind ?_ (fun _ h => h.cons hplain)
  rintro type ts₃ ⟨ht, htplain, rfl⟩
  refine (valuePart_outcome hp ts₃).bind ?_ (fun _ h => (h.append htplain).cons hplain)
  rintro value ts₄ ⟨hv, hvplain, rfl⟩
  refine (exactly_outcome .semicolon ts₄).bind ?_
    (fun _ h => (((StuckAfter.here h).append hvplain).append htplain).cons hplain)
  rintro _ ts₅ ⟨stop, hs, rfl, rfl⟩
  exact ⟨isA_declaration.mpr ⟨word, name, type, value, stop, hw, hn, ht, hv, hs, rfl⟩,
    by simp [Tree.leaves, Tree.leavesAll]⟩

theorem declaration_reads {p : Parser Tree} (hp : Reads skips .expression p) :
    Reads skips .declaration (declaration p) := by
  intro ts
  cases ts with
  | nil => exact .here rfl
  | cons word ts =>
    by_cases hw : word.kind = .keyword .var
    · have hplain : isPlain word.kind = true := by rw [hw]; rfl
      exact (declaration_outcome hp hw ts).imp (fun _ _ h => h) (fun _ h => h.cons hplain)
    · have hstuck : declaration p (word :: ts) = .error ⟨.token (.keyword .var), word :: ts⟩ := by
        simp [declaration, exactly, token, hw]
        rfl
      rw [hstuck]
      exact .here rfl

theorem assignment_reads {p : Parser Tree} (hp : Reads skips .expression p) :
    Reads skips .assignment (assignment p) := by
  intro ts
  refine (identifier_outcome ts).bind ?_ (fun _ h => .here h)
  rintro _ ts₁ ⟨target, ht, rfl, rfl⟩
  have hplain : isPlain target.kind = true := by rw [ht]; rfl
  refine (exactly_outcome (.op .assign) ts₁).bind ?_ (fun _ h => (StuckAfter.here h).cons hplain)
  rintro _ ts₂ ⟨sign, hs, rfl, rfl⟩
  have hplain' : isPlain sign.kind = true := by rw [hs]; rfl
  refine (hp ts₂).bind ?_ (fun _ h => (h.cons hplain').cons hplain)
  rintro value ts₃ ⟨hv, rfl⟩
  refine (exactly_outcome .semicolon ts₃).bind ?_
    (fun _ h => (((StuckAfter.here h).append (hv.leaves_plain rfl)).cons hplain').cons hplain)
  rintro _ ts₄ ⟨stop, hp, rfl, rfl⟩
  exact ⟨isA_assignment.mpr ⟨target, sign, value, stop, ht, hs, hv, hp, rfl⟩,
    by simp [Tree.leaves, Tree.leavesAll]⟩

theorem callStatement_reads {p : Parser Tree} (hp : Reads skips .expression p) (bound : Nat) :
    Reads skips .callStatement (callStatement bound p) := by
  intro ts
  refine (call_reads hp bound ts).bind ?_ (fun _ h => h)
  rintro call ts₁ ⟨hcall, rfl⟩
  refine (exactly_outcome .semicolon ts₁).bind ?_
    (fun _ h => (StuckAfter.here h).append (hcall.leaves_plain rfl))
  rintro _ ts₂ ⟨stop, hs, rfl, rfl⟩
  exact ⟨isA_callStatement.mpr ⟨call, stop, hcall, hs, rfl⟩, by simp [Tree.leaves, Tree.leavesAll]⟩

end ImpC.Grammar
