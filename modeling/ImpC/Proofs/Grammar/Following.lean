import ImpC.Proofs.Grammar.Walk

/-!
# Walks and readings

Every rule of the grammar walks as the bounded reading says, wherever the bound is above the number of
tokens ahead. So the walks end, although nothing bounds them.
-/
namespace ImpC.Walk

open ImpC.Parser ImpC.Grammar

section Expressions

variable {tokens : List Token}

/-- One round of a loop over items behind separators. -/
def round (tokens : List Token) (isSeparator : Kind → Bool) (item : Walk Tree)
    (loop : Walk (List Tree)) : Walk (List Tree) := do
  if isSeparator (← peek tokens) then
    let sign ← leaf tokens
    let next ← item
    let more ← loop
    return sign :: next :: more
  else return []

theorem operands_succ (level : Level) (tighter : List Level) (depth : Nat) :
    operands tokens (depth + 1) level tighter = round tokens (isOneOf level.operators)
      (tower tokens depth tighter) (operands tokens depth level tighter) := by
  rw [operands]
  rfl

theorem moreArguments_succ (depth : Nat) : moreArguments tokens (depth + 1) =
    round tokens (· = .comma) (expression tokens depth) (moreArguments tokens depth) := by
  rw [moreArguments]
  simp only [round, decide_eq_true_eq]

/-- A loop of such rounds needs no bound. -/
theorem separated_follows {isSeparator : Kind → Bool} {item : Nat → Walk Tree} {p : Parser Tree}
    (loop : Nat → Walk (List Tree))
    (hloop : ∀ depth, loop (depth + 1) = round tokens isSeparator (item depth) (loop depth))
    (hend : isSeparator .eof = false) {n : Nat}
    (hitem : FollowsBelow tokens n item fun ts => .of (p ts)) (k : Nat) (hk : k ≤ n) :
    FollowsBelow tokens k loop fun ts => .of (separated isSeparator p k ts) := by
  induction k with
  | zero => exact fun w ts _ hlt => absurd hlt (Nat.not_lt_zero _)
  | succ k ih =>
    intro w ts h hlt
    beta_reduce
    refine Follows.deeper ?_
    simp only [hloop, round]
    refine Follows.peek ?_
    cases ts with
    | nil =>
      rw [kindAt_of_nil h, hend]
      exact .pure h []
    | cons t ts =>
      rw [List.length_cons] at hlt
      rw [kindAt_of_cons h, separated]
      by_cases ht : isSeparator t.kind = true
      · refine .branch_pos ht ?_
        rw [if_pos ht]
        refine .leaf h ?_
        refine (hitem w.step ts (of_cons h).2.2 (by omega)).bind_of fun next ts₁ w₁ _ hlands => ?_
        have hlength := hlands.suffix.length_le
        rw [(of_cons h).2.2] at hlength
        refine (ih (by omega) w₁ ts₁ hlands.ahead (by omega)).bind_of fun more ts₂ w₂ _ hlands' => ?_
        exact .pure hlands'.ahead _
      · refine .branch_neg ht ?_
        rw [if_neg ht]
        exact .pure h []

/-- The levels of operators around an operand. -/
theorem tower_follows {operand : Parser Tree} {n : Nat}
    (hoperand : FollowsBelow tokens n (unary tokens) fun ts => .of (operand ts)) (ls : List Level) :
    FollowsBelow tokens n (tower tokens · ls) fun ts => .of (Parser.tower n operand ls ts) := by
  induction ls with
  | nil =>
    intro w ts h hlt
    refine Follows.deeper ?_
    simp only [tower]
    exact hoperand w ts h hlt
  | cons level tighter ih =>
    intro w ts h hlt
    refine Follows.deeper ?_
    simp only [tower]
    refine (ih w ts h hlt).bind_of fun first ts₁ w₁ _ hlands => ?_
    have hlength := hlands.suffix.length_le
    rw [h] at hlength
    have hmore := separated_follows (operands tokens · level tighter) (operands_succ level tighter)
      rfl ih n (Nat.le_refl n) w₁ ts₁ hlands.ahead (by omega)
    exact hmore.bind_of fun more ts₂ w₂ _ hlands' => .pure hlands'.ahead _

/-- The cursor ends where the list that is left begins. -/
theorem expression_follows {operand : Parser Tree} {n : Nat}
    (hoperand : FollowsBelow tokens n (unary tokens) fun ts => .of (operand ts)) :
    FollowsBelow tokens n (expression tokens) fun ts => .of (expressionOver n operand ts) := by
  intro w ts h hlt
  refine Follows.deeper ?_
  simp only [expression]
  exact (tower_follows hoperand levels w ts h hlt).bind_of fun inner ts₁ w₁ _ hlands =>
    .pure hlands.ahead _

variable {p : Parser Tree} {n : Nat}

theorem parenthesized_follows
    (hp : FollowsBelow tokens n (expression tokens) fun ts => .of (p ts)) :
    FollowsBelow tokens (n + 1) (parenthesized tokens) fun ts => .of (Parser.parenthesized p ts) := by
  intro w ts h hlt
  refine Follows.deeper ?_
  simp only [parenthesized]
  refine Follows.expect_bind_of rfl h fun opening ts₁ w₁ hts _ h₁ => ?_
  rw [hts, List.length_cons] at hlt
  refine (hp w₁ ts₁ h₁ (by omega)).bind_of fun inner ts₂ w₂ _ hlands => ?_
  refine Follows.expect_bind_of rfl hlands.ahead fun closing ts₃ w₃ _ _ h₃ => ?_
  exact .pure h₃ _

theorem arguments_follows
    (hp : FollowsBelow tokens n (expression tokens) fun ts => .of (p ts)) :
    FollowsBelow tokens n (arguments tokens) fun ts =>
      .of (sequence .arguments (· = .comma) p n ts) := by
  intro w ts h hlt
  refine Follows.deeper ?_
  simp only [arguments]
  refine (hp w ts h hlt).bind_of fun first ts₁ w₁ _ hlands => ?_
  have hlength := hlands.suffix.length_le
  rw [h] at hlength
  have hmore := separated_follows (moreArguments tokens) moreArguments_succ rfl hp n (Nat.le_refl n)
    w₁ ts₁ hlands.ahead (by omega)
  exact hmore.bind_of fun more ts₂ w₂ _ hlands' => .pure hlands'.ahead _

/-- Both look one token ahead to see whether there are arguments. -/
theorem call_follows (hp : FollowsBelow tokens n (expression tokens) fun ts => .of (p ts)) :
    FollowsBelow tokens (n + 1) (call tokens) fun ts => .of (Parser.call n p ts) := by
  intro w ts h hlt
  refine Follows.deeper ?_
  simp only [call]
  refine Follows.expect_bind_of rfl h fun function ts₁ w₁ hts _ h₁ => ?_
  refine Follows.expect_bind_of rfl h₁ fun opening ts₂ w₂ hts₁ _ h₂ => ?_
  rw [hts, hts₁, List.length_cons, List.length_cons] at hlt
  refine Follows.peek ?_
  have hclose := startsWith_iff h₂ .closeParen (by decide)
  show Follows tokens w₂ _ (.of (if startsWith .closeParen ts₂ then _ else _))
  by_cases hkind : kindAt tokens w₂.cursor = .closeParen
  · refine .branch_pos hkind ?_
    rw [if_pos (hclose.mpr hkind)]
    exact Follows.expect_bind_of rfl h₂ fun closing ts₃ w₃ _ _ h₃ => .pure h₃ _
  · refine .branch_neg hkind ?_
    rw [if_neg (mt hclose.mp hkind)]
    refine (arguments_follows hp w₂ ts₂ h₂ (by omega)).bind_of fun arguments ts₃ w₃ _ hlands => ?_
    exact Follows.expect_bind_of rfl hlands.ahead fun closing ts₄ w₄ _ _ h₄ => .pure h₄ _

theorem primary_follows (hp : FollowsBelow tokens n (expression tokens) fun ts => .of (p ts)) :
    FollowsBelow tokens (n + 1) (primary tokens) fun ts => .of (Parser.primary n p ts) := by
  intro w ts h hlt
  refine Follows.deeper ?_
  simp only [primary]
  refine Follows.peek ?_
  cases ts with
  | nil =>
    rw [kindAt_of_nil h]
    exact .fail h .expression
  | cons t ts =>
    rw [kindAt_of_cons h]
    rw [Parser.primary]
    by_cases hliteral : isLiteral t.kind = true
    · refine .branch_pos hliteral ?_
      rw [if_pos hliteral]
      exact .leaf h (.pure (of_cons h).2.2 _)
    refine .branch_neg hliteral ?_
    rw [if_neg hliteral]
    by_cases hident : t.kind = .ident
    · refine .branch_pos hident ?_
      rw [if_pos hident]
      refine Follows.peekSecond ?_
      have hopen := startsWith_iff (of_cons h).2.2 .openParen (by decide)
      by_cases hkind : kindAt tokens (w.cursor + 1) = .openParen
      · refine .branch_pos hkind ?_
        rw [if_pos (hopen.mpr hkind)]
        exact (call_follows hp w _ h hlt).bind_of fun call ts₁ w₁ _ hlands => .pure hlands.ahead _
      · refine .branch_neg hkind ?_
        rw [if_neg (mt hopen.mp hkind)]
        exact .leaf h (.pure (of_cons h).2.2 _)
    refine .branch_neg hident ?_
    rw [if_neg hident]
    by_cases hparen : t.kind = .openParen
    · refine .branch_pos hparen ?_
      rw [if_pos hparen]
      exact (parenthesized_follows hp w _ h hlt).bind_of fun parts ts₁ w₁ _ hlands =>
        .pure hlands.ahead _
    · refine .branch_neg hparen ?_
      rw [if_neg hparen]
      exact .fail h .expression

theorem unary_follows (n : Nat) :
    FollowsBelow tokens n (unary tokens) fun ts => .of (Parser.unary n ts) := by
  induction n with
  | zero => exact fun w ts _ hlt => absurd hlt (Nat.not_lt_zero _)
  | succ n ih =>
    intro w ts h hlt
    refine Follows.deeper ?_
    simp only [unary]
    refine Follows.peek ?_
    have hprimary := primary_follows (expression_follows ih) w ts h hlt
    cases ts with
    | nil =>
      rw [kindAt_of_nil h]
      show Follows tokens w _
        (.of (wrap .unary (Parser.primary n (expressionOver n (Parser.unary n))) []))
      exact hprimary.bind_of fun inner ts₁ w₁ _ hlands => .pure hlands.ahead _
    | cons t ts =>
      rw [List.length_cons] at hlt
      rw [kindAt_of_cons h]
      rw [Parser.unary]
      by_cases hsign : isSign t.kind = true
      · refine .branch_pos hsign ?_
        rw [if_pos hsign]
        refine .leaf h ?_
        exact (ih w.step ts (of_cons h).2.2 (by omega)).bind_of fun operand ts₁ w₁ _ hlands =>
          .pure hlands.ahead _
      · refine .branch_neg hsign ?_
        rw [if_neg hsign]
        exact hprimary.bind_of fun inner ts₁ w₁ _ hlands => .pure hlands.ahead _

end Expressions

section Statements

variable {tokens : List Token} {p : Parser Tree} {n : Nat}

theorem optional_follows {kind : Kind} (hkind : kind ≠ .eof) {m : Nat → Walk (List Tree)}
    {q : Parser (List Tree)} {w : Walker} {ts : List Token} (h : ahead tokens w = ts)
    (hq : Follows tokens w m (.of (q ts))) :
    Follows tokens w (fun depth => optional tokens kind (m depth))
      (.of (Parser.optional kind q ts)) := by
  have hstarts := startsWith_iff h kind hkind
  rw [Parser.optional]
  refine Follows.peek ?_
  by_cases hk : kindAt tokens w.cursor = kind
  · refine .branch_pos hk ?_
    rw [if_pos (hstarts.mpr hk)]
    exact hq
  · refine .branch_neg hk ?_
    rw [if_neg (mt hstarts.mp hk)]
    exact .pure h []

theorem typeClause_follows {w : Walker} {ts : List Token} (h : ahead tokens w = ts) :
    Follows tokens w (fun _ => typeClause tokens) (.of (Parser.typeClause ts)) :=
  Follows.expect_bind_of rfl h fun _ _ _ _ _ h₁ =>
    Follows.expect_bind_of rfl h₁ fun _ _ _ _ _ h₂ => .pure h₂ _

theorem declaration_follows
    (hp : FollowsBelow tokens n (expression tokens) fun ts => .of (p ts)) :
    FollowsBelow tokens (n + 1) (declaration tokens) fun ts => .of (Parser.declaration p ts) := by
  intro w ts h hlt
  refine Follows.expect_bind_of rfl h fun word ts₁ w₁ hts _ h₁ => ?_
  refine Follows.expect_bind_of rfl h₁ fun name ts₂ w₂ hts₁ _ h₂ => ?_
  rw [hts, hts₁, List.length_cons, List.length_cons] at hlt
  refine Follows.bind_of (optional_follows (by decide) h₂ ?_) fun type ts₃ w₃ _ hlands => ?_
  · exact (typeClause_follows h₂).bind_of fun type ts₃ w₃ _ hlands => .pure hlands.ahead _
  have hlength := hlands.suffix.length_le
  rw [h₂] at hlength
  refine Follows.bind_of (optional_follows (by decide) hlands.ahead ?_) fun value ts₄ w₄ _ hlands' => ?_
  · refine Follows.expect_bind_of rfl hlands.ahead fun sign ts₄ w₄ hts₃ _ h₄ => ?_
    rw [hts₃, List.length_cons] at hlength
    exact (hp w₄ ts₄ h₄ (by omega)).bind_of fun value ts₅ w₅ _ hlands' => .pure hlands'.ahead _
  exact Follows.expect_bind_of rfl hlands'.ahead fun stop ts₅ w₅ _ _ h₅ => .pure h₅ _

theorem assignment_follows
    (hp : FollowsBelow tokens n (expression tokens) fun ts => .of (p ts)) :
    FollowsBelow tokens (n + 1) (assignment tokens) fun ts => .of (Parser.assignment p ts) := by
  intro w ts h hlt
  refine Follows.expect_bind_of rfl h fun target ts₁ w₁ hts _ h₁ => ?_
  refine Follows.expect_bind_of rfl h₁ fun sign ts₂ w₂ hts₁ _ h₂ => ?_
  rw [hts, hts₁, List.length_cons, List.length_cons] at hlt
  refine (hp w₂ ts₂ h₂ (by omega)).bind_of fun value ts₃ w₃ _ hlands => ?_
  exact Follows.expect_bind_of rfl hlands.ahead fun stop ts₄ w₄ _ _ h₄ => .pure h₄ _

theorem callStatement_follows
    (hp : FollowsBelow tokens n (expression tokens) fun ts => .of (p ts)) :
    FollowsBelow tokens (n + 1) (callStatement tokens) fun ts =>
      .of (Parser.callStatement n p ts) := by
  intro w ts h hlt
  refine (call_follows hp w ts h hlt).bind_of fun call ts₁ w₁ _ hlands => ?_
  exact Follows.expect_bind_of rfl hlands.ahead fun stop ts₂ w₂ _ _ h₂ => .pure h₂ _

/-- Skipping stops at the same token, or at the end. -/
theorem skip_follows {w : Walker} {ts : List Token} (h : ahead tokens w = ts) :
    Follows tokens w (skip tokens) (.done () (Parser.skip ts)) := by
  induction ts generalizing w with
  | nil =>
    refine Follows.deeper ?_
    simp only [skip]
    refine Follows.peek ?_
    rw [kindAt_of_nil h]
    exact .pure h ()
  | cons t ts ih =>
    obtain ⟨-, hkind, hnext⟩ := of_cons h
    refine Follows.deeper ?_
    simp only [skip]
    refine Follows.peek ?_
    rw [kindAt_of_cons h, Parser.skip]
    generalize t.kind = kind at hkind
    cases kind with
    | eof => exact absurd rfl hkind
    | closeCurly => exact .pure h ()
    | semicolon => exact .next h (.pure hnext ())
    | keyword word =>
      cases word with
      | var | if_ | while_ => exact .pure h ()
      | _ => exact .next h (ih hnext)
    | _ => exact .next h (ih hnext)

/-- Where to go on after a statement from `start` on got stuck. -/
theorem synchronize_follows {start w : Walker} {ts stuck : List Token} {ms : List Stuck}
    (hstart : ahead tokens start = ts) (h : Lands tokens start stuck ms w) (hne : stuck ≠ []) :
    Follows tokens w (synchronize tokens · start.cursor) (.done () (resume ts stuck)) := by
  have hcursor := h.cursor
  rw [hstart] at hcursor
  simp only [synchronize]
  refine Follows.get ?_
  unfold resume
  by_cases hsame : w.cursor = start.cursor
  · obtain ⟨t, rest, rfl⟩ := List.exists_cons_of_ne_nil hne
    have hnext := (of_cons h.ahead).2.2
    refine .branch_pos hsame ?_
    rw [if_pos (by omega)]
    refine Follows.next h.ahead ?_
    dsimp only
    by_cases hlast : t.kind = .semicolon ∨ t.kind = .closeCurly
    · refine .branch_pos hlast ?_
      rw [if_pos hlast]
      exact .pure hnext ()
    · refine .branch_neg hlast ?_
      rw [if_neg hlast]
      exact skip_follows hnext
  · refine .branch_neg hsame ?_
    rw [if_neg (by omega)]
    exact skip_follows h.ahead

/-- The tokens between two places of the cursor are those between the two lists. -/
theorem skipped_follows {start w : Walker} {t : Token} {ts rest : List Token} {ms : List Stuck}
    (hstart : ahead tokens start = t :: ts) (h : Lands tokens start rest ms w) (hrest : rest <:+ ts) :
    Follows tokens w (fun _ => skipped tokens start.cursor)
      (.done (.node .error (.leaf t) ((ts.take (ts.length - rest.length)).map .leaf)) rest) := by
  have hpassed : (tokens.drop start.cursor).take (w.cursor - start.cursor) =
      t :: ts.take (ts.length - rest.length) := by
    apply List.append_cancel_right
    rw [h.passed, hstart, List.cons_append, take_append_of_suffix hrest]
  simp only [skipped]
  refine Follows.get ?_
  rw [hpassed]
  exact .pure h.ahead _

theorem Settles.recovering {w w₁ w' : Walker} {x y : Except Failure Tree}
    (h : Settles (statement tokens) w x w₁)
    (hresuming : Settles (resuming tokens · w.cursor x) w₁ y w') :
    Settles (recovering tokens) w y w' := by
  refine .deeper ?_
  simp only [Walk.recovering]
  exact h.attempt.bind_ok hresuming

/-- A statement that does not fail, or fails for good, is not stepped over. -/
theorem outcome?_resuming {x : Except Failure Tree} (h : ∀ stuck, x ≠ .error (.recoverable stuck))
    (depth start : Nat) (w : Walker) : outcome? (resuming tokens depth start x) w = some (x, w) := by
  cases x with
  | ok t => rfl
  | error e =>
    cases e with
    | recoverable stuck => exact absurd rfl (h stuck)
    | fatal stuck => rfl
    | empty => rfl

/-- A reading that got stuck at the end cannot be stepped over. -/
theorem answer_ne_recoverable {r : Reading Tree} (h : ∀ s, r.result = .error s → s.rest = [])
    (stuck : Stuck) : r.answer ≠ .error (.recoverable stuck) := by
  rw [Reading.answer]
  cases hx : r.result with
  | ok y => simp
  | error s => simp [Failure.of, h s hx]

/-- A failure is stepped over by both if it is not at the end. -/
theorem recovering_follows {q : List Token → Reading Tree}
    (hq : FollowsBelow tokens n (statement tokens) q) (hreads : ReadsOn (fun _ => True) .statement q) :
    FollowsBelow tokens n (recovering tokens) (Parser.recovering q) := by
  intro w ts h hlt
  obtain ⟨w₁, hrun, hlands⟩ := hq w ts h hlt
  have hsuffix : ∀ s, (q ts).result = .error s → s.rest <:+ ts := by
    intro s hs
    have hread := hreads ts
    rw [ReadingOutcome, hs] at hread
    exact hread
  -- if there is nothing to step over, the walk is the one of the statement
  have hpass (hend : ∀ s, (q ts).result = .error s → s.rest = []) :
      Follows tokens w (recovering tokens) (q ts) :=
    ⟨w₁, hrun.recovering (.of fun depth =>
      outcome?_resuming (answer_ne_recoverable hend) depth w.cursor w₁), hlands⟩
  cases ts with
  | nil => exact hpass fun s hs => List.suffix_nil.mp (hsuffix s hs)
  | cons t ts =>
    rw [Parser.recovering]
    cases hx : (q (t :: ts)).result with
    | ok y =>
      refine hpass fun s hs => ?_
      rw [hx] at hs
      cases hs
    | error s =>
      dsimp only
      by_cases hrest : s.rest.isEmpty = true
      · rw [if_pos hrest]
        refine hpass fun s' hs => ?_
        rw [hx] at hs
        cases hs
        exact List.isEmpty_iff.mp hrest
      · rw [if_neg hrest]
        have hne : s.rest ≠ [] := by simpa using hrest
        rw [Reading.answer, hx] at hrun
        simp only [Failure.of, if_neg hrest] at hrun
        rw [left_of_error hx] at hlands
        have hlands' : Lands tokens w s.rest ((q (t :: ts)).mistakes ++ [s])
            ⟨w₁.cursor, w₁.mistakes ++ [s]⟩ :=
          ⟨hlands.ahead, hlands.suffix, hlands.cursor, by rw [hlands.mistakes, List.append_assoc]⟩
        -- the mistake is noted, tokens are skipped, and all of them become one node
        obtain ⟨w₂, hrun₂, hlands₂⟩ := (synchronize_follows h hlands' hne).settles
        have hthere := hlands'.trans hlands₂
        obtain ⟨w₃, hrun₃, hlands₃⟩ :=
          (skipped_follows h hthere (resume_suffix (hsuffix s hx))).settles
        have hall := hthere.trans hlands₃
        rw [List.append_nil, List.append_nil] at hall
        exact ⟨w₃, hrun.recovering (hrun₂.bind_ok hrun₃), hall⟩

theorem statements_follows {q : List Token → Reading Tree}
    (hq : FollowsBelow tokens n (recovering tokens) (Parser.recovering q))
    (hreads : ReadsOn (fun _ => True) .statement q) (stops : Kind → Bool) (k : Nat) (hk : k ≤ n) :
    FollowsBelow tokens k (statements tokens · stops) (Parser.statements q stops k) := by
  induction k with
  | zero => exact fun w ts _ hlt => absurd hlt (Nat.not_lt_zero _)
  | succ k ih =>
    intro w ts h hlt
    refine Follows.deeper ?_
    simp only [statements]
    refine Follows.peek ?_
    cases ts with
    | nil =>
      rw [kindAt_of_nil h]
      exact .pure h []
    | cons t ts =>
      obtain ⟨-, hkind, -⟩ := of_cons h
      rw [kindAt_of_cons h, Parser.statements]
      by_cases hstop : stops t.kind = true
      · refine .branch_pos (.inr hstop) ?_
        rw [if_pos hstop]
        exact .pure h []
      · refine .branch_neg (not_or.mpr ⟨hkind, hstop⟩) ?_
        rw [if_neg hstop]
        refine (hq w _ h (by omega)).bind fun first ts₁ w₁ hfirst hlands => ?_
        have hlength := (recovering_left hreads t ts).length_le
        rw [left_of_ok hfirst] at hlength
        rw [List.length_cons] at hlt
        refine (ih (by omega) w₁ ts₁ hlands.ahead (by omega)).bind fun more ts₂ w₂ _ hlands' => ?_
        exact .pure hlands'.ahead _

theorem block_follows {q : List Token → Reading Tree}
    (hq : FollowsBelow tokens n (recovering tokens) (Parser.recovering q))
    (hreads : ReadsOn (fun _ => True) .statement q) :
    FollowsBelow tokens (n + 1) (block tokens) (Parser.block n q) := by
  intro w ts h hlt
  refine Follows.deeper ?_
  simp only [block]
  refine Follows.expect_bind rfl h fun opening ts₁ w₁ hts _ h₁ => ?_
  rw [hts, List.length_cons] at hlt
  refine (statements_follows hq hreads _ n (Nat.le_refl n) w₁ ts₁ h₁ (by omega)).bind
    fun body ts₂ w₂ _ hlands => ?_
  exact Follows.expect_bind rfl hlands.ahead fun closing ts₃ w₃ _ _ h₃ => .pure h₃ _

section Blocks

variable {b : List Token → Reading Tree}
  (hp : FollowsBelow tokens n (expression tokens) fun ts => .of (p ts))
  (hb : FollowsBelow tokens (n + 1) (block tokens) b)

include hp hb

theorem guarded_follows (word : Keyword) :
    FollowsBelow tokens (n + 1) (guarded tokens · word) (Parser.guarded word p b) := by
  intro w ts h hlt
  refine Follows.deeper ?_
  simp only [guarded]
  refine Follows.expect_bind rfl h fun word ts₁ w₁ hts _ h₁ => ?_
  rw [hts, List.length_cons] at hlt
  refine (parenthesized_follows hp w₁ ts₁ h₁ (by omega)).bind fun parts ts₂ w₂ _ hlands => ?_
  have hlength := hlands.suffix.length_le
  rw [h₁] at hlength
  refine (hb w₂ ts₂ hlands.ahead (by omega)).bind fun body ts₃ w₃ _ hlands' => ?_
  exact .pure hlands'.ahead _

theorem loop_follows : FollowsBelow tokens (n + 1) (loop tokens) (Parser.loop p b) := by
  intro w ts h hlt
  refine Follows.deeper ?_
  simp only [loop]
  exact (guarded_follows hp hb .while_ w ts h hlt).bind fun parts ts₁ w₁ _ hlands =>
    .pure hlands.ahead _

/-- What behind `else` is read, with at most `k` conditionals inside one another. -/
def alternativeOver (p : Parser Tree) (b : List Token → Reading Tree) (k : Nat) (ts : List Token) :
    Reading Tree :=
  (Reading.of (Parser.exactly (.keyword .else_) ts)).andThen fun word ts =>
  (if startsWith (.keyword .if_) ts then Parser.conditional p b k ts else b ts).andThen fun body ts =>
  .done (.node .alternative word [body]) ts

omit hp in
theorem alternative_follows {k : Nat} (hk : k ≤ n)
    (hc : 0 < k → FollowsBelow tokens (k + 1) (conditional tokens) (Parser.conditional p b k)) :
    FollowsBelow tokens (k + 2) (alternative tokens) (alternativeOver p b k) := by
  intro w ts h hlt
  refine Follows.deeper ?_
  simp only [alternative]
  refine Follows.expect_bind rfl h fun word ts₁ w₁ hts _ h₁ => ?_
  rw [hts, List.length_cons] at hlt
  refine Follows.bind ?_ fun body ts₂ w₂ _ hlands => .pure hlands.ahead _
  have hif := startsWith_iff h₁ (.keyword .if_) (by decide)
  refine Follows.deeper ?_
  simp only [otherwise]
  refine Follows.peek ?_
  by_cases hkind : kindAt tokens w₁.cursor = .keyword .if_
  · refine .branch_pos hkind ?_
    rw [if_pos (hif.mpr hkind)]
    have hpos : 0 < k := by
      cases ts₁ with
      | nil => cases hif.mpr hkind
      | cons t ts₁ =>
        rw [List.length_cons] at hlt
        omega
    exact hc hpos w₁ ts₁ h₁ (by omega)
  · refine .branch_neg hkind ?_
    rw [if_neg (mt hif.mp hkind)]
    exact hb w₁ ts₁ h₁ (by omega)

/-- The depth of a chain of alternatives is bounded by its tokens. -/
theorem conditional_follows (k : Nat) (hk : k ≤ n) (hpos : 0 < k) :
    FollowsBelow tokens (k + 1) (conditional tokens) (Parser.conditional p b k) := by
  induction k with
  | zero => exact absurd hpos (Nat.lt_irrefl 0)
  | succ k ih =>
    intro w ts h hlt
    refine Follows.deeper ?_
    simp only [conditional]
    refine (guarded_follows hp hb .if_ w ts h (by omega)).bind fun parts ts₁ w₁ _ hlands => ?_
    have hlength := hlands.suffix.length_le
    rw [h] at hlength
    refine Follows.peek ?_
    cases ts₁ with
    | nil =>
      rw [kindAt_of_nil hlands.ahead]
      exact .pure hlands.ahead _
    | cons t ts₁ =>
      rw [kindAt_of_cons hlands.ahead]
      dsimp only
      by_cases helse : t.kind = .keyword .else_
      · refine .branch_pos helse ?_
        rw [if_pos helse]
        have halternative := alternative_follows hb (by omega) (ih (by omega)) w₁ (t :: ts₁)
          hlands.ahead (by omega)
        rw [alternativeOver, andThen_exactly helse] at halternative
        exact halternative.bind_done fun rest => Tree.node .conditional parts.1 (parts.2 ++ [rest])
      · refine .branch_neg helse ?_
        rw [if_neg helse]
        exact .pure hlands.ahead _

end Blocks

/-- Statements are read alike from a list and from a cursor, with the same mistakes. -/
theorem statement_follows (n : Nat) :
    FollowsBelow tokens n (statement tokens) (Parser.statement n) := by
  induction n with
  | zero => exact fun w ts _ hlt => absurd hlt (Nat.not_lt_zero _)
  | succ n ih =>
    have hp : FollowsBelow tokens n (expression tokens) fun ts => .of (Parser.expression n ts) :=
      expression_follows (unary_follows n)
    have hb := block_follows (recovering_follows ih (statement_readsOn n)) (statement_readsOn n)
    intro w ts h hlt
    refine Follows.deeper ?_
    simp only [statement]
    cases ts with
    | nil =>
      show Follows tokens w _ ((Reading.of (.error ⟨.statement, []⟩)).andThen fun inner ts =>
        .done (.node .statement inner []) ts)
      refine Follows.bind ?_ fun inner ts₁ w₁ _ hlands => .pure hlands.ahead _
      refine Follows.deeper ?_
      simp only [announced]
      refine Follows.peek ?_
      rw [kindAt_of_nil h]
      exact .fail h .statement
    | cons t ts =>
      refine Follows.bind ?_ fun inner ts₁ w₁ _ hlands => .pure hlands.ahead _
      refine Follows.deeper ?_
      simp only [announced]
      refine Follows.peek ?_
      rw [kindAt_of_cons h]
      -- both decide by the kind of the first token, and behind a name by that of the second
      generalize t.kind = kind
      cases kind with
      | keyword word =>
        cases word with
        | var => exact declaration_follows hp w _ h hlt
        | if_ =>
          rw [List.length_cons] at hlt
          exact conditional_follows hp hb n (Nat.le_refl n) (by omega) w _ h (by simpa using hlt)
        | while_ => exact loop_follows hp hb w _ h hlt
        | _ => exact .fail h .statement
      | openCurly => exact hb w _ h hlt
      | ident =>
        have hopen := startsWith_iff (of_cons h).2.2 .openParen (by decide)
        refine Follows.peekSecond ?_
        dsimp only
        by_cases hkind : kindAt tokens (w.cursor + 1) = .openParen
        · refine .branch_pos hkind ?_
          rw [if_pos (hopen.mpr hkind)]
          exact callStatement_follows hp w _ h hlt
        · refine .branch_neg hkind ?_
          rw [if_neg (mt hopen.mp hkind)]
          exact assignment_follows hp w _ h hlt
      | _ => exact .fail h .statement

end Statements

end ImpC.Walk
