import ImpC.Proofs.Grammar.Following
import ImpC.Proofs.Grammar.Depth
import ImpC.Proofs.Grammar.Braces

/-!
# Progress of the walk

The rules have no bound of their own. They end because what they read they step over: no rule gives
a tree without a step, and what replaces a malformed statement takes at least one token. So from some
depth on, more depth makes no difference.
-/
namespace ImpC.Walk

open ImpC.Parser ImpC.Grammar

variable {α : Type} {tokens : List Token} {w w' : Walker}

/-- The walk has stepped over some tokens, none of which is the end. -/
structure Moves (tokens : List Token) (w w' : Walker) : Prop where
  forward : w.cursor ≤ w'.cursor
  within : ∀ i, w.cursor ≤ i → i < w'.cursor → kindAt tokens i ≠ .eof

/-- From every state the walk ends, the same at whatever depth it is through, and it does not step over
the end of the text. -/
def Ends (tokens : List Token) (m : Nat → Walk α) : Prop :=
  ∀ w, ∃ result w', Settles m w result w' ∧ Moves tokens w w' ∧
    ∀ depth x, outcome? (m depth) w = some x → x = (result, w')

/-- A walk that succeeds has stepped over a token. -/
def Consumes (m : Nat → Walk α) : Prop :=
  ∀ w a w', Settles m w (.ok a) w' → w.cursor < w'.cursor

def procedure (tokens : List Token) : Rule → Nat → Walk Tree
  | .program => program tokens
  | .statement => statement tokens
  | .declaration => declaration tokens
  | .typeClause => fun _ => typeClause tokens
  | .assignment => assignment tokens
  | .conditional => conditional tokens
  | .alternative => alternative tokens
  | .loop => loop tokens
  | .callStatement => callStatement tokens
  | .block => block tokens
  | .expression => expression tokens
  | .or => (tower tokens · levels)
  | .and => (tower tokens · (levels.drop 1))
  | .equality => (tower tokens · (levels.drop 2))
  | .comparison => (tower tokens · (levels.drop 3))
  | .additive => (tower tokens · (levels.drop 4))
  | .multiplicative => (tower tokens · (levels.drop 5))
  | .unary => unary tokens
  | .primary => primary tokens
  | .call => call tokens
  | .arguments => arguments tokens
  | .error => recovering tokens

/-- The result of reading that the outcome of walking over a program stands for. -/
def report (tokens : List Token) : Except Failure Tree × Walker → Parsed
  | (.ok tree, w) => ⟨some tree, w.mistakes.map (·.error (endLocation tokens))⟩
  | (.error (.recoverable s), w) | (.error (.fatal s), w) =>
    ⟨none, (w.mistakes ++ [s]).map (·.error (endLocation tokens))⟩
  | (.error .empty, w) =>
    ⟨none, w.mistakes.map (·.error (endLocation tokens)) ++ [⟨endLocation tokens, .emptyProgram⟩]⟩

theorem kindAt_ne_eof {i : Nat} (h : i < (ahead tokens w).length) :
    kindAt tokens (w.cursor + i) ≠ .eof := by
  induction i generalizing w with
  | zero =>
    obtain ⟨t, ts, hts⟩ := List.exists_cons_of_length_pos h
    rw [Nat.add_zero, kindAt_of_cons hts]
    exact (of_cons hts).2.1
  | succ i ih =>
    obtain ⟨t, ts, hts⟩ := List.exists_cons_of_length_pos (Nat.zero_lt_of_lt h)
    rw [hts, List.length_cons] at h
    have hrest := @ih w.step (by rw [(of_cons hts).2.2]; omega)
    rwa [Walker.step, Nat.add_right_comm] at hrest

/-- Between two places of a walk the cursor only goes forward, and not past the end. -/
theorem Lands.moves {ts : List Token} {ms : List Stuck} (h : Lands tokens w ts ms w') :
    Moves tokens w w' := by
  have hlength := h.suffix.length_le
  have hcursor := h.cursor
  refine ⟨by omega, fun i hle hlt => ?_⟩
  have hkind : kindAt tokens (w.cursor + (i - w.cursor)) ≠ .eof := kindAt_ne_eof (by omega)
  rwa [Nat.add_sub_cancel' hle] at hkind

/-- A procedure that settles everywhere ends everywhere, at any depth that is enough. -/
theorem Ends.of {m : Nat → Walk α} (hm : Grows m)
    (h : ∀ w, ∃ result w', Settles m w result w' ∧ Moves tokens w w') : Ends tokens m := by
  intro w
  obtain ⟨result, w', hsettles, hmoves⟩ := h w
  exact ⟨result, w', hsettles, hmoves, fun _ _ hx => hsettles.eq_of_grows hm hx⟩

theorem Follows.moves {m : Nat → Walk α} {r : Reading α} (h : Follows tokens w m r) :
    ∃ result w', Settles m w result w' ∧ Moves tokens w w' := by
  obtain ⟨w', hrun, hlands⟩ := h
  exact ⟨r.answer, w', hrun, hlands.moves⟩

theorem Ends.of_follows {m : Nat → Walk α} (hm : Grows m)
    (h : ∀ n, ∃ q, FollowsBelow tokens n m q) : Ends tokens m := by
  refine .of hm fun w => ?_
  obtain ⟨q, hq⟩ := h ((ahead tokens w).length + 1)
  exact (hq w _ rfl (Nat.lt_succ_self _)).moves

/-- What is left of the tokens after a tree is less than there was. -/
def Shortens (q : List Token → Reading α) : Prop :=
  ∀ ts a rest, (q ts).result = .ok (a, rest) → rest.length < ts.length

theorem answer_eq_ok {r : Reading α} {a : α} (h : r.answer = .ok a) :
    r.result = .ok (a, r.left) := by
  rw [Reading.answer] at h
  cases hx : r.result with
  | ok y =>
    rw [hx] at h
    obtain rfl : y.1 = a := by simpa using h
    rw [left_of_ok (a := y.1) hx]
  | error s =>
    rw [hx] at h
    cases h

theorem Follows.consumes {m : Nat → Walk α} {r : Reading α} {a : α} (h : Follows tokens w m r)
    (hr : ∀ a rest, r.result = .ok (a, rest) → rest.length < (ahead tokens w).length)
    (hrun : Settles m w (.ok a) w') : w.cursor < w'.cursor := by
  obtain ⟨w₁, hrun₁, hlands⟩ := h
  obtain ⟨hanswer, rfl⟩ := hrun.unique hrun₁
  have hlt := hr _ _ (answer_eq_ok hanswer.symm)
  have hcursor := hlands.cursor
  omega

/-- A procedure that follows a reader of non-empty trees takes a token. -/
theorem Consumes.of {m : Nat → Walk α} (h : ∀ n, ∃ q, FollowsBelow tokens n m q ∧ Shortens q) :
    Consumes m := by
  intro w a w' hrun
  obtain ⟨q, hq, hshortens⟩ := h ((ahead tokens w).length + 1)
  exact (hq w _ rfl (Nat.lt_succ_self _)).consumes (hshortens _) hrun

/-- No tree is without leaves. -/
theorem shortens_of_readsOn {r : Rule} {q : List Token → Reading Tree}
    (h : ReadsOn (fun _ => True) r q) : Shortens q := by
  intro ts t rest hx
  have hread := h ts
  rw [ReadingOutcome, hx] at hread
  have hpos : 0 < t.leaves.length := List.length_pos_iff.mpr t.leaves_ne_nil
  rw [hread.2, List.length_append]
  omega

theorem FollowsBelow.mono {m : Nat → Walk α} {q : List Token → Reading α} {n k : Nat}
    (h : FollowsBelow tokens k m q) (hnk : n ≤ k) : FollowsBelow tokens n m q :=
  fun w ts hts hlt => h w ts hts (by omega)

theorem alternativeOver_readsOn {p : Parser Tree} {b : List Token → Reading Tree} {k : Nat}
    {skips : List Token → Prop} (hb : ReadsOn skips .block b)
    (hc : ReadsOn skips .conditional (Parser.conditional p b k)) :
    ReadsOn skips .alternative (alternativeOver p b k) := by
  intro ts
  refine (ReadingOutcome.of (exactly_outcome (.keyword .else_) ts)).andThen ?_
    (fun s h => h ▸ List.suffix_refl ts)
  rintro _ _ ts₁ ⟨rfl, word, hword, rfl, rfl⟩
  refine (otherwise_outcome hb hc ts₁).andThen ?_ (fun _ h => h.trans (List.suffix_cons _ _))
  rintro ms body ts₂ ⟨hbody, rfl⟩
  refine .done ⟨fun hms => ?_, by simp [Tree.leaves, Tree.leavesAll]⟩
  exact isA_alternative.mpr ⟨word, body, hword, hbody (by simpa using hms), rfl⟩

section Rules

variable (tokens) (n : Nat)

theorem expression_followsBelow :
    FollowsBelow tokens n (expression tokens) fun ts => .of (Parser.expression n ts) :=
  expression_follows (unary_follows n)

theorem recovering_followsBelow :
    FollowsBelow tokens n (recovering tokens) (Parser.recovering (Parser.statement n)) :=
  recovering_follows (statement_follows n) (statement_readsOn n)

theorem block_followsBelow :
    FollowsBelow tokens (n + 1) (block tokens) (Parser.block n (Parser.statement n)) :=
  block_follows (recovering_followsBelow tokens n) (statement_readsOn n)

/-- A walk other than that of a whole program follows a reading that takes a token for a tree. -/
theorem procedure_follows {r : Rule} (hr : r ≠ .program) :
    ∃ q, FollowsBelow tokens n (procedure tokens r) q ∧ Shortens q := by
  have he := expression_followsBelow tokens n
  have hb := block_followsBelow tokens n
  have hreads := @expression_reads (fun _ => True) n
  have hblock := block_readsOn (@statement_readsOn (fun _ => True) n) n
  have hconditional := conditional_readsOn hreads hblock n
  -- the levels of operators are one procedure, with the levels that are left
  have htower {ls : List Level} (hls : Stacked ls) :
      ∃ q, FollowsBelow tokens n (tower tokens · ls) q ∧ Shortens q :=
    ⟨_, tower_follows (unary_follows n) ls,
      shortens_of_readsOn (tower_reads (unary_reads n) n hls).readsOn⟩
  cases r with
  | program => exact absurd rfl hr
  | statement => exact ⟨_, statement_follows n, shortens_of_readsOn (statement_readsOn n)⟩
  | declaration =>
    exact ⟨_, (declaration_follows he).mono (Nat.le_succ n),
      shortens_of_readsOn (declaration_reads hreads).readsOn⟩
  | typeClause =>
    exact ⟨_, fun w ts h _ => typeClause_follows h, shortens_of_readsOn typeClause_reads.readsOn⟩
  | assignment =>
    exact ⟨_, (assignment_follows he).mono (Nat.le_succ n),
      shortens_of_readsOn (assignment_reads hreads).readsOn⟩
  | conditional =>
    refine ⟨_, fun w ts h hlt => ?_, shortens_of_readsOn hconditional⟩
    exact conditional_follows he hb n (Nat.le_refl n) (by omega) w ts h (by omega)
  | alternative =>
    exact ⟨_, (alternative_follows hb (Nat.le_refl n)
        (conditional_follows he hb n (Nat.le_refl n))).mono (by omega),
      shortens_of_readsOn (alternativeOver_readsOn hblock hconditional)⟩
  | loop =>
    exact ⟨_, (loop_follows he hb).mono (Nat.le_succ n),
      shortens_of_readsOn (loop_readsOn hreads hblock)⟩
  | callStatement =>
    exact ⟨_, (callStatement_follows he).mono (Nat.le_succ n),
      shortens_of_readsOn (callStatement_reads hreads n).readsOn⟩
  | block => exact ⟨_, hb.mono (Nat.le_succ n), shortens_of_readsOn hblock⟩
  | expression => exact ⟨_, he, shortens_of_readsOn hreads.readsOn⟩
  | or => exact htower stacked_levels
  | and => exact htower stacked_levels.2.2.2
  | equality => exact htower stacked_levels.2.2.2.2.2.2
  | comparison => exact htower stacked_levels.2.2.2.2.2.2.2.2.2
  | additive => exact htower stacked_levels.2.2.2.2.2.2.2.2.2.2.2.2
  | multiplicative => exact htower stacked_levels.2.2.2.2.2.2.2.2.2.2.2.2.2.2.2
  | unary => exact ⟨_, unary_follows n, shortens_of_readsOn (unary_reads n).readsOn⟩
  | primary =>
    exact ⟨_, (primary_follows he).mono (Nat.le_succ n),
      shortens_of_readsOn (primary_reads hreads n).readsOn⟩
  | call =>
    exact ⟨_, (call_follows he).mono (Nat.le_succ n),
      shortens_of_readsOn (call_reads hreads n).readsOn⟩
  | arguments =>
    exact ⟨_, arguments_follows he, shortens_of_readsOn (arguments_reads hreads n).readsOn⟩
  | error =>
    exact ⟨_, recovering_followsBelow tokens n,
      shortens_of_readsOn (recovering_readsOn (statement_readsOn n))⟩

end Rules

/-! The whole program. -/

/-- At the end nothing is stepped over. -/
theorem Follows.next_of_nil {f : Nat → Option Token → Walk α} {r : Reading α}
    (h : ahead tokens w = []) (hf : Follows tokens w (fun depth => f depth tokens[w.cursor]?) r) :
    Follows tokens w (fun depth => Walk.next tokens >>= f depth) r := by
  have hkind := kindAt_of_nil h
  have hrun : outcome? (Walk.next tokens) w = some (.ok tokens[w.cursor]?, w) := by
    rw [Walk.next, outcome?_get]
    rw [kindAt] at hkind
    cases hget : tokens[w.cursor]? with
    | none => rfl
    | some t =>
      rw [hget] at hkind
      dsimp only
      rw [if_pos hkind]
      rfl
  obtain ⟨w', hrun', hlands⟩ := hf
  exact ⟨w', (Settles.of fun _ => hrun).bind_ok hrun', hlands⟩

theorem program_follows (h : ahead tokens w ≠ []) :
    Follows tokens w (program tokens) (Parser.program ((ahead tokens w).length + 1)
      tokens[w.cursor + (ahead tokens w).length]? (ahead tokens w)) := by
  obtain ⟨t, ts, hts⟩ := List.exists_cons_of_ne_nil h
  generalize hn : (ahead tokens w).length + 1 = n
  have hstatement := @statement_readsOn (fun _ => True) n
  have hrecovering := recovering_followsBelow tokens n
  refine Follows.peek ?_
  refine .branch_neg (kindAt_of_cons hts ▸ (of_cons hts).2.1) ?_
  refine (hrecovering w _ rfl (by omega)).bind fun first ts₁ w₁ _ hlands => ?_
  have hlength := hlands.suffix.length_le
  refine (statements_follows hrecovering hstatement _ n (Nat.le_refl n) w₁ ts₁ hlands.ahead
    (by omega)).bind fun more ts₂ w₂ hmore hlands' => ?_
  have hend : ts₂ = [] := by
    have houtcome := statements_outcome hstatement (fun _ => false) n ts₁
    rw [ReadingOutcome, hmore] at houtcome
    cases ts₂ with
    | nil => rfl
    | cons u us => cases houtcome.2.2 (by omega) u rfl
  subst hend
  have hcursor : w₂.cursor = w.cursor + (ahead tokens w).length := by
    have hfirst := hlands.cursor
    have hlast := hlands'.cursor
    rw [hlands.ahead, List.length_nil] at hlast
    omega
  refine Follows.next_of_nil hlands'.ahead ?_
  rw [hcursor]
  exact .pure hlands'.ahead _

theorem program_settles_of_nil (h : ahead tokens w = []) :
    Settles (program tokens) w (.error .empty) w := by
  refine .of fun depth => ?_
  rw [program, outcome?_peek, if_pos (kindAt_of_nil h)]
  rfl

/-- Reading a program comes to an end. -/
theorem program_ends (tokens : List Token) : Ends tokens (program tokens) := by
  refine .of (program_grows tokens) fun w => ?_
  by_cases h : ahead tokens w = []
  · exact ⟨_, w, program_settles_of_nil h, (Lands.here w).moves⟩
  · exact (program_follows h).moves

theorem program_consumes (tokens : List Token) : Consumes (program tokens) := by
  intro w tree w' hrun
  by_cases h : ahead tokens w = []
  · cases (hrun.unique (program_settles_of_nil h)).1
  · refine (program_follows h).consumes (fun t rest hx => ?_) hrun
    have houtcome := @program_outcome (fun _ => True) ((ahead tokens w).length + 1)
      tokens[w.cursor + (ahead tokens w).length]? (ahead tokens w)
    rw [ReadingOutcome, hx] at houtcome
    obtain ⟨first, more, -, -, hrest, -⟩ := houtcome
    rw [hrest (Nat.le_succ _)]
    exact List.length_pos_iff.mpr h

theorem getElem?_length_body (tokens : List Token) :
    tokens[(body tokens).length]? = ending? tokens := by
  induction tokens with
  | nil => rfl
  | cons t ts ih =>
    rw [body, ending?, List.takeWhile_cons, List.find?_cons]
    by_cases ht : t.kind = .eof
    · simp [ht]
    · simpa [ht, body, ending?] using ih

/-- The walk over a program has the outcome that reading it has. -/
theorem report_program (tokens : List Token) :
    ∃ result w, Settles (program tokens) ⟨0, []⟩ result w ∧
      report tokens (result, w) = parse tokens := by
  have hahead : ahead tokens ⟨0, []⟩ = body tokens := rfl
  rw [parse]
  dsimp only
  by_cases h : body tokens = []
  · refine ⟨_, _, program_settles_of_nil (hahead.trans h), ?_⟩
    rw [h]
    rfl
  · obtain ⟨w, hrun, hlands⟩ := program_follows (w := ⟨0, []⟩) h
    have hmistakes := hlands.mistakes
    rw [hahead, Nat.zero_add, getElem?_length_body] at hrun hmistakes
    refine ⟨_, w, hrun, ?_⟩
    rw [if_neg (by simpa using h), Reading.answer]
    cases hx : (Parser.program ((body tokens).length + 1) (ending? tokens) (body tokens)).result with
    | ok y => simp [report, hmistakes]
    | error s =>
      dsimp only
      rw [Failure.of]
      split <;> simp [report, hmistakes]

/-- Without a first step, the walk to the next statement is skipping. -/
theorem synchronize_skips {start : Nat} (h : w.cursor = start → ahead tokens w = []) :
    Follows tokens w (synchronize tokens · start) (.done () (Parser.skip (ahead tokens w))) := by
  have hskip : Follows tokens w (skip tokens) (.done () (Parser.skip (ahead tokens w))) :=
    skip_follows rfl
  refine Follows.get ?_
  by_cases hstart : w.cursor = start
  · refine .branch_pos hstart ?_
    refine Follows.next_of_nil (h hstart) ?_
    have hkind := kindAt_of_nil (h hstart)
    rw [kindAt] at hkind
    cases hget : tokens[w.cursor]? with
    | none => exact hskip
    | some t =>
      rw [hget] at hkind
      dsimp only at hkind ⊢
      exact .branch_neg (by simp [hkind]) hskip
  · exact .branch_neg hstart hskip

theorem synchronize_ends (tokens : List Token) (start : Nat) :
    Ends tokens (synchronize tokens · start) := by
  refine .of (synchronize_grows tokens start) fun w => ?_
  by_cases h : w.cursor = start ∧ ahead tokens w ≠ []
  · obtain ⟨rfl, hne⟩ := h
    exact (synchronize_follows rfl (.here w) hne).moves
  · exact (synchronize_skips (by simpa using h)).moves

theorem statements_ends (tokens : List Token) (stops : Kind → Bool) :
    Ends tokens (statements tokens · stops) := by
  refine .of_follows (fun depth => (statements_grow tokens depth).statements stops) fun n => ?_
  exact ⟨_, statements_follows (recovering_followsBelow tokens n) (statement_readsOn n) stops n
    (Nat.le_refl n)⟩

theorem operands_ends (tokens : List Token) (level : Level) (tighter : List Level) :
    Ends tokens (operands tokens · level tighter) := by
  refine .of_follows (fun depth => (expressions_grow tokens depth).operands level tighter)
    fun n => ?_
  exact ⟨_, separated_follows (operands tokens · level tighter) (operands_succ level tighter) rfl
    (tower_follows (unary_follows n) tighter) n (Nat.le_refl n)⟩

theorem moreArguments_ends (tokens : List Token) : Ends tokens (moreArguments tokens) := by
  refine .of_follows (fun depth => (expressions_grow tokens depth).moreArguments) fun n => ?_
  exact ⟨_, separated_follows (moreArguments tokens) moreArguments_succ rfl
    (expression_followsBelow tokens n) n (Nat.le_refl n)⟩

theorem procedure_grows (tokens : List Token) (rule : Rule) : Grows (procedure tokens rule) := by
  intro depth
  have he := expressions_grow tokens depth
  have hs := statements_grow tokens depth
  cases rule with
  | program => exact program_grows tokens depth
  | statement => exact hs.statement
  | declaration => exact declaration_grows tokens depth
  | typeClause => exact .refl _
  | assignment => exact assignment_grows tokens depth
  | conditional => exact hs.conditional
  | alternative => exact hs.alternative
  | loop => exact hs.loop
  | callStatement => exact callStatement_grows tokens depth
  | block => exact hs.block
  | expression => exact he.expression
  | or | and | equality | comparison | additive | multiplicative => exact he.tower _
  | unary => exact he.unary
  | primary => exact he.primary
  | call => exact he.call
  | arguments => exact he.arguments
  | error => exact hs.recovering

/-- Every procedure of the parser comes to an end, wherever it starts. -/
theorem procedure_ends (tokens : List Token) (rule : Rule) : Ends tokens (procedure tokens rule) := by
  by_cases h : rule = .program
  · subst h
    exact program_ends tokens
  · exact .of_follows (procedure_grows tokens rule) fun n =>
      (procedure_follows tokens n h).imp fun _ hq => hq.1

/-- Every procedure that gives a tree has taken a token. -/
theorem procedure_consumes (tokens : List Token) (rule : Rule) : Consumes (procedure tokens rule) := by
  by_cases h : rule = .program
  · subst h
    exact program_consumes tokens
  · exact .of fun n => procedure_follows tokens n h

/-- Before the end, stepping over a statement moves the cursor. -/
theorem recovering_progress (h : kindAt tokens w.cursor ≠ .eof) :
    ∃ result w', Settles (recovering tokens) w result w' ∧ Moves tokens w w' ∧
      ((∃ stuck, result = .error (.fatal stuck)) ∨
        (∃ tree, result = .ok tree) ∧ w.cursor < w'.cursor) := by
  obtain ⟨t, ts, hts⟩ := List.exists_cons_of_ne_nil (mt kindAt_of_nil h)
  obtain ⟨w', hrun, hlands⟩ := recovering_followsBelow tokens (ts.length + 2) w _ hts (by simp)
  refine ⟨_, w', hrun, hlands.moves, ?_⟩
  rw [Reading.answer] at hrun ⊢
  cases hx : (Parser.recovering (Parser.statement (ts.length + 2)) (t :: ts)).result with
  | error s => exact .inl ⟨s, by simp [Failure.of, recovering_error hx]⟩
  | ok y =>
    rw [hx] at hrun
    exact .inr ⟨⟨y.1, rfl⟩, procedure_consumes tokens .error w y.1 w' hrun⟩

/-- From wherever it starts, every rule ends, the cursor does not go back nor over the end of the
text, and a rule that gives a tree has stepped over a token. Before the end, what stands for a
statement fails for good or steps over a token. So the loops end too, although nothing limits their
rounds, and the walk over a program comes to what reading it says. -/
theorem parser_progress (tokens : List Token) :
    (∀ rule, Ends tokens (procedure tokens rule) ∧ Consumes (procedure tokens rule)) ∧
    (∀ w, kindAt tokens w.cursor ≠ .eof →
      ∃ result w', Settles (recovering tokens) w result w' ∧ Moves tokens w w' ∧
        ((∃ stuck, result = .error (.fatal stuck)) ∨
          (∃ tree, result = .ok tree) ∧ w.cursor < w'.cursor)) ∧
    (∀ stops, Ends tokens (statements tokens · stops)) ∧
    (∀ level tighter, Ends tokens (operands tokens · level tighter)) ∧
    Ends tokens (moreArguments tokens) ∧
    (∀ start, Ends tokens (synchronize tokens · start)) ∧
    ∃ result w, Settles (program tokens) ⟨0, []⟩ result w ∧
      report tokens (result, w) = parse tokens := by
  exact ⟨fun rule => ⟨procedure_ends tokens rule, procedure_consumes tokens rule⟩,
    fun w => recovering_progress, statements_ends tokens, operands_ends tokens,
    moreArguments_ends tokens, synchronize_ends tokens, report_program tokens⟩

/-- No rule takes the parenthesis, and what stands behind the end is not looked at. -/
def strayTokens : List Token := [blank .closeParen, blank .semicolon, blank .eof, blank .ident]

theorem parser_progress_stray :
    kindAt strayTokens 0 ≠ .eof ∧
      ∃ result w', Settles (recovering strayTokens) ⟨0, []⟩ result w' ∧
        Moves strayTokens ⟨0, []⟩ w' ∧
        ((∃ stuck, result = .error (.fatal stuck)) ∨
          (∃ tree, result = .ok tree) ∧ 0 < w'.cursor) := by
  have hkind : kindAt strayTokens 0 ≠ .eof := by decide
  exact ⟨hkind, (parser_progress strayTokens).2.1 ⟨0, []⟩ hkind⟩

end ImpC.Walk
