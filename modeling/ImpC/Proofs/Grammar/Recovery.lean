import ImpC.Proofs.Grammar.Soundness

/-!
# Reading on after mistakes

Statements are read with the same guarantee as expressions, except that in place of a statement
there may be tokens that were skipped, and only if mistakes were recorded. No token is lost on the
way: what a failed statement had read comes back in the node of the skipped tokens.
-/
namespace ImpC.Grammar

open ImpC.Parser

variable {skips : List Token → Prop} {α β : Type}

/-- Tokens may be skipped if there are mistakes. -/
def Tolerates (skips : List Token → Prop) (mistakes : List Stuck) : Prop :=
  mistakes ≠ [] → ∀ t ts, skips (t :: ts)

theorem tolerates_append {ms ms' : List Stuck} :
    Tolerates skips (ms ++ ms') ↔ Tolerates skips ms ∧ Tolerates skips ms' := by
  constructor
  · intro h
    exact ⟨fun hm => h (by simp [hm]), fun hm => h (by simp [hm])⟩
  · rintro ⟨h, h'⟩ hm
    by_cases hms : ms = []
    · exact h' (by simpa [hms] using hm)
    · exact h hms

/-- As `Outcome`, with the mistakes made on the way. -/
def ReadingOutcome (good : List Stuck → α → List Token → Prop) (bad : Stuck → Prop)
    (r : Reading α) : Prop :=
  Outcome (good r.mistakes) bad r.result

theorem ReadingOutcome.of {good : α → List Token → Prop} {bad : Stuck → Prop}
    {x : Except Stuck (α × List Token)} (h : Outcome good bad x) :
    ReadingOutcome (fun ms a rest => ms = [] ∧ good a rest) bad (Reading.of x) :=
  Outcome.imp h (fun _ _ h => ⟨rfl, h⟩) (fun _ h => h)

theorem ReadingOutcome.done {good : List Stuck → α → List Token → Prop} {bad : Stuck → Prop} {a : α}
    {rest : List Token} (h : good [] a rest) : ReadingOutcome good bad (Reading.done a rest) := h

/-- A sequence ends well with the mistakes of both parts. -/
theorem ReadingOutcome.andThen {good : List Stuck → α → List Token → Prop} {bad bad' : Stuck → Prop}
    {good' : List Stuck → β → List Token → Prop} {r : Reading α}
    {next : α → List Token → Reading β} (hr : ReadingOutcome good bad r)
    (hnext : ∀ ms a rest, good ms a rest →
      ReadingOutcome (fun ms' => good' (ms ++ ms')) bad' (next a rest))
    (hbad : ∀ s, bad s → bad' s) : ReadingOutcome good' bad' (r.andThen next) := by
  obtain ⟨ms, x⟩ := r
  cases x with
  | error s => exact hbad s hr
  | ok y => exact hnext ms y.1 y.2 hr

/-- What is known of a reading is known of its result. -/
theorem ReadingOutcome.result {good : List Stuck → α → List Token → Prop} {bad : Stuck → Prop}
    {r : Reading α} (h : ReadingOutcome good bad r) :
    ReadingOutcome (fun ms a rest => r.result = .ok (a, rest) ∧ good ms a rest) bad r := by
  obtain ⟨ms, x⟩ := r
  cases x with
  | error s => exact h
  | ok y => exact ⟨rfl, h⟩

/-- The reading `p` gives trees of the rule `r` or gets stuck further on. -/
def ReadsOn (skips : List Token → Prop) (r : Rule) (p : List Token → Reading Tree) : Prop :=
  ∀ ts, ReadingOutcome
    (fun ms t rest => (Tolerates skips ms → IsA skips r t) ∧ ts = t.leaves ++ rest)
    (fun s => s.rest <:+ ts) (p ts)

theorem StuckAfter.suffix {ts : List Token} {s : Stuck} (h : StuckAfter ts s) : s.rest <:+ ts := by
  obtain ⟨read, rfl, -⟩ := h
  exact List.suffix_append read s.rest

/-- A reader that makes no mistakes on the way. -/
theorem Reads.readsOn {r : Rule} {p : Parser Tree} (h : Reads skips r p) :
    ReadsOn skips r (fun ts => Reading.of (p ts)) := by
  intro ts
  exact Outcome.imp (h ts) (fun t rest ht => ⟨fun _ => ht.1, ht.2⟩) (fun s hs => hs.suffix)

theorem skip_suffix (ts : List Token) : skip ts <:+ ts := by
  induction ts with
  | nil => exact List.suffix_refl _
  | cons t ts ih =>
    rw [skip]
    split
    · exact List.suffix_refl _
    · exact List.suffix_refl _
    · exact List.suffix_refl _
    · exact List.suffix_refl _
    · exact List.suffix_cons t ts
    · exact ih.trans (List.suffix_cons t ts)

/-- Reading goes on behind the first token of the statement that failed. -/
theorem resume_suffix {t : Token} {ts stuck : List Token} (h : stuck <:+ t :: ts) :
    resume (t :: ts) stuck <:+ ts := by
  unfold resume
  split
  · rename_i hlen
    obtain rfl := h.eq_of_length hlen
    split
    · exact List.nil_suffix
    · rename_i u us heq
      obtain ⟨rfl, rfl⟩ := List.cons.inj heq
      split
      · exact List.suffix_refl _
      · exact skip_suffix _
  · rename_i hlen
    rcases List.suffix_cons_iff.mp h with rfl | h
    · exact absurd rfl hlen
    · exact (skip_suffix stuck).trans h

theorem take_append_of_suffix {ts rest : List Token} (h : rest <:+ ts) :
    ts.take (ts.length - rest.length) ++ rest = ts := by
  obtain ⟨pre, rfl⟩ := h
  simp

/-- The first token and those skipped behind it are the leaves of the node in place of the
statement. -/
theorem recovering_readsOn {p : List Token → Reading Tree} (hp : ReadsOn skips .statement p) :
    ReadsOn skips .statement (recovering p) := by
  intro ts
  have hts := hp ts
  cases ts with
  | nil => exact hts
  | cons t ts =>
    rw [recovering]
    cases hx : (p (t :: ts)).result with
    | ok y =>
      simpa only [hx] using hts
    | error s =>
      have hs : s.rest <:+ t :: ts := by simpa only [ReadingOutcome, hx, Outcome] using hts
      dsimp only
      split
      · simpa only [ReadingOutcome, hx, Outcome] using hs
      · refine ⟨fun hms => isA_statement.mpr (.inr ⟨t, _, hms (by simp) t _, rfl⟩), ?_⟩
        rw [Tree.leaves, Tree.leavesAll_map_leaf, Tree.leaves, List.append_assoc,
          take_append_of_suffix (resume_suffix hs), List.singleton_append]

/-- Statements are read up to the end or a token that stops them, if the bound is above the number of
tokens. -/
theorem statements_outcome {p : List Token → Reading Tree} (hp : ReadsOn skips .statement p)
    (stops : Kind → Bool) (bound : Nat) (ts : List Token) :
    ReadingOutcome
      (fun ms trees rest => (Tolerates skips ms → ∀ t ∈ trees, IsA skips .statement t) ∧
        ts = Tree.leavesAll trees ++ rest ∧
        (ts.length < bound → ∀ t ∈ rest.head?, stops t.kind = true))
      (fun s => s.rest <:+ ts) (statements p stops bound ts) := by
  induction bound generalizing ts with
  | zero => exact .done ⟨by simp, rfl, by simp⟩
  | succ bound ih =>
    cases ts with
    | nil => exact .done ⟨by simp, rfl, by simp⟩
    | cons t ts =>
      rw [statements]
      split
      · rename_i hstop
        exact .done ⟨by simp, rfl, fun _ u hu => by obtain rfl : t = u := by simpa using hu
                                                    exact hstop⟩
      · refine (recovering_readsOn hp (t :: ts)).andThen ?_ (fun _ h => h)
        rintro ms first ts₁ ⟨hfirst, heq⟩
        rw [heq]
        refine (ih ts₁).andThen ?_ (fun _ h => h.trans (List.suffix_append _ _))
        rintro ms' more ts₂ ⟨hmore, rfl, hstop⟩
        have hpos : 0 < first.leaves.length := List.length_pos_iff.mpr first.leaves_ne_nil
        refine .done ⟨fun hms => ?_, by simp [Tree.leavesAll], fun hlen => hstop ?_⟩
        · rw [List.append_nil, tolerates_append] at hms
          simpa using ⟨hfirst hms.1, hmore hms.2⟩
        · rw [List.length_append] at hlen
          omega

theorem block_readsOn {p : List Token → Reading Tree} (hp : ReadsOn skips .statement p)
    (bound : Nat) : ReadsOn skips .block (block bound p) := by
  intro ts
  refine (ReadingOutcome.of (exactly_outcome .openCurly ts)).andThen ?_
    (fun s h => h ▸ List.suffix_refl ts)
  rintro _ _ ts₁ ⟨rfl, opening, ho, rfl, rfl⟩
  refine (statements_outcome hp (· = .closeCurly) bound ts₁).andThen ?_
    (fun _ h => h.trans (List.suffix_cons _ _))
  rintro ms body ts₂ ⟨hbody, rfl, -⟩
  refine (ReadingOutcome.of (exactly_outcome .closeCurly ts₂)).andThen ?_
    (fun s h => by rw [h]; exact (List.suffix_append _ _).trans (List.suffix_cons _ _))
  rintro _ _ ts₃ ⟨rfl, closing, hc, rfl, rfl⟩
  refine .done ⟨fun hms => ?_, by simp [Tree.leaves, Tree.leavesAll]⟩
  exact isA_block.mpr ⟨opening, body, closing, ho, hbody (by simpa using hms), hc, rfl⟩

/-- The parts of a loop or a conditional up to its block. -/
theorem guarded_outcome {p : Parser Tree} (hp : Reads skips .expression p)
    {b : List Token → Reading Tree} (hb : ReadsOn skips .block b) (word : Keyword)
    (ts : List Token) :
    ReadingOutcome
      (fun ms parts rest => (Tolerates skips ms → Guarded skips word parts.1 parts.2) ∧
        ts = parts.1.leaves ++ (Tree.leavesAll parts.2 ++ rest))
      (fun s => s.rest <:+ ts) (guarded word p b ts) := by
  refine (ReadingOutcome.of (exactly_outcome (.keyword word) ts)).andThen ?_
    (fun s h => h ▸ List.suffix_refl ts)
  rintro _ _ ts₁ ⟨rfl, start, hw, rfl, rfl⟩
  refine (ReadingOutcome.of (parenthesized_outcome hp ts₁)).andThen ?_
    (fun _ h => h.suffix.trans (List.suffix_cons _ _))
  rintro _ ⟨_, condition, _⟩ ts₂ ⟨rfl, opening, closing, ho, hd, hc, rfl, rfl, rfl⟩
  have hrest : ts₂ <:+ start :: opening :: (condition.leaves ++ closing :: ts₂) :=
    ⟨start :: opening :: (condition.leaves ++ [closing]), by simp⟩
  refine (hb ts₂).andThen ?_ (fun _ h => h.trans hrest)
  rintro ms body ts₃ ⟨hbody, rfl⟩
  refine .done ⟨fun hms => ?_, by simp [Tree.leaves, Tree.leavesAll]⟩
  exact ⟨start, opening, condition, closing, body, hw, ho, hd, hc, hbody (by simpa using hms), rfl,
    rfl⟩

theorem loop_readsOn {p : Parser Tree} (hp : Reads skips .expression p)
    {b : List Token → Reading Tree} (hb : ReadsOn skips .block b) :
    ReadsOn skips .loop (loop p b) := by
  intro ts
  refine (guarded_outcome hp hb .while_ ts).andThen ?_ (fun _ h => h)
  rintro ms ⟨word, parts⟩ ts₁ ⟨hparts, rfl⟩
  refine .done ⟨fun hms => ?_, by simp [Tree.leaves]⟩
  exact isA_loop.mpr ⟨word, parts, hparts (by simpa using hms), rfl⟩

/-- Behind `else` stands a block or a conditional. -/
theorem otherwise_outcome {b c : List Token → Reading Tree} (hb : ReadsOn skips .block b)
    (hc : ReadsOn skips .conditional c) (ts : List Token) :
    ReadingOutcome (fun ms body rest =>
        (Tolerates skips ms → IsA skips .block body ∨ IsA skips .conditional body) ∧
          ts = body.leaves ++ rest)
      (fun s => s.rest <:+ ts) (if startsWith (.keyword .if_) ts then c ts else b ts) := by
  split
  · exact (hc ts).imp (fun _ _ h => ⟨fun hms => .inr (h.1 hms), h.2⟩) (fun _ h => h)
  · exact (hb ts).imp (fun _ _ h => ⟨fun hms => .inl (h.1 hms), h.2⟩) (fun _ h => h)

/-- Each alternative is a node below the conditional before it. -/
theorem conditional_readsOn {p : Parser Tree} (hp : Reads skips .expression p)
    {b : List Token → Reading Tree} (hb : ReadsOn skips .block b) (bound : Nat) :
    ReadsOn skips .conditional (conditional p b bound) := by
  induction bound with
  | zero => exact fun ts => List.suffix_refl _
  | succ bound ih =>
    intro ts
    refine (guarded_outcome hp hb .if_ ts).andThen ?_ (fun _ h => h)
    rintro ms ⟨word, parts⟩ ts₁ ⟨hparts, rfl⟩
    have halone : ∀ rest, ReadingOutcome
        (fun ms' t rest' => (Tolerates skips (ms ++ ms') → IsA skips .conditional t) ∧
          word.leaves ++ (Tree.leavesAll parts ++ rest) = t.leaves ++ rest')
        (fun s => s.rest <:+ word.leaves ++ (Tree.leavesAll parts ++ rest))
        (Reading.done (.node .conditional word parts) rest) := by
      refine fun rest => .done ⟨fun hms => ?_, by simp [Tree.leaves]⟩
      exact isA_conditional.mpr ⟨word, parts, hparts (by simpa using hms), .inl rfl⟩
    cases ts₁ with
    | nil => exact halone []
    | cons t ts₁ =>
      dsimp only
      split
      · rename_i ht
        have hrest : ts₁ <:+ word.leaves ++ (Tree.leavesAll parts ++ t :: ts₁) :=
          ⟨word.leaves ++ (Tree.leavesAll parts ++ [t]), by simp⟩
        refine (otherwise_outcome hb ih ts₁).andThen ?_ (fun _ h => h.trans hrest)
        rintro ms' body ts₂ ⟨hbody, rfl⟩
        refine .done ⟨fun hms => ?_, by simp [Tree.leaves, Tree.leavesAll]⟩
        rw [List.append_nil, tolerates_append] at hms
        exact isA_conditional.mpr ⟨word, parts, hparts hms.1, .inr ⟨_,
          isA_alternative.mpr ⟨t, body, ht, hbody hms.2, rfl⟩, rfl⟩⟩
      · exact halone (t :: ts₁)

/-- The first tokens decide which rule is read. -/
theorem statement_readsOn (bound : Nat) : ReadsOn skips .statement (statement bound) := by
  induction bound with
  | zero => exact fun ts => List.suffix_refl _
  | succ bound ih =>
    intro ts
    cases ts with
    | nil => exact List.suffix_refl _
    | cons t ts =>
      have hwrap : ∀ {r : Rule} {p : List Token → Reading Tree}, ReadsOn skips r p →
          (∀ inner, IsA skips r inner → IsA skips .statement (.node .statement inner [])) →
          ReadingOutcome
            (fun ms u rest => (Tolerates skips ms → IsA skips .statement u) ∧
              t :: ts = u.leaves ++ rest)
            (fun s => s.rest <:+ t :: ts)
            ((p (t :: ts)).andThen fun inner ts => .done (.node .statement inner []) ts) := by
        intro r p hp hr
        refine (hp (t :: ts)).andThen ?_ (fun _ h => h)
        rintro ms inner ts₁ ⟨hinner, heq⟩
        refine .done ⟨fun hms => hr inner (hinner (by simpa using hms)), ?_⟩
        simpa [Tree.leaves, Tree.leavesAll] using heq
      have he := @expression_reads skips bound
      have hb := block_readsOn ih bound
      rw [statement]
      split
      · exact hwrap (declaration_reads he).readsOn
          (fun _ h => isA_statement.mpr (.inl ⟨_, .inl h, rfl⟩))
      · exact hwrap (conditional_readsOn he hb bound)
          (fun _ h => isA_statement.mpr (.inl ⟨_, .inr (.inr (.inl h)), rfl⟩))
      · exact hwrap (loop_readsOn he hb)
          (fun _ h => isA_statement.mpr (.inl ⟨_, .inr (.inr (.inr (.inl h))), rfl⟩))
      · exact hwrap hb
          (fun _ h => isA_statement.mpr (.inl ⟨_, .inr (.inr (.inr (.inr (.inr h)))), rfl⟩))
      · split
        · exact hwrap (callStatement_reads he bound).readsOn
            (fun _ h => isA_statement.mpr (.inl ⟨_, .inr (.inr (.inr (.inr (.inl h)))), rfl⟩))
        · exact hwrap (assignment_reads he).readsOn
            (fun _ h => isA_statement.mpr (.inl ⟨_, .inr (.inl h), rfl⟩))
      · exact List.suffix_refl _

theorem program_outcome (bound : Nat) (ending : Option Token) (ts : List Token) :
    ReadingOutcome
      (fun ms tree rest => ∃ first more, (Tolerates skips ms →
          ∀ t ∈ first :: more, IsA skips .statement t) ∧
        ts = Tree.leavesAll (first :: more) ++ rest ∧ (ts.length ≤ bound → rest = []) ∧
        tree = .node .program first (more ++ ending.toList.map .leaf))
      (fun s => s.rest <:+ ts) (program bound ending ts) := by
  have hstatement := @statement_readsOn skips bound
  refine (recovering_readsOn hstatement ts).andThen ?_ (fun _ h => h)
  rintro ms first ts₁ ⟨hfirst, rfl⟩
  refine (statements_outcome hstatement _ bound ts₁).andThen ?_
    (fun _ h => h.trans (List.suffix_append _ _))
  rintro ms' more ts₂ ⟨hmore, rfl, hstop⟩
  have hpos : 0 < first.leaves.length := List.length_pos_iff.mpr first.leaves_ne_nil
  refine .done ⟨first, more, fun hms => ?_, by simp [Tree.leavesAll], fun hlen => ?_, rfl⟩
  · rw [List.append_nil, tolerates_append] at hms
    simpa using ⟨hfirst hms.1, hmore hms.2⟩
  · rw [List.length_append] at hlen
    have hend := hstop (by omega)
    cases ts₂ with
    | nil => rfl
    | cons t ts₂ => exact absurd (hend t rfl) (by simp)

/-- The tree of a program has the statements read and then the end of the text. All tokens before the
end are read, and none is skipped unless there are errors. -/
theorem parse_tree {tokens : List Token} {tree : Tree} (h : (parse tokens).tree = some tree) :
    ∃ first more, tree = .node .program first (more ++ (ending? tokens).toList.map .leaf) ∧
      Tree.leavesAll (first :: more) = body tokens ∧
      ∀ skips, ((parse tokens).errors ≠ [] → ∀ t ts, skips (t :: ts)) →
        ∀ t ∈ first :: more, IsA skips .statement t := by
  have hprogram := fun skips =>
    @program_outcome skips ((body tokens).length + 1) (ending? tokens) (body tokens)
  unfold parse at h ⊢
  dsimp only at h ⊢
  split at h
  · cases h
  · rename_i hbody
    rw [if_neg hbody]
    cases hr : (program ((body tokens).length + 1) (ending? tokens) (body tokens)).result with
    | error s =>
      rw [hr] at h
      cases h
    | ok y =>
      obtain ⟨t, rest⟩ := y
      rw [hr] at h
      obtain rfl : t = tree := by simpa using h
      simp only [ReadingOutcome, hr, Outcome] at hprogram
      obtain ⟨first, more, -, hleaves, hrest, htree⟩ := hprogram fun _ => True
      obtain rfl := hrest (by omega)
      refine ⟨first, more, htree, by simpa using hleaves.symm, fun skips hskips => ?_⟩
      obtain ⟨first', more', hall, -, -, htree'⟩ := hprogram skips
      rw [htree] at htree'
      simp only [Tree.node.injEq, true_and, List.append_cancel_right_eq] at htree'
      obtain ⟨rfl, rfl⟩ := htree'
      exact hall fun hms => hskips (by simpa using hms)

end ImpC.Grammar
