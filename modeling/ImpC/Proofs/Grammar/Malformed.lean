import ImpC.Proofs.Grammar.Completeness

/-!
# Malformed statements

A malformed statement that ends with its only semicolon and has no brace in it is stepped over as a
whole, and nothing else is: reading gets stuck inside it and goes on right behind it.
-/
namespace ImpC.Grammar

open ImpC.Parser

variable {skips : List Token → Prop}

/-- What a malformed statement is like if it is not to disturb its neighbours. -/
structure Malformed (m : List Token) : Prop where
  semicolon : ∃ init stop, m = init ++ [stop] ∧ stop.kind = .semicolon ∧
    ∀ t ∈ init, t.kind ≠ .semicolon
  no_brace : ∀ t ∈ m, t.kind ≠ .openCurly ∧ t.kind ≠ .closeCurly
  no_end : ∀ t ∈ m, t.kind ≠ .eof
  no_keyword : ∀ t ∈ m.tail,
    t.kind ≠ .keyword .var ∧ t.kind ≠ .keyword .if_ ∧ t.kind ≠ .keyword .while_
  no_else : ∀ t ∈ m.head?, t.kind ≠ .keyword .else_
  no_sentence : ¬ Sentence (.rule .statement) m

theorem isPlain_iff {k : Kind} :
    isPlain k = true ↔ k ≠ .semicolon ∧ k ≠ .openCurly ∧ k ≠ .closeCurly := by
  cases k <;> simp [isPlain]

/-- Two lists that are one up to their first semicolons are one up to there. -/
theorem plain_split {a b c d : List Token} {x y : Token} (h : a ++ x :: b = c ++ y :: d)
    (ha : ∀ t ∈ a, isPlain t.kind = true) (hc : ∀ t ∈ c, isPlain t.kind = true)
    (hx : x.kind = .semicolon) (hy : y.kind = .semicolon) : a = c ∧ x = y ∧ b = d := by
  induction a generalizing c with
  | nil =>
    cases c with
    | nil => simpa using h
    | cons u c =>
      obtain ⟨rfl, -⟩ := List.cons.inj h
      have hu := hc x (by simp)
      rw [hx] at hu
      cases hu
  | cons t a ih =>
    cases c with
    | nil =>
      obtain ⟨rfl, -⟩ := List.cons.inj h
      have ht := ha t (by simp)
      rw [hy] at ht
      cases ht
    | cons u c =>
      obtain ⟨rfl, htail⟩ := List.cons.inj h
      have hrec := ih htail (fun v hv => ha v (by simp [hv])) (fun v hv => hc v (by simp [hv]))
      exact ⟨by rw [hrec.1], hrec.2⟩

/-- Plain tokens at the front end before the first semicolon. -/
theorem plain_front {init read ts rest : List Token} {stop : Token}
    (h : init ++ stop :: rest = read ++ ts) (hread : ∀ t ∈ read, isPlain t.kind = true)
    (hstop : stop.kind = .semicolon) :
    ∃ more, init = read ++ more ∧ ts = more ++ stop :: rest := by
  induction read generalizing init with
  | nil => exact ⟨init, rfl, h.symm⟩
  | cons t read ih =>
    cases init with
    | nil =>
      obtain ⟨rfl, -⟩ := List.cons.inj h
      have ht := hread stop (by simp)
      rw [hstop] at ht
      cases ht
    | cons u init =>
      obtain ⟨rfl, htail⟩ := List.cons.inj h
      obtain ⟨more, rfl, hts⟩ := ih htail (fun v hv => hread v (by simp [hv]))
      exact ⟨more, rfl, hts⟩

/-- A tree whose last leaf is a semicolon and whose other leaves are plain. -/
def Simple (t : Tree) : Prop :=
  ∃ init stop, t.leaves = init ++ [stop] ∧ stop.kind = .semicolon ∧
    ∀ u ∈ init, isPlain u.kind = true

/-- Only expressions, words and types stand before the semicolon. -/
theorem IsA.simple_declaration {t : Tree} (h : IsA skips .declaration t) : Simple t := by
  obtain ⟨word, name, type, value, stop, hw, hn, htype, hvalue, hs, rfl⟩ := isA_declaration.mp h
  refine ⟨word :: name :: (Tree.leavesAll type ++ Tree.leavesAll value), stop,
    by simp [Tree.leaves, Tree.leavesAll], hs, ?_⟩
  intro u hu
  simp only [List.mem_cons, List.mem_append] at hu
  rcases hu with rfl | rfl | hu | hu
  · rw [hw]
    rfl
  · rw [hn]
    rfl
  · rcases htype with ⟨clause, hclause, rfl⟩ | rfl
    · exact hclause.leaves_plain rfl u (by simpa [Tree.leavesAll] using hu)
    · simp [Tree.leavesAll] at hu
  · rcases hvalue with ⟨sign, value, hsign, hv, rfl⟩ | rfl
    · simp only [Tree.leavesAll, Tree.leaves, List.append_nil, List.singleton_append,
        List.mem_cons] at hu
      rcases hu with rfl | hu
      · rw [hsign]
        rfl
      · exact hv.leaves_plain rfl u hu
    · simp [Tree.leavesAll] at hu

theorem IsA.simple_assignment {t : Tree} (h : IsA skips .assignment t) : Simple t := by
  obtain ⟨target, sign, value, stop, ht, hs, hv, hstop, rfl⟩ := isA_assignment.mp h
  refine ⟨target :: sign :: value.leaves, stop, by simp [Tree.leaves, Tree.leavesAll], hstop, ?_⟩
  intro u hu
  simp only [List.mem_cons] at hu
  rcases hu with rfl | rfl | hu
  · rw [ht]
    rfl
  · rw [hs]
    rfl
  · exact hv.leaves_plain rfl u hu

theorem IsA.simple_callStatement {t : Tree} (h : IsA skips .callStatement t) : Simple t := by
  obtain ⟨call, stop, hc, hs, rfl⟩ := isA_callStatement.mp h
  exact ⟨call.leaves, stop, by simp [Tree.leaves, Tree.leavesAll], hs, hc.leaves_plain rfl⟩

/-- Where reading got stuck in the front part `init` of what it read, which ends before `rest`. -/
def StuckWithin (init rest : List Token) (s : Stuck) : Prop :=
  ∃ more, more <:+ init ∧ s.rest = more ++ rest

/-- A reader that goes over plain tokens does not get past a semicolon. -/
theorem StuckAfter.within {init rest : List Token} {stop : Token} (hstop : stop.kind = .semicolon)
    {s : Stuck} (h : StuckAfter (init ++ stop :: rest) s) : StuckWithin init (stop :: rest) s := by
  obtain ⟨read, heq, hread⟩ := h
  obtain ⟨more, rfl, hs⟩ := plain_front heq hread hstop
  exact ⟨more, List.suffix_append _ _, hs⟩

/-- A reader of trees that end with their only semicolon does not go past the first semicolon. -/
theorem Reads.within {r : Rule} {p : Parser Tree} (hp : Reads skips r p)
    (hsimple : ∀ t, IsA skips r t → Simple t) {init : List Token}
    (hinit : ∀ t ∈ init, isPlain t.kind = true) {stop : Token} (hstop : stop.kind = .semicolon)
    (rest : List Token) :
    Outcome (fun t rest' => IsA skips r t ∧ t.leaves = init ++ [stop] ∧ rest' = rest)
      (StuckWithin init (stop :: rest)) (p (init ++ stop :: rest)) := by
  refine (hp (init ++ stop :: rest)).imp ?_ (fun _ h => h.within hstop)
  rintro t rest' ⟨ht, heq⟩
  obtain ⟨init', stop', hleaves, hstop', hinit'⟩ := hsimple t ht
  rw [hleaves, List.append_assoc] at heq
  obtain ⟨rfl, rfl, rfl⟩ := plain_split heq hinit hinit' hstop hstop'
  exact ⟨ht, hleaves, rfl⟩

theorem block_stuck {t : Token} (h : t.kind ≠ .openCurly) (n : Nat)
    (p : List Token → Reading Tree) (ts : List Token) :
    block n p (t :: ts) = ⟨[], .error ⟨.token .openCurly, t :: ts⟩⟩ := by
  simp [block, Reading.of, Reading.andThen, exactly, token, h]

/-- Without a brace there is no block, so the statement gets stuck. -/
theorem guarded_stuck {p : Parser Tree} (hp : Reads skips .expression p) (word : Keyword) (n : Nat)
    (q : List Token → Reading Tree) {init : List Token} (hinit : ∀ t ∈ init, isPlain t.kind = true)
    {stop : Token} (hstop : stop.kind = .semicolon) (rest : List Token) :
    ∃ s, guarded word p (block n q) (init ++ stop :: rest) = ⟨[], .error s⟩ ∧
      StuckWithin init (stop :: rest) s := by
  have hword := exactly_outcome (.keyword word) (init ++ stop :: rest)
  rw [guarded]
  cases hx : exactly (.keyword word) (init ++ stop :: rest) with
  | error s =>
    rw [hx] at hword
    exact ⟨s, rfl, init, List.suffix_refl _, hword⟩
  | ok y =>
    rw [hx] at hword
    obtain ⟨start, hw, -, heq⟩ := hword
    have hplain : isPlain start.kind = true := by rw [hw]; rfl
    have hcondition := parenthesized_outcome hp y.2
    simp only [Reading.of, Reading.andThen]
    cases hz : parenthesized p y.2 with
    | error s =>
      rw [hz] at hcondition
      have hstuck : StuckAfter (init ++ stop :: rest) s := heq ▸ StuckAfter.cons hplain hcondition
      exact ⟨s, rfl, hstuck.within hstop⟩
    | ok z =>
      obtain ⟨⟨_, inner, _⟩, ts⟩ := z
      rw [hz] at hcondition
      obtain ⟨o, c, ho, hi, hc, -, -, heq'⟩ := hcondition
      have hread : ∀ t ∈ start :: o :: (inner.leaves ++ [c]), isPlain t.kind = true := by
        intro t ht
        simp only [List.mem_cons, List.mem_append, List.not_mem_nil, or_false] at ht
        rcases ht with rfl | rfl | ht | rfl
        · exact hplain
        · rw [ho]
          rfl
        · exact hi.leaves_plain rfl t ht
        · rw [hc]
          rfl
      have hall : init ++ stop :: rest = (start :: o :: (inner.leaves ++ [c])) ++ ts := by
        rw [heq, heq']
        simp
      -- all that was read is plain, so it ends before the semicolon
      obtain ⟨more, rfl, rfl⟩ := plain_front hall hread hstop
      obtain ⟨t, us, hts, ht⟩ : ∃ t us, more ++ stop :: rest = t :: us ∧ t.kind ≠ .openCurly := by
        cases more with
        | nil => exact ⟨stop, rest, rfl, by simp [hstop]⟩
        | cons t more => exact ⟨t, _, rfl, (isPlain_iff.mp (hinit t (by simp))).2.1⟩
      refine ⟨⟨.token .openCurly, more ++ stop :: rest⟩, ?_, more, List.suffix_append _ _, rfl⟩
      simp only [hts, block_stuck ht, List.nil_append]

/-- A statement without braces is read or given up within its first semicolon. -/
theorem statement_within (n : Nat) {init : List Token}
    (hinit : ∀ t ∈ init, isPlain t.kind = true) {stop : Token} (hstop : stop.kind = .semicolon)
    (rest : List Token) :
    ∃ x, statement n (init ++ stop :: rest) = ⟨[], x⟩ ∧
      Outcome (fun t rest' => IsA skips .statement t ∧ t.leaves = init ++ [stop] ∧ rest' = rest)
        (StuckWithin init (stop :: rest)) x := by
  have hhere : ∀ e, StuckWithin init (stop :: rest) ⟨e, init ++ stop :: rest⟩ :=
    fun e => ⟨init, List.suffix_refl _, rfl⟩
  cases n with
  | zero => exact ⟨_, rfl, hhere .statement⟩
  | succ n =>
    have he := @expression_reads skips n
    -- these statements have one semicolon, at their end, so they end at the first one
    have hsimple : ∀ {r : Rule} {p : Parser Tree}, Reads skips r p →
        (∀ t, IsA skips r t → Simple t) →
        (∀ t, IsA skips r t → IsA skips .statement (.node .statement t [])) →
        ∃ x, (Reading.of (p (init ++ stop :: rest))).andThen
            (fun inner ts => .done (.node .statement inner []) ts) = ⟨[], x⟩ ∧
          Outcome (fun t rest' => IsA skips .statement t ∧ t.leaves = init ++ [stop] ∧ rest' = rest)
            (StuckWithin init (stop :: rest)) x := by
      intro r p hp hr hstatement
      have hwithin := hp.within hr hinit hstop rest
      cases hx : p (init ++ stop :: rest) with
      | error s =>
        rw [hx] at hwithin
        exact ⟨_, rfl, hwithin⟩
      | ok y =>
        rw [hx] at hwithin
        refine ⟨_, rfl, hstatement _ hwithin.1, ?_, hwithin.2.2⟩
        simpa [Tree.leaves, Tree.leavesAll] using hwithin.2.1
    obtain ⟨t, ts, hts, ht⟩ : ∃ t ts, init ++ stop :: rest = t :: ts ∧ t.kind ≠ .openCurly := by
      cases init with
      | nil => exact ⟨stop, rest, rfl, by simp [hstop]⟩
      | cons t init => exact ⟨t, _, rfl, (isPlain_iff.mp (hinit t (by simp))).2.1⟩
    rw [hts] at hsimple hhere ⊢
    rw [statement]
    split
    · exact hsimple (declaration_reads he) (fun _ h => h.simple_declaration)
        (fun _ h => isA_statement.mpr (.inl ⟨_, .inl h, rfl⟩))
    -- there is no brace, so there is no block either
    · obtain ⟨s, hs, hstuck⟩ := guarded_stuck he .if_ n (statement n) hinit hstop rest
      rw [hts] at hs
      cases n with
      | zero => exact ⟨_, rfl, hhere .statement⟩
      | succ n => exact ⟨.error s, by rw [conditional, hs]; rfl, hstuck⟩
    · obtain ⟨s, hs, hstuck⟩ := guarded_stuck he .while_ n (statement n) hinit hstop rest
      rw [hts] at hs
      exact ⟨.error s, by rw [loop, hs]; rfl, hstuck⟩
    · rename_i hcurly
      exact absurd hcurly ht
    · split
      · exact hsimple (callStatement_reads he n) (fun _ h => h.simple_callStatement)
          (fun _ h => isA_statement.mpr (.inl ⟨_, .inr (.inr (.inr (.inr (.inl h)))), rfl⟩))
      · exact hsimple (assignment_reads he) (fun _ h => h.simple_assignment)
          (fun _ h => isA_statement.mpr (.inl ⟨_, .inr (.inl h), rfl⟩))
    · exact ⟨_, rfl, hhere .statement⟩

/-- The token neither ends the skipping of tokens nor closes a statement. -/
def isSkipped : Kind → Bool
  | .semicolon | .closeCurly | .keyword .var | .keyword .if_ | .keyword .while_ => false
  | _ => true

theorem skip_through {more : List Token} (hmore : ∀ t ∈ more, isSkipped t.kind = true)
    {stop : Token} (hstop : stop.kind = .semicolon) (rest : List Token) :
    skip (more ++ stop :: rest) = rest := by
  induction more with
  | nil => simp [skip, hstop]
  | cons t more ih =>
    have ht := hmore t (by simp)
    rw [List.cons_append, skip]
    split
    · simp_all [isSkipped]
    · simp_all [isSkipped]
    · simp_all [isSkipped]
    · simp_all [isSkipped]
    · simp_all [isSkipped]
    · exact ih fun u hu => hmore u (by simp [hu])

/-- Wherever reading got stuck before the first semicolon, it goes on right behind it. -/
theorem resume_through {init more : List Token} (hmore : more <:+ init)
    (hinit : ∀ t ∈ init, isPlain t.kind = true) (htail : ∀ t ∈ init.tail, isSkipped t.kind = true)
    {stop : Token} (hstop : stop.kind = .semicolon) (rest : List Token) :
    resume (init ++ stop :: rest) (more ++ stop :: rest) = rest := by
  cases init with
  | nil =>
    obtain rfl := List.suffix_nil.mp hmore
    simp [resume, hstop]
  | cons t init =>
    rcases List.suffix_cons_iff.mp hmore with rfl | hmore
    · have ht := isPlain_iff.mp (hinit t (by simp))
      simpa [resume, ht] using skip_through htail hstop rest
    · have hlen : (more ++ stop :: rest).length ≠ (t :: init ++ stop :: rest).length := by
        have := hmore.length_le
        simp only [List.length_append, List.length_cons]
        omega
      unfold resume
      rw [if_neg hlen]
      exact skip_through (fun u hu => htail u (hmore.subset hu)) hstop rest

/-- The only semicolon of a malformed statement is its last token. -/
theorem Malformed.split {m : List Token} (h : Malformed m) :
    ∃ init stop, m = init ++ [stop] ∧ stop.kind = .semicolon ∧
      (∀ t ∈ init, isPlain t.kind = true) ∧ ∀ t ∈ init.tail, isSkipped t.kind = true := by
  obtain ⟨init, stop, rfl, hstop, hinit⟩ := h.semicolon
  have hplain : ∀ t ∈ init, isPlain t.kind = true := fun t ht =>
    isPlain_iff.mpr ⟨hinit t ht, h.no_brace t (by simp [ht])⟩
  refine ⟨init, stop, rfl, hstop, hplain, fun t ht => ?_⟩
  have hword := h.no_keyword t (by cases init <;> simp_all)
  have := isPlain_iff.mp (hplain t (List.mem_of_mem_tail ht))
  unfold isSkipped
  split <;> simp_all

/-- Tokens of a malformed statement are skipped, all of them and no others, with one mistake. -/
theorem Malformed.recovering {t : Token} {ts : List Token} (h : Malformed (t :: ts)) (n : Nat)
    (rest : List Token) :
    ∃ s, recovering (statement n) (t :: ts ++ rest) = ⟨[s], .ok (skippedTree t ts, rest)⟩ ∧
      ∃ u ∈ t :: ts, s.rest.head? = some u := by
  obtain ⟨init, stop, hm, hstop, hinit, htail⟩ := h.split
  have hall : t :: ts ++ rest = init ++ stop :: rest := by simp [hm]
  obtain ⟨x, hx, hout⟩ := @statement_within (fun _ => False) n init hinit stop hstop rest
  rw [← hall] at hx
  cases x with
  | ok y =>
    obtain ⟨hy, hleaves, -⟩ := hout
    refine absurd (Derives.sentence hy) ?_
    simpa [Tree.leavesAll, hleaves, ← hm] using h.no_sentence
  | error s =>
    obtain ⟨more, hmore, hs⟩ := hout
    have hresume := resume_through hmore hinit htail hstop rest
    rw [← hs, ← hall] at hresume
    refine ⟨s, ?_, ?_⟩
    · have hempty : s.rest.isEmpty = false := by simp [hs]
      rw [List.cons_append] at hresume hx ⊢
      simp [Parser.recovering, hx, hempty, hresume, skippedTree]
    · cases more with
      | nil => exact ⟨stop, by simp [hm], by simp [hs]⟩
      | cons u more => exact ⟨u, by simp [hm, hmore.subset List.mem_cons_self], by simp [hs]⟩

end ImpC.Grammar
