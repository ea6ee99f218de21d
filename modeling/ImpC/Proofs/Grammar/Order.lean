import ImpC.Proofs.Grammar.Braces

/-!
# Mistakes in the order of the text

Inside a statement no token is behind two mistakes, and each mistake is further on than the one before.
Where a statement is given up, reading goes on behind the token it got stuck at, or right there if that
token closes a block or announces a statement. In the first case the block takes it, and in the second
the statement that it announces gets past it.
-/
namespace ImpC

/-- The tokens that are left where a reading ends or gets stuck. -/
def Reading.left {α : Type} (r : Reading α) : List Token :=
  match r.result with
  | .ok (_, ts) => ts
  | .error s => s.rest

namespace Grammar

open ImpC.Parser

variable {skips : List Token → Prop} {α β : Type} {ts : List Token}

/-- Mistakes among the tokens `ts`, each further on than the one before, at places where `lower` tokens
or more and fewer than `upper` are left. -/
structure InOrder (ts : List Token) (lower upper : Nat) (ms : List Stuck) : Prop where
  suffix : ∀ m ∈ ms, m.rest <:+ ts
  falling : ms.Pairwise fun a b => b.rest.length < a.rest.length
  above : ∀ m ∈ ms, lower ≤ m.rest.length
  below : ∀ m ∈ ms, m.rest.length < upper

namespace InOrder

variable {lower upper : Nat} {ms ms' : List Stuck}

theorem nil : InOrder ts lower upper [] := by
  constructor <;> simp

theorem mono (h : InOrder ts lower upper ms) {us : List Token} {lower' upper' : Nat}
    (hts : ts <:+ us) (hlower : lower' ≤ lower) (hupper : upper ≤ upper') :
    InOrder us lower' upper' ms where
  suffix m hm := (h.suffix m hm).trans hts
  falling := h.falling
  above m hm := hlower.trans (h.above m hm)
  below m hm := (h.below m hm).trans_le hupper

theorem append (h : InOrder ts lower upper ms) (h' : InOrder ts lower upper ms')
    (hbetween : ∀ m ∈ ms, ∀ m' ∈ ms', m'.rest.length < m.rest.length) :
    InOrder ts lower upper (ms ++ ms') where
  suffix := List.forall_mem_append.mpr ⟨h.suffix, h'.suffix⟩
  falling := List.pairwise_append.mpr ⟨h.falling, h'.falling, hbetween⟩
  above := List.forall_mem_append.mpr ⟨h.above, h'.above⟩
  below := List.forall_mem_append.mpr ⟨h.below, h'.below⟩

/-- One more mistake, behind all others. -/
theorem concat {s : Stuck} (h : InOrder ts (s.rest.length + 1) ts.length ms) (hs : s.rest <:+ ts) :
    InOrder ts s.rest.length (ts.length + 1) (ms ++ [s]) := by
  have hlast : InOrder ts s.rest.length (ts.length + 1) [s] :=
    ⟨List.forall_mem_singleton.mpr hs, List.pairwise_singleton _ s,
      List.forall_mem_singleton.mpr (Nat.le_refl _),
      List.forall_mem_singleton.mpr (Nat.lt_succ_of_le hs.length_le)⟩
  refine (h.mono (List.suffix_refl ts) (Nat.le_succ _) (Nat.le_succ _)).append hlast ?_
  intro m hm m' hm'
  rw [List.mem_singleton.mp hm']
  exact h.above m hm

end InOrder

theorem left_of_ok {r : Reading α} {a : α} {rest : List Token} (h : r.result = .ok (a, rest)) :
    r.left = rest := by
  rw [Reading.left, h]

theorem left_of_error {r : Reading α} {s : Stuck} (h : r.result = .error s) : r.left = s.rest := by
  rw [Reading.left, h]

/-- The mistakes of a reading lie behind the first of the tokens `ts` and before those that are left. -/
structure Orderly (ts : List Token) (r : Reading α) : Prop where
  left : r.left <:+ ts
  inOrder : InOrder ts (r.left.length + 1) ts.length r.mistakes

theorem Orderly.of {x : Except Stuck (α × List Token)} (h : (Reading.of x).left <:+ ts) :
    Orderly ts (Reading.of x) := ⟨h, .nil⟩

theorem Orderly.done (a : α) (ts : List Token) : Orderly ts (Reading.done a ts) :=
  .of (List.suffix_refl ts)

/-- What comes behind a reading is read from what it left. -/
theorem Orderly.andThen {r : Reading α} {next : α → List Token → Reading β} (hr : Orderly ts r)
    (hnext : ∀ a rest, r.result = .ok (a, rest) → rest <:+ ts → Orderly rest (next a rest)) :
    Orderly ts (r.andThen next) := by
  cases hx : r.result with
  | error s =>
    obtain ⟨hsuffix, hms⟩ := hr
    rw [left_of_error hx] at hsuffix hms
    rw [andThen_of_error hx]
    exact ⟨hsuffix, hms⟩
  | ok y =>
    obtain ⟨a, rest⟩ := y
    obtain ⟨hsuffix, hms⟩ := hr
    rw [left_of_ok hx] at hsuffix hms
    rw [andThen_of_ok hx]
    have hq := hnext a rest hx hsuffix
    have hlength := hq.left.length_le
    refine ⟨hq.left.trans hsuffix, ?_⟩
    refine (hms.mono (List.suffix_refl ts) (Nat.succ_le_succ hlength) (Nat.le_refl _)).append
      (hq.inOrder.mono hsuffix (Nat.le_refl _) hsuffix.length_le) ?_
    intro m hm m' hm'
    have habove := hms.above m hm
    have hbelow := hq.inOrder.below m' hm'
    omega

theorem Orderly.append {r : Reading α} (h : Orderly ts r) (us : List Token) : Orderly (us ++ ts) r :=
  ⟨h.left.trans (List.suffix_append us ts), h.inOrder.mono (List.suffix_append us ts) (Nat.le_refl _)
    (List.suffix_append us ts).length_le⟩

/-- A statement goes on behind each of its blocks, so its mistakes are those of its blocks in order. -/
theorem Course.orderly {b : List Token → Reading Tree} {before : List Tree} {r : Reading Tree}
    (h : Course b before ts r) (hb : ∀ us, us <:+ ts → Orderly us (b us)) : Orderly ts r := by
  induction h with
  | stuck h => exact .of h.suffix
  | @done before ts tree => exact .done tree ts
  | @semicolon before stop ts tree => exact (Orderly.done tree ts).append [stop]
  | @plain before read ts r _ _ ih =>
    exact (ih fun us hus => hb us (hus.trans (List.suffix_append read ts))).append read
  | @block before ts next _ _ ih =>
    refine (hb ts (List.suffix_refl ts)).andThen fun body rest hx hrest => ?_
    exact ih body rest hx fun us hus => hb us (hus.trans hrest)

/-! Stepping over a statement. -/

/-- Skipping ends before tokens of these kinds. -/
def isLanding (kind : Kind) : Bool := kind = .closeCurly || announces kind

/-- Skipping drops a token unless it ends where it starts. -/
theorem skip_cases (ts : List Token) :
    (skip ts).length < ts.length ∨ skip ts = ts ∧ ∀ t ∈ ts.head?, isLanding t.kind = true := by
  cases ts with
  | nil => exact .inr ⟨rfl, by simp⟩
  | cons t ts =>
    rw [skip]
    split
    · exact .inr ⟨rfl, by simp [isLanding, *]⟩
    · exact .inr ⟨rfl, by simp [isLanding, announces, *]⟩
    · exact .inr ⟨rfl, by simp [isLanding, announces, *]⟩
    · exact .inr ⟨rfl, by simp [isLanding, announces, *]⟩
    · exact .inl (Nat.lt_succ_self _)
    · exact .inl (Nat.lt_succ_of_le (skip_suffix ts).length_le)

/-- Reading goes on behind the token where it got stuck, or there if a statement may go on there. -/
theorem resume_cases {t : Token} {ts stuck : List Token} (hne : stuck ≠ []) :
    (resume (t :: ts) stuck).length < stuck.length ∨
      resume (t :: ts) stuck = stuck ∧ ∀ u ∈ stuck.head?, isLanding u.kind = true := by
  unfold resume
  split
  · left
    split
    · exact absurd rfl hne
    · split
      · exact Nat.lt_succ_self _
      · exact Nat.lt_succ_of_le (skip_suffix _).length_le
  · exact skip_cases stuck

section Stepping

variable {p : List Token → Reading Tree} {t : Token}

/-- A statement is read, or stepped over with one more mistake. -/
theorem recovering_cases (p : List Token → Reading Tree) (t : Token) (ts : List Token) :
    recovering p (t :: ts) = p (t :: ts) ∨ ∃ s tree, (p (t :: ts)).result = .error s ∧ s.rest ≠ [] ∧
      recovering p (t :: ts) =
        ⟨(p (t :: ts)).mistakes ++ [s], .ok (tree, resume (t :: ts) s.rest)⟩ := by
  rw [recovering]
  cases hx : (p (t :: ts)).result with
  | ok y => exact .inl rfl
  | error s =>
    dsimp only
    by_cases hrest : s.rest.isEmpty = true
    · exact .inl (if_pos hrest)
    · exact .inr ⟨s, _, rfl, by simpa using hrest, if_neg hrest⟩

/-- Reading a statement or stepping over it takes a token. -/
theorem recovering_left (hreads : ReadsOn skips .statement p) (t : Token) (ts : List Token) :
    (recovering p (t :: ts)).left <:+ ts := by
  have hread := recovering_readsOn hreads (t :: ts)
  rw [ReadingOutcome] at hread
  cases hx : (recovering p (t :: ts)).result with
  | error s =>
    rw [left_of_error hx, recovering_error hx]
    exact List.nil_suffix
  | ok y =>
    obtain ⟨tree, rest⟩ := y
    rw [hx] at hread
    obtain ⟨u, leaves, hleaves⟩ := List.exists_cons_of_ne_nil tree.leaves_ne_nil
    have heq : t :: ts = u :: (leaves ++ rest) := by
      rw [← List.cons_append, ← hleaves]
      exact hread.2
    rw [left_of_ok hx, (List.cons.inj heq).2]
    exact List.suffix_append leaves rest

/-- The mistakes of a statement that starts with `t`, or of stepping over it. There is one at `t` only if
`t` announces nothing, and one where reading goes on only if skipping ended there. -/
structure Stepped (t : Token) (ts : List Token) (r : Reading Tree) : Prop where
  left : r.left <:+ ts
  inOrder : InOrder (t :: ts) r.left.length (ts.length + 2) r.mistakes
  first : ∀ m ∈ r.mistakes, m.rest.length = ts.length + 1 → announces t.kind = false
  last : ∀ m ∈ r.mistakes, m.rest.length = r.left.length →
    ∃ u ∈ r.left.head?, isLanding u.kind = true

theorem Orderly.stepped {r : Reading Tree} (h : Orderly (t :: ts) r) (hleft : r.left <:+ ts) :
    Stepped t ts r where
  left := hleft
  inOrder := h.inOrder.mono (List.suffix_refl _) (Nat.le_succ _) (Nat.le_succ _)
  first m hm heq := by
    have hbelow := h.inOrder.below m hm
    rw [List.length_cons] at hbelow
    omega
  last m hm heq := by
    have habove := h.inOrder.above m hm
    omega

/-- The new mistake is behind those before it, and skipping may end right at it. -/
theorem recovering_stepped (hreads : ReadsOn skips .statement p) (hp : Orderly (t :: ts) (p (t :: ts)))
    (hannounced : announces t.kind = true → Orderly ts (p (t :: ts))) :
    Stepped t ts (recovering p (t :: ts)) := by
  have hleft := recovering_left hreads t ts
  rcases recovering_cases p t ts with heq | ⟨s, tree, hx, hne, heq⟩
  · rw [heq] at hleft ⊢
    exact hp.stepped hleft
  · have hstuck := left_of_error hx
    obtain ⟨hsuffix, hms⟩ := hp
    rw [hstuck] at hsuffix hms
    have hresume : (resume (t :: ts) s.rest).length ≤ s.rest.length := by
      rcases @resume_cases t ts s.rest hne with hlt | ⟨hsame, -⟩
      · exact hlt.le
      · rw [hsame]
    rw [heq] at hleft ⊢
    refine ⟨hleft, ?_, ?_, ?_⟩
    · exact (hms.concat hsuffix).mono (List.suffix_refl _) hresume (Nat.le_refl _)
    · intro m hm hfirst
      rcases List.mem_append.mp hm with hm | hm
      · have hbelow := hms.below m hm
        rw [List.length_cons] at hbelow
        omega
      · rw [List.mem_singleton.mp hm] at hfirst
        by_contra hword
        have hbehind := (hannounced (by simpa using hword)).left.length_le
        rw [hstuck] at hbehind
        omega
    · intro m hm hlast
      have hleft : (⟨(p (t :: ts)).mistakes ++ [s], .ok (tree, resume (t :: ts) s.rest)⟩ :
          Reading Tree).left = resume (t :: ts) s.rest := rfl
      rw [hleft] at hlast ⊢
      rcases @resume_cases t ts s.rest hne with hlt | ⟨hsame, hlanding⟩
      · rcases List.mem_append.mp hm with hm | hm
        · have habove := hms.above m hm
          omega
        · rw [List.mem_singleton.mp hm] at hlast
          omega
      · -- nothing was skipped, so the token that reading got stuck at is one where skipping ends
        obtain ⟨u, us, hu⟩ := List.exists_cons_of_ne_nil hne
        rw [hsame, hu]
        exact ⟨u, rfl, hlanding u (by rw [hu]; rfl)⟩

/-- The mistakes `ms` of the statements of a block, which are the tokens `ts` up to `rest`. There is one
at the first token only if skipping does not end there. -/
structure Listed (ts rest : List Token) (ms : List Stuck) : Prop where
  left : rest <:+ ts
  inOrder : InOrder ts rest.length (ts.length + 1) ms
  first : ∀ m ∈ ms, m.rest.length = ts.length → ∀ t ∈ ts.head?, isLanding t.kind = false

theorem Listed.nil (ts : List Token) : Listed ts ts [] :=
  ⟨List.suffix_refl ts, .nil, by simp⟩

/-- The mistakes of a statement are some of a block that goes on behind it. -/
theorem Stepped.listed {r : Reading Tree} (h : Stepped t ts r) (ht : t.kind ≠ .closeCurly) :
    Listed (t :: ts) r.left r.mistakes := by
  refine ⟨h.left.trans (List.suffix_cons t ts), h.inOrder, ?_⟩
  intro m hm hlength u hu
  cases hu
  rw [isLanding, h.first m hm hlength, Bool.or_false]
  exact decide_eq_false ht

/-- A statement and those behind it have no mistake at one token. -/
theorem Stepped.append {r : Reading Tree} (h : Stepped t ts r) (ht : t.kind ≠ .closeCurly)
    {rest : List Token} {ms : List Stuck} (hmore : Listed r.left rest ms) :
    Listed (t :: ts) rest (r.mistakes ++ ms) := by
  have hfirst := h.listed ht
  have hlength := h.left.length_le
  refine ⟨hmore.left.trans hfirst.left, ?_, ?_⟩
  · refine (hfirst.inOrder.mono (List.suffix_refl _) hmore.left.length_le (Nat.le_refl _)).append
      (hmore.inOrder.mono hfirst.left (Nat.le_refl _) (Nat.succ_le_succ hfirst.left.length_le)) ?_
    intro m hm m' hm'
    have habove := h.inOrder.above m hm
    have hbelow := hmore.inOrder.below m' hm'
    -- else both are where reading went on, and skipping ended there
    by_contra hnot
    obtain ⟨u, hu, hlanding⟩ := h.last m hm (by omega)
    rw [hmore.first m' hm' (by omega) u hu] at hlanding
    cases hlanding
  · intro m hm heq
    rcases List.mem_append.mp hm with hm | hm
    · exact hfirst.first m hm heq
    · have hbelow := hmore.inOrder.below m hm
      rw [List.length_cons] at heq
      omega

theorem andThen_done (r : Reading α) (f : α → β) :
    (r.andThen fun a ts => .done (f a) ts).mistakes = r.mistakes ∧
      (r.andThen fun a ts => .done (f a) ts).left = r.left := by
  cases hx : r.result with
  | error s =>
    rw [andThen_of_error hx, left_of_error hx]
    exact ⟨rfl, rfl⟩
  | ok y =>
    rw [andThen_of_ok hx, left_of_ok hx]
    exact ⟨List.append_nil _, rfl⟩

/-- The statements of a block make their mistakes in order, up to its closing brace. -/
theorem statements_listed (bound : Nat)
    (hstep : ∀ t us, t :: us <:+ ts → Stepped t us (recovering p (t :: us))) :
    Listed ts (statements p (· = .closeCurly) bound ts).left
      (statements p (· = .closeCurly) bound ts).mistakes := by
  induction bound generalizing ts with
  | zero => exact .nil ts
  | succ bound ih =>
    cases ts with
    | nil => exact .nil []
    | cons t ts =>
      rw [statements]
      by_cases hstop : t.kind = .closeCurly
      · rw [if_pos (decide_eq_true hstop)]
        exact .nil (t :: ts)
      · rw [if_neg (by simpa using hstop)]
        have hfirst := hstep t ts (List.suffix_refl _)
        cases hx : (recovering p (t :: ts)).result with
        | error s =>
          have hlisted := hfirst.listed hstop
          rw [left_of_error hx] at hlisted
          rw [andThen_of_error hx]
          exact hlisted
        | ok y =>
          obtain ⟨first, rest⟩ := y
          have hleft := left_of_ok hx
          -- where the first statement ends the next one begins
          have hmore := ih fun u us hus =>
            hstep u us (hus.trans (hleft ▸ (hfirst.listed hstop).left))
          obtain ⟨hmistakes, hend⟩ :=
            andThen_done (statements p (· = .closeCurly) bound rest) (first :: ·)
          rw [← hmistakes, ← hend] at hmore
          rw [andThen_of_ok hx]
          exact hfirst.append hstop (hleft ▸ hmore)

end Stepping

/-! Inside a statement. -/

/-- What statements of up to `bound` tokens do: their mistakes are in order, and behind the first token
if it announces the statement. -/
structure Steps (bound : Nat) : Prop where
  orderly : ∀ ts, ts.length < bound → Orderly ts (statement bound ts)
  announced : ∀ t ts, ts.length + 1 < bound → announces t.kind = true →
    Orderly ts (statement bound (t :: ts))

theorem Steps.stepped {bound : Nat} (h : Steps bound) {t : Token} {ts : List Token}
    (hlength : ts.length + 1 < bound) : Stepped t ts (recovering (statement bound) (t :: ts)) :=
  recovering_stepped (@statement_readsOn (fun _ => True) bound) (h.orderly (t :: ts) hlength)
    (h.announced t ts hlength)

theorem InOrder.pos {upper : Nat} {ms : List Stuck} (h : InOrder ts 0 upper ms)
    (hms : ∀ m ∈ ms, m.rest ≠ []) : InOrder ts 1 upper ms :=
  ⟨h.suffix, h.falling, fun m hm => List.length_pos_iff.mpr (hms m hm), h.below⟩

/-- A block takes the brace at which skipping ended in it, or its mistakes lie before the end. -/
theorem block_orderly {bound : Nat} (h : Steps bound) {ts : List Token} (hlength : ts.length ≤ bound) :
    Orderly ts (block bound (statement bound) ts) := by
  cases ts with
  | nil => exact .of List.nil_suffix
  | cons t ts =>
    by_cases ht : t.kind = .openCurly
    · rw [List.length_cons] at hlength
      have hstep (u : Token) (us : List Token) (hus : u :: us <:+ ts) :
          Stepped u us (recovering (statement bound) (u :: us)) := by
        have hshorter := hus.length_le
        rw [List.length_cons] at hshorter
        exact h.stepped (by omega)
      obtain ⟨hleft, hms, -⟩ := statements_listed bound hstep
      have hrecovers := statements_recover (statement_recovers bound) (· = .closeCurly) bound ts
      have hstops := statements_outcome (@statement_readsOn (fun _ => True) bound) (· = .closeCurly)
        bound ts
      rw [ReadingOutcome] at hstops
      rw [block, andThen_exactly ht]
      cases hx : (statements (statement bound) (· = .closeCurly) bound ts).result with
      | error s =>
        -- the tokens ended inside the block, and no mistake is at the end
        rw [left_of_error hx, statements_error hx] at hms
        rw [andThen_of_error hx]
        refine ⟨?_, ?_⟩
        · rw [left_of_error rfl, statements_error hx]
          exact List.nil_suffix
        · rw [left_of_error rfl, statements_error hx]
          exact (hms.pos hrecovers).mono (List.suffix_cons t ts) (Nat.le_refl _) (Nat.le_refl _)
      | ok y =>
        obtain ⟨body, rest⟩ := y
        rw [left_of_ok hx] at hleft hms
        rw [hx] at hstops
        rw [andThen_of_ok hx]
        cases rest with
        | nil =>
          refine ⟨List.nil_suffix, ?_⟩
          rw [andThen_of_error rfl, Reading.of, List.append_nil]
          exact (hms.pos hrecovers).mono (List.suffix_cons t ts) (Nat.le_refl _) (Nat.le_refl _)
        | cons c rest =>
          -- the block takes the brace, so a mistake at it lies before what is left
          have hc : c.kind = .closeCurly := of_decide_eq_true (hstops.2.2 (by omega) c rfl)
          rw [andThen_exactly hc]
          refine ⟨(List.suffix_cons c rest).trans (hleft.trans (List.suffix_cons t ts)), ?_⟩
          rw [Reading.done, Reading.of, List.append_nil]
          exact hms.mono (List.suffix_cons t ts) (Nat.le_refl _) (Nat.le_refl _)
    · rw [block_stuck ht]
      exact .of (List.suffix_refl _)

/-- The statements in a block are shorter than the block, so the induction is on the number of
tokens. -/
theorem statement_steps (bound : Nat) : Steps bound := by
  induction bound with
  | zero => exact ⟨fun _ h => absurd h (Nat.not_lt_zero _), fun _ _ h => absurd h (Nat.not_lt_zero _)⟩
  | succ bound ih =>
    have hb {ts : List Token} (hlength : ts.length ≤ bound) (us : List Token) (hus : us <:+ ts) :
        Orderly us (block bound (statement bound) us) :=
      block_orderly ih (hus.length_le.trans hlength)
    refine ⟨fun ts hlength => ?_, fun t ts hlength ht => ?_⟩
    · exact (statement_course bound ts).orderly (hb (Nat.lt_succ_iff.mp hlength))
    · cases bound with
      | zero => exact absurd (Nat.succ_lt_succ_iff.mp hlength) (Nat.not_lt_zero _)
      | succ n => exact (announced_course ht ts).orderly (hb (by omega))

end Grammar

end ImpC
