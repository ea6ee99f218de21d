import Mathlib.Data.List.Infix
import ImpC.Proofs.Grammar.Course

/-!
# Reading to the end

Only the end of the tokens can stop the parser, and only inside a statement. A statement that fails
elsewhere is stepped over, and no block that was entered is given up for it. What is stepped over may
have opening braces in it but no closing ones, except outside all blocks; so the blocks entered are
never more than the closing braces to come, and where braces pair up all of them are closed.
-/
namespace ImpC.Grammar

open ImpC.Parser

variable {skips : List Token → Prop} {α β : Type}

def opens (ts : List Token) : Nat := ts.countP (·.kind = .openCurly)

def closes (ts : List Token) : Nat := ts.countP (·.kind = .closeCurly)

/-- Braces pair up, and the last token ends a statement or a block. -/
structure Braced (ts : List Token) : Prop where
  last : ∃ t, ts.getLast? = some t ∧ (t.kind = .semicolon ∨ t.kind = .closeCurly)
  nested : ∀ pre, pre <+: ts → closes pre ≤ opens pre
  balanced : opens ts = closes ts

/-- What is left to read where `depth` blocks are open: it closes them, and all that it opens, and
does not end inside a statement. -/
structure Inside (depth : Nat) (ts : List Token) : Prop where
  last : ∀ t ∈ ts.getLast?, t.kind = .semicolon ∨ t.kind = .closeCurly
  nested : ∀ rest, rest <:+ ts → opens rest ≤ closes rest
  enough : opens ts + depth ≤ closes ts

section Counting

variable {t : Token} {ts us : List Token}

theorem opens_append : opens (ts ++ us) = opens ts + opens us := List.countP_append

theorem closes_append : closes (ts ++ us) = closes ts + closes us := List.countP_append

theorem opens_open (h : t.kind = .openCurly) : opens (t :: ts) = opens ts + 1 := by
  simp [opens, h]

theorem closes_open (h : t.kind = .openCurly) : closes (t :: ts) = closes ts := by
  simp [closes, h]

theorem opens_close (h : t.kind = .closeCurly) : opens (t :: ts) = opens ts := by
  simp [opens, h]

theorem closes_close (h : t.kind = .closeCurly) : closes (t :: ts) = closes ts + 1 := by
  simp [closes, h]

theorem opens_le_cons (t : Token) (ts : List Token) : opens ts ≤ opens (t :: ts) :=
  (List.sublist_cons_self t ts).countP_le

theorem closes_cons (h : t.kind ≠ .closeCurly) : closes (t :: ts) = closes ts := by
  simp [closes, h]

theorem no_braces (h : ∀ t ∈ ts, t.kind ≠ .openCurly ∧ t.kind ≠ .closeCurly) :
    opens ts = 0 ∧ closes ts = 0 := by
  constructor
  · apply List.countP_eq_zero.mpr
    intro t ht
    simpa using (h t ht).1
  · apply List.countP_eq_zero.mpr
    intro t ht
    simpa using (h t ht).2

end Counting

/-- Where braces pair up, what is left never opens more than it closes. -/
theorem Braced.inside {ts : List Token} (h : Braced ts) : Inside 0 ts := by
  obtain ⟨u, hu, hkind⟩ := h.last
  constructor
  · intro t ht
    rw [hu] at ht
    cases ht
    exact hkind
  · intro rest hrest
    obtain ⟨pre, hpre⟩ := hrest
    have hnested := h.nested pre ⟨rest, hpre⟩
    have hbalanced := h.balanced
    rw [← hpre, opens_append, closes_append] at hbalanced
    omega
  · have hbalanced := h.balanced
    omega

namespace Inside

variable {depth : Nat} {t : Token} {ts us : List Token}

/-- What is left further on, if as many blocks are open there. -/
theorem suffix (us : List Token) (h : Inside depth (us ++ ts)) {depth' : Nat}
    (henough : opens ts + depth' ≤ closes ts) : Inside depth' ts := by
  constructor
  · intro t ht
    apply h.last
    rw [List.getLast?_append, ht]
    rfl
  · intro rest hrest
    exact h.nested rest (hrest.trans (List.suffix_append us ts))
  · exact henough

theorem weaken (h : Inside (depth + 1) ts) : Inside depth ts := by
  have henough := h.enough
  exact suffix [] h (by omega)

theorem ne_nil (h : Inside (depth + 1) ts) : ts ≠ [] := by
  intro hts
  have henough := h.enough
  rw [hts] at henough
  simp [closes] at henough

/-- A token that closes no block is passed over. -/
theorem tail (h : Inside depth (t :: ts)) (ht : t.kind ≠ .closeCurly) : Inside depth ts := by
  have henough := h.enough
  have hopens := opens_le_cons t ts
  rw [closes_cons ht] at henough
  exact suffix [t] h (by omega)

/-- Outside all blocks any token is. -/
theorem tail_outside (h : Inside 0 (t :: ts)) : Inside 0 ts := by
  have hnested := h.nested ts (List.suffix_cons t ts)
  exact suffix [t] h (by omega)

/-- An opening brace opens one more block. -/
theorem opened (h : Inside depth (t :: ts)) (ht : t.kind = .openCurly) : Inside (depth + 1) ts := by
  have henough := h.enough
  rw [opens_open ht, closes_open ht] at henough
  exact suffix [t] h (by omega)

/-- A closing brace closes the innermost block. -/
theorem closed (h : Inside (depth + 1) (t :: ts)) (ht : t.kind = .closeCurly) : Inside depth ts := by
  have henough := h.enough
  rw [opens_close ht, closes_close ht] at henough
  exact suffix [t] h (by omega)

theorem without_braces (h : Inside depth (us ++ ts))
    (hus : ∀ t ∈ us, t.kind ≠ .openCurly ∧ t.kind ≠ .closeCurly) : Inside depth ts := by
  have henough := h.enough
  obtain ⟨hopens, hcloses⟩ := no_braces hus
  rw [opens_append, closes_append] at henough
  exact suffix us h (by omega)

/-- Plain tokens end no statement, so something follows them. -/
theorem plain (h : Inside depth (us ++ ts)) (hne : us ++ ts ≠ [])
    (hus : ∀ t ∈ us, isPlain t.kind = true) : Inside depth ts ∧ ts ≠ [] := by
  constructor
  · apply h.without_braces
    intro t ht
    exact (isPlain_iff.mp (hus t ht)).2
  · intro hts
    rw [hts, List.append_nil] at h hne
    have hlast := h.last (us.getLast hne) (by rw [List.getLast?_eq_some_getLast hne]; rfl)
    obtain ⟨hsemicolon, -, hclose⟩ := isPlain_iff.mp (hus _ (List.getLast_mem hne))
    exact hlast.elim hsemicolon hclose

theorem stuckAfter (h : Inside depth ts) (hne : ts ≠ []) {s : Stuck} (hs : StuckAfter ts s) :
    Inside depth s.rest ∧ s.rest ≠ [] := by
  obtain ⟨read, heq, hread⟩ := hs
  rw [heq] at h hne
  exact h.plain hne hread

theorem skip (h : Inside depth ts) : Inside depth (Parser.skip ts) := by
  induction ts with
  | nil => exact h
  | cons t ts ih =>
    rw [Parser.skip]
    split
    case h_1 | h_2 | h_3 | h_4 => exact h
    case h_5 hkind => exact h.tail (by simp [hkind])
    case h_6 hclose _ _ _ _ => exact ih (h.tail hclose)

/-- Going on after a failed statement closes no block that is open. -/
theorem resume (h : Inside depth (t :: ts)) (ht : depth = 0 ∨ t.kind ≠ .closeCurly)
    {stuck : List Token} (hstuck : Inside depth stuck) (hsuffix : stuck <:+ t :: ts) :
    Inside depth (Parser.resume (t :: ts) stuck) := by
  have htail : Inside depth ts := by
    by_cases hkind : t.kind = .closeCurly
    · have hdepth : depth = 0 := ht.resolve_right (fun hne => hne hkind)
      subst hdepth
      exact h.tail_outside
    · exact h.tail hkind
  unfold Parser.resume
  by_cases hlength : stuck.length = (t :: ts).length
  · have heq : stuck = t :: ts := hsuffix.eq_of_length hlength
    rw [if_pos hlength, heq]
    dsimp only
    split
    · exact htail
    · exact htail.skip
  · rw [if_neg hlength]
    exact hstuck.skip

end Inside

/-- Where `depth` blocks are open, the reading does not come to the end before it is done or stuck. -/
def Keeps (depth : Nat) (p : List Token → Reading α) : Prop :=
  ∀ ts, ts ≠ [] → Inside depth ts →
    ReadingOutcome (fun _ _ rest => Inside depth rest)
      (fun s => Inside depth s.rest ∧ s.rest ≠ []) (p ts)

section Statements

variable {depth : Nat} {p : List Token → Reading Tree}

/-- A statement that fails before the end is stepped over. -/
theorem recovering_keeps (hp : Keeps depth p) (hreads : ReadsOn skips .statement p) {t : Token}
    {ts : List Token} (ht : depth = 0 ∨ t.kind ≠ .closeCurly) (h : Inside depth (t :: ts)) :
    ReadingOutcome (fun _ _ rest => Inside depth rest) (fun _ => False)
      (recovering p (t :: ts)) := by
  have hkeeps := hp (t :: ts) (by simp) h
  have hsuffix := hreads (t :: ts)
  rw [recovering]
  cases hx : (p (t :: ts)).result with
  | ok y =>
    simp only [ReadingOutcome, hx, Outcome] at hkeeps ⊢
    exact hkeeps
  | error s =>
    simp only [ReadingOutcome, hx, Outcome] at hkeeps hsuffix
    have hrest : s.rest.isEmpty = false := by simpa using hkeeps.2
    simp only [ReadingOutcome, hrest, Bool.false_eq_true, if_false, Outcome]
    exact h.resume ht hkeeps.1 hsuffix

/-- The statements of a block end before the brace that closes it. -/
theorem statements_keep (hp : Keeps depth p) (hreads : ReadsOn skips .statement p)
    {stops : Kind → Bool} (hstops : depth = 0 ∨ stops .closeCurly = true) (bound : Nat)
    {ts : List Token} (h : Inside depth ts) :
    ReadingOutcome (fun _ _ rest => Inside depth rest) (fun _ => False)
      (statements p stops bound ts) := by
  induction bound generalizing ts with
  | zero => exact .done h
  | succ bound ih =>
    cases ts with
    | nil => exact .done h
    | cons t ts =>
      rw [statements]
      by_cases hstop : stops t.kind = true
      · rw [if_pos hstop]
        exact .done h
      · rw [if_neg hstop]
        have ht : depth = 0 ∨ t.kind ≠ .closeCurly := by
          apply hstops.imp_right
          intro hclose hkind
          exact hstop (hkind ▸ hclose)
        apply (recovering_keeps hp hreads ht h).andThen ?_ (fun _ hbad => hbad)
        intro _ first rest hrest
        apply (ih hrest).andThen ?_ (fun _ hbad => hbad)
        intro _ more rest' hrest'
        exact .done hrest'

/-- A block that was entered is read to its closing brace. -/
theorem block_keeps (hp : ∀ depth, Keeps depth p) (hreads : ReadsOn skips .statement p)
    (bound depth : Nat) : Keeps depth (block bound p) := by
  intro ts hne hinside
  apply (ReadingOutcome.of (exactly_outcome .openCurly ts)).andThen
  · intro _ _ ts₁ hopening
    obtain ⟨-, opening, ho, -, heq⟩ := hopening
    rw [heq] at hinside
    have hinner := hinside.opened ho
    apply (statements_keep (hp (depth + 1)) hreads (.inr (by simp)) bound hinner).andThen ?_
      (fun _ hbad => hbad.elim)
    intro _ body ts₂ hbody
    apply (ReadingOutcome.of (exactly_outcome .closeCurly ts₂)).andThen
    · intro _ _ ts₃ hclosing
      obtain ⟨-, closing, hc, -, heq'⟩ := hclosing
      rw [heq'] at hbody
      exact .done (hbody.closed hc)
    · intro s hs
      rw [hs]
      exact ⟨hbody.weaken, hbody.ne_nil⟩
  · intro s hs
    rw [hs]
    exact ⟨hinside, hne⟩

end Statements

/-- A statement that gets past the blocks in it does not come to the end. -/
theorem Course.keeps {depth : Nat} {b : List Token → Reading Tree} (hb : Keeps depth b)
    {before : List Tree} {ts : List Token} {r : Reading Tree} (h : Course b before ts r)
    (hne : ts ≠ []) (hinside : Inside depth ts) :
    ReadingOutcome (fun _ _ rest => Inside depth rest)
      (fun s => Inside depth s.rest ∧ s.rest ≠ []) r := by
  induction h with
  | stuck h => exact hinside.stuckAfter hne h
  | done => exact hinside
  | semicolon hstop => exact hinside.tail (by simp [hstop])
  | plain hread _ ih =>
    obtain ⟨hinside', hne'⟩ := hinside.plain hne hread
    exact ih hne' hinside'
  | @block before ts next hend _ ih =>
    refine (hb ts hne hinside).result.andThen ?_ (fun _ hbad => hbad)
    rintro ms body rest ⟨hx, hrest⟩
    by_cases hempty : rest = []
    · obtain ⟨tree, hdone⟩ := hend body
      rw [hempty, hdone]
      exact .done (hempty ▸ hrest)
    · exact ih body rest hx hempty hrest

theorem statement_keeps (bound depth : Nat) : Keeps depth (statement bound) := by
  induction bound generalizing depth with
  | zero =>
    intro ts hne hinside
    exact ⟨hinside, hne⟩
  | succ bound ih =>
    have hb := block_keeps ih (@statement_readsOn (fun _ => True) bound) bound depth
    exact fun ts => (statement_course bound ts).keeps hb

/-- A program whose braces pair up is read to its end. -/
theorem program_keeps {ts : List Token} (hne : ts ≠ []) (h : Inside 0 ts) (bound : Nat)
    (ending : Option Token) :
    ReadingOutcome (fun _ _ rest => Inside 0 rest) (fun _ => False) (program bound ending ts) := by
  have hkeeps := statement_keeps bound 0
  have hreads := @statement_readsOn (fun _ => True) bound
  cases ts with
  | nil => exact absurd rfl hne
  | cons t ts =>
    apply (recovering_keeps hkeeps hreads (.inl rfl) h).andThen ?_ (fun _ hbad => hbad)
    intro _ first rest hrest
    apply (statements_keep hkeeps hreads (.inl rfl) bound hrest).andThen ?_ (fun _ hbad => hbad)
    intro _ more rest' hrest'
    exact .done hrest'

/-- All mistakes on the way lie before the end. -/
def Recovers (r : Reading α) : Prop := ∀ m ∈ r.mistakes, m.rest ≠ []

theorem recovers_of (x : Except Stuck (α × List Token)) : Recovers (Reading.of x) := by
  intro m hm
  cases hm

theorem Recovers.andThen {r : Reading α} {next : α → List Token → Reading β} (hr : Recovers r)
    (hnext : ∀ a rest, r.result = .ok (a, rest) → Recovers (next a rest)) :
    Recovers (r.andThen next) := by
  obtain ⟨ms, x⟩ := r
  cases x with
  | error s => exact hr
  | ok y =>
    intro m hm
    cases List.mem_append.mp hm with
    | inl hm => exact hr m hm
    | inr hm => exact hnext y.1 y.2 rfl m hm

section Mistakes

variable {p : List Token → Reading Tree}

/-- A mistake is stepped over only if it lies before the end. -/
theorem recovering_recovers (hp : ∀ ts, Recovers (p ts)) (ts : List Token) :
    Recovers (recovering p ts) := by
  cases ts with
  | nil => exact hp []
  | cons t ts =>
    rw [recovering]
    cases hx : (p (t :: ts)).result with
    | ok y => exact hp (t :: ts)
    | error s =>
      dsimp only
      by_cases hrest : s.rest.isEmpty = true
      · rw [if_pos hrest]
        exact hp (t :: ts)
      · rw [if_neg hrest]
        intro m hm
        cases List.mem_append.mp hm with
        | inl hm => exact hp (t :: ts) m hm
        | inr hm =>
          rw [List.mem_singleton.mp hm]
          simpa using hrest

/-- A statement can only fail at the end. -/
theorem recovering_error {t : Token} {ts : List Token} {s : Stuck}
    (h : (recovering p (t :: ts)).result = .error s) : s.rest = [] := by
  rw [recovering] at h
  cases hx : (p (t :: ts)).result with
  | ok y =>
    rw [hx] at h
    dsimp only at h
    rw [hx] at h
    cases h
  | error s' =>
    rw [hx] at h
    dsimp only at h
    by_cases hrest : s'.rest.isEmpty = true
    · rw [if_pos hrest, hx] at h
      cases h
      simpa using hrest
    · rw [if_neg hrest] at h
      cases h

theorem statements_recover (hp : ∀ ts, Recovers (p ts)) (stops : Kind → Bool) (bound : Nat)
    (ts : List Token) : Recovers (statements p stops bound ts) := by
  induction bound generalizing ts with
  | zero => exact recovers_of _
  | succ bound ih =>
    cases ts with
    | nil => exact recovers_of _
    | cons t ts =>
      rw [statements]
      by_cases hstop : stops t.kind = true
      · rw [if_pos hstop]
        exact recovers_of _
      · rw [if_neg hstop]
        apply (recovering_recovers hp (t :: ts)).andThen
        intro first rest _
        apply (ih rest).andThen
        intro more rest' _
        exact recovers_of _

theorem block_recovers (hp : ∀ ts, Recovers (p ts)) (bound : Nat) (ts : List Token) :
    Recovers (block bound p ts) := by
  apply (recovers_of _).andThen
  intro opening ts₁ _
  apply (statements_recover hp _ bound ts₁).andThen
  intro body ts₂ _
  apply (recovers_of _).andThen
  intro closing ts₃ _
  exact recovers_of _

end Mistakes

theorem Course.recovers {b : List Token → Reading Tree} (hb : ∀ ts, Recovers (b ts))
    {before : List Tree} {ts : List Token} {r : Reading Tree} (h : Course b before ts r) :
    Recovers r := by
  induction h with
  | stuck | done | semicolon => exact recovers_of _
  | plain _ _ ih => exact ih
  | @block before ts next _ _ ih => exact (hb ts).andThen ih

theorem statement_recovers (bound : Nat) (ts : List Token) : Recovers (statement bound ts) := by
  induction bound generalizing ts with
  | zero => exact recovers_of _
  | succ bound ih => exact (statement_course bound ts).recovers (block_recovers ih bound)

/-- A sequence fails in its first part or in its second. -/
theorem andThen_error {r : Reading α} {next : α → List Token → Reading β} {s : Stuck}
    (h : (r.andThen next).result = .error s) :
    r.result = .error s ∨ ∃ a ts, r.result = .ok (a, ts) ∧ (next a ts).result = .error s := by
  obtain ⟨ms, x⟩ := r
  cases x with
  | error s' =>
    cases h
    exact .inl rfl
  | ok y => exact .inr ⟨y.1, y.2, rfl, h⟩

theorem statements_error {p : List Token → Reading Tree} {stops : Kind → Bool} {bound : Nat}
    {ts : List Token} {s : Stuck} (h : (statements p stops bound ts).result = .error s) :
    s.rest = [] := by
  induction bound generalizing ts with
  | zero => cases h
  | succ bound ih =>
    cases ts with
    | nil => cases h
    | cons t ts =>
      rw [statements] at h
      by_cases hstop : stops t.kind = true
      · rw [if_pos hstop] at h
        cases h
      · rw [if_neg hstop] at h
        rcases andThen_error h with hfirst | ⟨first, rest, -, h⟩
        · exact recovering_error hfirst
        · rcases andThen_error h with hmore | ⟨more, rest', -, h⟩
          · exact ih hmore
          · cases h

theorem program_recovers (bound : Nat) (ending : Option Token) (ts : List Token) :
    Recovers (program bound ending ts) := by
  apply (recovering_recovers (statement_recovers bound) ts).andThen
  intro first rest _
  apply (statements_recover (statement_recovers bound) _ bound rest).andThen
  intro more rest' _
  exact recovers_of _

/-- Reading a program fails at the end of its tokens only. -/
theorem program_error {bound : Nat} {ending : Option Token} {ts : List Token} (hne : ts ≠ [])
    {s : Stuck} (h : (program bound ending ts).result = .error s) : s.rest = [] := by
  cases ts with
  | nil => exact absurd rfl hne
  | cons t ts =>
    rcases andThen_error h with hfirst | ⟨first, rest, -, h⟩
    · exact recovering_error hfirst
    · rcases andThen_error h with hmore | ⟨more, rest', -, h⟩
      · exact statements_error hmore
      · cases h

/-- The errors that end the reading. -/
def isFinal : SyntaxError → Bool
  | .unexpectedToken _ _ => false
  | .unexpectedEnd _ | .emptyProgram => true

theorem isFinal_iff {e : SyntaxError} :
    isFinal e = true ↔ e = .emptyProgram ∨ ∃ expected, e = .unexpectedEnd expected := by
  cases e with
  | unexpectedToken expected found => simp [isFinal]
  | unexpectedEnd expected => simp [isFinal]
  | emptyProgram => simp [isFinal]

theorem error_of_rest {s : Stuck} (h : s.rest ≠ []) (ending : Location) :
    isFinal (s.error ending).value = false := by
  rw [Stuck.error]
  cases hrest : s.rest with
  | nil => exact absurd hrest h
  | cons t ts => rfl

theorem error_of_end {s : Stuck} (h : s.rest = []) (ending : Location) :
    s.error ending = ⟨ending, .unexpectedEnd s.expected⟩ := by
  rw [Stuck.error, h]

/-- The three ways in which reading a program ends. -/
theorem parse_cases (tokens : List Token) :
    (body tokens = [] ∧ parse tokens = ⟨none, [⟨endLocation tokens, .emptyProgram⟩]⟩) ∨
    (body tokens ≠ [] ∧ ∃ tree errors, parse tokens = ⟨some tree, errors⟩ ∧
      ∀ e ∈ errors, isFinal e.value = false) ∨
    (body tokens ≠ [] ∧ ∃ errors expected,
      parse tokens = ⟨none, errors ++ [⟨endLocation tokens, .unexpectedEnd expected⟩]⟩ ∧
      ∀ e ∈ errors, isFinal e.value = false) := by
  by_cases hbody : body tokens = []
  · left
    simp [parse, hbody]
  · right
    have hrecovers :=
      program_recovers ((body tokens).length + 1) (ending? tokens) (body tokens)
    have hmistakes : ∀ e ∈ (program ((body tokens).length + 1) (ending? tokens)
        (body tokens)).mistakes.map (·.error (endLocation tokens)), isFinal e.value = false := by
      intro e he
      obtain ⟨m, hm, rfl⟩ := List.mem_map.mp he
      exact error_of_rest (hrecovers m hm) _
    unfold parse
    dsimp only
    rw [if_neg (by simpa using hbody)]
    cases hx : (program ((body tokens).length + 1) (ending? tokens) (body tokens)).result with
    | ok y => exact .inl ⟨hbody, y.1, _, rfl, hmistakes⟩
    | error s =>
      refine .inr ⟨hbody, _, s.expected, ?_, hmistakes⟩
      dsimp only
      rw [List.map_append, List.map_singleton, error_of_end (program_error hbody hx)]

/-- There is a tree if braces pair up and the last token ends a statement or a block. -/
theorem parse_braced {tokens : List Token} (h : Braced (body tokens)) :
    (parse tokens).tree.isSome = true := by
  have hne : body tokens ≠ [] := by
    obtain ⟨t, ht, -⟩ := h.last
    intro hbody
    rw [hbody] at ht
    cases ht
  have hprogram := program_keeps hne h.inside ((body tokens).length + 1) (ending? tokens)
  unfold parse
  dsimp only
  rw [if_neg (by simpa using hne)]
  cases hx : (program ((body tokens).length + 1) (ending? tokens) (body tokens)).result with
  | ok y => rfl
  | error s =>
    rw [ReadingOutcome, hx] at hprogram
    exact hprogram.elim

/-- Where braces pair up and the last token ends a statement or a block a tree is read, whatever else
is wrong. There is no tree exactly if the last error is one that ends the reading, and such an error
stands nowhere else. -/
theorem parse_recovery (tokens : List Token) :
    (Braced (body tokens) → (parse tokens).tree.isSome = true) ∧
    ((parse tokens).tree = none ↔ ∃ e, (parse tokens).errors.getLast? = some e ∧
      (body tokens = [] ∧ e.value = .emptyProgram ∨
        ∃ expected, e.value = .unexpectedEnd expected)) ∧
    ((∃ e ∈ (parse tokens).errors, e.value = .emptyProgram) ↔ body tokens = []) ∧
    ((parse tokens).tree.isSome = true → ∀ e ∈ (parse tokens).errors, isFinal e.value = false) ∧
    ∀ e ∈ (parse tokens).errors.dropLast, isFinal e.value = false := by
  refine ⟨parse_braced, ?_⟩
  have hfinal : ∀ {e : Located SyntaxError}, isFinal e.value = false →
      e.value ≠ .emptyProgram ∧ ∀ expected, e.value ≠ .unexpectedEnd expected := by
    intro e he
    rw [← Bool.not_eq_true, isFinal_iff] at he
    simpa using he
  -- no tokens at all, a tree, or an end inside a statement
  rcases parse_cases tokens with ⟨hbody, hparse⟩ | ⟨hbody, tree, errors, hparse, herrors⟩ |
    ⟨hbody, errors, expected, hparse, herrors⟩
  · simp [hparse, hbody]
  · rw [hparse]
    refine ⟨⟨?_, ?_⟩, ⟨?_, ?_⟩, ?_, ?_⟩
    · intro h
      cases h
    · rintro ⟨e, he, ⟨hempty, -⟩ | ⟨expected, hvalue⟩⟩
      · exact absurd hempty hbody
      · exact absurd hvalue ((hfinal (herrors e (List.mem_of_getLast? he))).2 expected)
    · rintro ⟨e, he, hvalue⟩
      exact absurd hvalue (hfinal (herrors e he)).1
    · intro hempty
      exact absurd hempty hbody
    · intro _
      exact herrors
    · intro e he
      exact herrors e (List.dropLast_subset errors he)
  · rw [hparse]
    refine ⟨by simp, ⟨?_, ?_⟩, by simp, ?_⟩
    · rintro ⟨e, he, hvalue⟩
      rcases List.mem_append.mp he with he | he
      · exact absurd hvalue (hfinal (herrors e he)).1
      · rw [List.mem_singleton.mp he] at hvalue
        cases hvalue
    · intro hempty
      exact absurd hempty hbody
    · rw [List.dropLast_concat]
      exact herrors

/-- A statement fails inside two blocks, a stray `else` follows one of them, and outside there is no
statement at all: `{ x { = ; } else } ) ;`. -/
def bracedErrorTokens : List Token :=
  [blank .openCurly, blank .ident, blank .openCurly, blank (.op .assign), blank .semicolon,
    blank .closeCurly, blank (.keyword .else_), blank .closeCurly, blank .closeParen,
    blank .semicolon]

theorem parse_recovery_scattered :
    Braced (body bracedErrorTokens) ∧ (parse bracedErrorTokens).errors.length ≠ 0 ∧
      (parse bracedErrorTokens).tree.isSome = true := by
  have hbody : body bracedErrorTokens = bracedErrorTokens := by decide
  have hbraced : Braced (body bracedErrorTokens) := by
    rw [hbody]
    refine ⟨⟨blank .semicolon, rfl, .inl rfl⟩, ?_, by decide⟩
    intro pre hpre
    have hall : ∀ pre ∈ bracedErrorTokens.inits, closes pre ≤ opens pre := by decide
    exact hall pre ((List.mem_inits pre bracedErrorTokens).mpr hpre)
  exact ⟨hbraced, by decide, (parse_recovery bracedErrorTokens).1 hbraced⟩

end ImpC.Grammar
