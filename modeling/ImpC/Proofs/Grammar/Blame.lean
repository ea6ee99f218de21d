import Mathlib.Algebra.BigOperators.Group.Finset.Basic
import Mathlib.Algebra.Order.BigOperators.Group.Finset
import Mathlib.Data.List.Forall2
import ImpC.Proofs.Grammar.Order

/-!
# What errors are found at

The errors of a program come in the order of its tokens. Outside all blocks a closing brace may be found
twice, where a statement breaks off at it and where the next one would start; no other token is, and
none is found three times. The end is found once at most, and last.
-/
namespace ImpC

/-- All places where a reading got stuck, in order. -/
def Reading.stuck {α : Type} (r : Reading α) : List Stuck :=
  match r.result with
  | .ok _ => r.mistakes
  | .error s => r.mistakes ++ [s]

namespace Grammar

open ImpC.Parser

variable {α β : Type} {ts : List Token}

/-- Outside all blocks, the statements `trees` are read from `ts`, or stepped over, and `rest` is
left. -/
inductive Outside (bound : Nat) : List Token → List Tree → List Token → Prop
  | here (ts : List Token) : Outside bound ts [] ts
  | next {ts us rest : List Token} {tree : Tree} {trees : List Tree}
    (h : (recovering (statement bound) ts).result = .ok (tree, us))
    (hnext : Outside bound us trees rest) : Outside bound ts (tree :: trees) rest

/-- No token between statements is lost. -/
theorem Outside.leaves {bound : Nat} {trees : List Tree} {rest : List Token}
    (h : Outside bound ts trees rest) : ts = Tree.leavesAll trees ++ rest := by
  induction h with
  | here ts => rfl
  | @next ts us rest tree trees h _ ih =>
    have hread := recovering_readsOn (@statement_readsOn (fun _ => True) bound) ts
    rw [ReadingOutcome, h] at hread
    rw [hread.2, ih, Tree.leavesAll, List.append_assoc]

/-- What an error that was found at an index is: about the token there, or about the end. -/
inductive FoundAt (tokens : List Token) : Nat → Located SyntaxError → Prop
  | token {i : Nat} {t : Token} {expected : Expected} (h : (body tokens)[i]? = some t) :
    FoundAt tokens i ⟨t.location, .unexpectedToken expected t.kind⟩
  | ending {e : SyntaxError} (h : isFinal e = true) :
    FoundAt tokens (body tokens).length ⟨endLocation tokens, e⟩

/-- The places where reading a program got stuck. -/
def places (tokens : List Token) : List Stuck :=
  (program ((body tokens).length + 1) (ending? tokens) (body tokens)).stuck

/-- The indices at which the errors of a program are found, that of the end being the number of tokens
before it. -/
def blamed (tokens : List Token) : List Nat :=
  if (body tokens).isEmpty then [(body tokens).length]
  else (places tokens).map fun s => (body tokens).length - s.rest.length

/-! One statement after another. -/

theorem stuck_andThen_of_ok {r : Reading α} {a : α} {rest : List Token} (h : r.result = .ok (a, rest))
    (next : α → List Token → Reading β) :
    (r.andThen next).stuck = r.mistakes ++ (next a rest).stuck := by
  rw [andThen_of_ok h, Reading.stuck, Reading.stuck]
  cases (next a rest).result with
  | ok _ => rfl
  | error s => exact List.append_assoc _ _ _

theorem stuck_andThen_done (r : Reading α) (f : α → β) :
    (r.andThen fun a ts => .done (f a) ts).stuck = r.stuck := by
  cases hx : r.result with
  | error s =>
    rw [andThen_of_error hx, Reading.stuck, Reading.stuck, hx]
  | ok y =>
    rw [andThen_of_ok hx, Reading.stuck, Reading.stuck, hx]
    exact List.append_nil _

theorem stuck_statements (p : List Token → Reading Tree) (bound : Nat) (t : Token) (ts : List Token) :
    (∃ s, (recovering p (t :: ts)).result = .error s ∧
      (statements p (fun _ => false) (bound + 1) (t :: ts)).stuck =
        (recovering p (t :: ts)).mistakes ++ [s]) ∨
    ∃ tree rest, (recovering p (t :: ts)).result = .ok (tree, rest) ∧
      (statements p (fun _ => false) (bound + 1) (t :: ts)).stuck =
        (recovering p (t :: ts)).mistakes ++ (statements p (fun _ => false) bound rest).stuck := by
  rw [statements, if_neg Bool.false_ne_true]
  cases hx : (recovering p (t :: ts)).result with
  | error s =>
    rw [andThen_of_error hx]
    exact .inl ⟨s, rfl, rfl⟩
  | ok y =>
    obtain ⟨tree, rest⟩ := y
    refine .inr ⟨tree, rest, rfl, ?_⟩
    rw [stuck_andThen_of_ok hx, stuck_andThen_done]

theorem stuck_program (bound : Nat) (ending : Option Token) (t : Token) (ts : List Token) :
    (program bound ending (t :: ts)).stuck =
      (statements (statement bound) (fun _ => false) (bound + 1) (t :: ts)).stuck := by
  rw [program, statements, if_neg Bool.false_ne_true]
  cases hx : (recovering (statement bound) (t :: ts)).result with
  | error s => rw [andThen_of_error hx, andThen_of_error hx]; rfl
  | ok y =>
    rw [stuck_andThen_of_ok hx, stuck_andThen_of_ok hx, stuck_andThen_done, stuck_andThen_done]

/-- How many tokens are left at each place. -/
def lengths (ss : List Stuck) : List Nat := ss.map (·.rest.length)

/-- The places where reading the tokens `ts` outside all blocks got stuck. A place that is found twice
is at a closing brace where a statement would start. -/
structure Blames (bound : Nat) (ts : List Token) (ss : List Stuck) : Prop where
  suffix : ∀ s ∈ ss, s.rest <:+ ts
  falling : ss.Pairwise fun a b => b.rest.length ≤ a.rest.length
  first : ∀ s ∈ ss, s.rest.length = ts.length → ∀ t ∈ ts.head?, announces t.kind = false
  once : (lengths ss).count ts.length ≤ 1
  twice : ∀ n, (lengths ss).count n ≤ 2
  stray : ∀ n, 2 ≤ (lengths ss).count n → ∃ trees t rest, Outside bound ts trees (t :: rest) ∧
    t.kind = .closeCurly ∧ n = rest.length + 1

section Stepping

variable {t : Token} {r : Reading Tree} {ss : List Stuck}

/-- Mistakes in order are at different places. -/
theorem InOrder.count_le_one {lower upper : Nat} {ms : List Stuck} (h : InOrder ts lower upper ms)
    (n : Nat) : (lengths ms).count n ≤ 1 := by
  refine List.nodup_iff_count_le_one.mp ?_ n
  exact List.pairwise_map.mpr (h.falling.imp fun hlt => hlt.ne')

/-- Places are found in a statement and behind it only where reading went on. -/
theorem Stepped.count_append (h : Stepped t ts r) (hss : ∀ s ∈ ss, s.rest <:+ r.left) (n : Nat) :
    (lengths (r.mistakes ++ ss)).count n = (lengths ss).count n ∨
      (lengths (r.mistakes ++ ss)).count n ≤ 1 ∨
        n = r.left.length ∧ n ∈ lengths r.mistakes ∧ n ∈ lengths ss := by
  have honce := h.inOrder.count_le_one n
  rw [lengths, List.map_append, List.count_append]
  by_cases hms : n ∈ lengths r.mistakes
  · by_cases hn : n ∈ lengths ss
    · obtain ⟨m, hm, rfl⟩ := List.mem_map.mp hms
      obtain ⟨s, hs, heq⟩ := List.mem_map.mp hn
      have habove := h.inOrder.above m hm
      have hbelow := (hss s hs).length_le
      exact .inr (.inr ⟨by omega, hms, hn⟩)
    · have hzero : (ss.map (·.rest.length)).count n = 0 := List.count_eq_zero.mpr hn
      rw [hzero]
      exact .inr (.inl honce)
  · have hzero : (r.mistakes.map (·.rest.length)).count n = 0 := List.count_eq_zero.mpr hms
    rw [hzero, Nat.zero_add]
    exact .inl rfl

/-- A place that is found twice is found so behind the statement, or is a brace where reading went
on. -/
theorem Stepped.twice {bound : Nat} (h : Stepped t ts r) (hss : Blames bound r.left ss) {n : Nat}
    (hn : 2 ≤ (lengths (r.mistakes ++ ss)).count n) :
    2 ≤ (lengths ss).count n ∨
      ∃ u us, r.left = u :: us ∧ u.kind = .closeCurly ∧ n = us.length + 1 := by
  rcases h.count_append hss.suffix n with heq | hle | ⟨heq, hms, hmem⟩
  · exact .inl (heq ▸ hn)
  · omega
  · obtain ⟨m, hm, hlast⟩ := List.mem_map.mp hms
    obtain ⟨s, hs, hfirst⟩ := List.mem_map.mp hmem
    obtain ⟨u, hu, hlanding⟩ := h.last m hm (hlast.trans heq)
    obtain ⟨us, hleft⟩ := List.head?_eq_some_iff.mp hu
    rw [isLanding, hss.first s hs (hfirst.trans heq) u hu, Bool.or_false] at hlanding
    exact .inr ⟨u, us, hleft, of_decide_eq_true hlanding, by rw [heq, hleft, List.length_cons]⟩

/-- The mistakes of a statement come before those behind it; the last may be at the same closing
brace as the next one. -/
theorem Stepped.blames {bound : Nat} (h : Stepped t ts r) (hss : Blames bound r.left ss)
    (houtside : ∀ {trees u us}, Outside bound r.left trees (u :: us) →
      ∃ trees, Outside bound (t :: ts) trees (u :: us)) :
    Blames bound (t :: ts) (r.mistakes ++ ss) := by
  have hleft := h.left.length_le
  constructor
  · exact List.forall_mem_append.mpr ⟨h.inOrder.suffix, fun s hs =>
      (hss.suffix s hs).trans (h.left.trans (List.suffix_cons t ts))⟩
  · refine List.pairwise_append.mpr ⟨h.inOrder.falling.imp Nat.le_of_lt, hss.falling, ?_⟩
    intro m hm s hs
    exact (hss.suffix s hs).length_le.trans (h.inOrder.above m hm)
  · intro s hs hlength u hu
    cases hu
    rcases List.mem_append.mp hs with hs | hs
    · exact h.first s hs hlength
    · have hshorter := (hss.suffix s hs).length_le
      rw [List.length_cons] at hlength
      omega
  -- the mistakes behind the statement are not at its first token
  · rcases h.count_append hss.suffix (t :: ts).length with heq | hle | ⟨heq, -, -⟩
    · have hnone : (t :: ts).length ∉ lengths ss := by
        intro hmem
        obtain ⟨s, hs, hlength⟩ := List.mem_map.mp hmem
        have hshorter := (hss.suffix s hs).length_le
        rw [List.length_cons] at hlength
        omega
      rw [heq, List.count_eq_zero.mpr hnone]
      exact Nat.zero_le 1
    · exact hle
    · rw [List.length_cons] at heq
      omega
  -- where the statement ends, there is at most one mistake of each part
  · intro n
    rcases h.count_append hss.suffix n with heq | hle | ⟨heq, -, -⟩
    · exact heq ▸ hss.twice n
    · exact hle.trans (Nat.le_succ 1)
    · rw [lengths, List.map_append, List.count_append]
      exact Nat.add_le_add (h.inOrder.count_le_one n) (heq ▸ hss.once)
  -- both mistakes are behind the statement, or it ended at the brace
  · intro n hn
    rcases h.twice hss hn with hn | ⟨u, us, heq, hu, hlength⟩
    · obtain ⟨trees, u, us, hout, hu, hlength⟩ := hss.stray n hn
      obtain ⟨trees, hout⟩ := houtside hout
      exact ⟨trees, u, us, hout, hu, hlength⟩
    · have hhere : Outside bound r.left [] (u :: us) := by
        rw [heq]
        exact .here _
      obtain ⟨trees, hout⟩ := houtside hhere
      exact ⟨trees, u, us, hout, hu, hlength⟩

end Stepping

theorem blames_nil (bound : Nat) (ts : List Token) : Blames bound ts [] := by
  constructor <;> simp [lengths]

theorem blames_end (bound : Nat) {s : Stuck} (h : s.rest = []) : Blames bound [] [s] where
  suffix := by simp [h]
  falling := List.pairwise_singleton _ _
  first := by simp
  once := List.count_le_length
  twice n := List.count_le_length.trans (Nat.le_succ 1)
  stray n hn := absurd (hn.trans List.count_le_length) (by simp [lengths])

/-- Outside all blocks only a closing brace is found twice. -/
theorem statements_blames {bound : Nat} (n : Nat) (hlength : ts.length < bound) :
    Blames bound ts (statements (statement bound) (fun _ => false) n ts).stuck := by
  induction n generalizing ts with
  | zero => exact blames_nil bound ts
  | succ n ih =>
    cases ts with
    | nil => exact blames_nil bound []
    | cons t ts =>
      have hstep := (statement_steps bound).stepped (t := t) hlength
      rcases stuck_statements (statement bound) n t ts with ⟨s, hx, hstuck⟩ | ⟨tree, rest, hx, hstuck⟩
      -- the tokens ended inside the statement
      · have hleft : (recovering (statement bound) (t :: ts)).left = [] := by
          rw [left_of_error hx, recovering_error hx]
        rw [hstuck]
        apply hstep.blames
        · rw [hleft]
          exact blames_end bound (recovering_error hx)
        · intro trees u us hout
          rw [hleft] at hout
          simpa using hout.leaves
      · have hrest : rest.length < bound := by
          have hshorter := hstep.left.length_le
          rw [left_of_ok hx] at hshorter
          rw [List.length_cons] at hlength
          omega
        rw [hstuck]
        apply hstep.blames
        · rw [left_of_ok hx]
          exact ih hrest
        · intro trees u us hout
          rw [left_of_ok hx] at hout
          exact ⟨tree :: trees, .next hx hout⟩

/-! The indices of errors. -/

/-- An error is about the token where reading got stuck, or about the end. -/
theorem foundAt_error {tokens : List Token} {s : Stuck} (h : s.rest <:+ body tokens) :
    FoundAt tokens ((body tokens).length - s.rest.length) (s.error (endLocation tokens)) := by
  obtain ⟨pre, hpre⟩ := h
  rw [Stuck.error]
  cases hrest : s.rest with
  | nil => exact .ending rfl
  | cons t rest =>
    rw [hrest] at hpre
    refine .token ?_
    simp [← hpre]

theorem sum_closes (ts : List Token) :
    ∑ i ∈ Finset.range (ts.length + 1), closes ts[i]?.toList = closes ts := by
  induction ts with
  | nil => rfl
  | cons t ts ih =>
    rw [List.length_cons, Finset.sum_range_succ']
    simp only [List.getElem?_cons_succ, List.getElem?_cons_zero, Option.toList_some]
    rw [ih, Nat.add_comm, ← closes_append]
    rfl

/-- Indices that stand once, or twice where there is a closing brace, are no more than the tokens and
the closing braces among them and one for the end. -/
theorem length_le_of_count {l : List Nat} (hle : ∀ i ∈ l, i ≤ ts.length)
    (hcount : ∀ i, l.count i ≤ 1 + closes ts[i]?.toList) :
    l.length ≤ ts.length + closes ts + 1 := by
  have hall : ∑ i ∈ Finset.range (ts.length + 1), l.count i = l.length := by
    have hrange : ∀ i ∈ (l : Multiset Nat), i ∈ Finset.range (ts.length + 1) := fun i hi =>
      Finset.mem_range.mpr (Nat.lt_succ_of_le (hle i hi))
    simpa only [Multiset.coe_count, Multiset.coe_card] using Multiset.sum_count_eq_card hrange
  calc l.length
      = ∑ i ∈ Finset.range (ts.length + 1), l.count i := hall.symm
    _ ≤ ∑ i ∈ Finset.range (ts.length + 1), (1 + closes ts[i]?.toList) :=
      Finset.sum_le_sum fun i _ => hcount i
    _ = ts.length + 1 + closes ts := by
      rw [Finset.sum_add_distrib, sum_closes, ← Finset.card_eq_sum_ones, Finset.card_range]
    _ = ts.length + closes ts + 1 := Nat.add_right_comm _ _ _

/-- Places are counted from the end as from the start. -/
theorem count_map_sub {l : List Nat} {n : Nat} (hl : ∀ k ∈ l, k ≤ n) {i : Nat} (hi : i ≤ n) :
    (l.map (n - ·)).count i = l.count (n - i) := by
  rw [List.count, List.countP_map, List.count]
  refine List.countP_congr fun k hk => ?_
  have hk := hl k hk
  simp only [Function.comp_apply, beq_iff_eq]
  omega

section Program

variable {tokens : List Token}

theorem parse_errors (h : body tokens ≠ []) :
    (parse tokens).errors = (places tokens).map (·.error (endLocation tokens)) := by
  rw [parse, if_neg (by simpa using h), places, Reading.stuck]
  dsimp only
  cases (program ((body tokens).length + 1) (ending? tokens) (body tokens)).result <;> rfl

theorem blamed_eq (h : body tokens ≠ []) :
    blamed tokens = (lengths (places tokens)).map ((body tokens).length - ·) := by
  rw [blamed, if_neg (by simpa using h), lengths, List.map_map]
  rfl

theorem places_blames (h : body tokens ≠ []) :
    Blames ((body tokens).length + 1) (body tokens) (places tokens) := by
  obtain ⟨t, ts, hbody⟩ := List.exists_cons_of_ne_nil h
  rw [places, hbody, stuck_program]
  exact statements_blames _ (Nat.lt_succ_self _)

/-- Only the last place can be the end. -/
theorem places_dropLast {s : Stuck} (hs : s ∈ (places tokens).dropLast) : s.rest ≠ [] := by
  apply program_recovers ((body tokens).length + 1) (ending? tokens) (body tokens) s
  rw [places, Reading.stuck] at hs
  split at hs
  · exact List.dropLast_subset _ hs
  · rwa [List.dropLast_concat] at hs

theorem blamed_foundAt (h : body tokens ≠ []) :
    List.Forall₂ (FoundAt tokens) (blamed tokens) (parse tokens).errors := by
  rw [blamed_eq h, parse_errors h, lengths, List.map_map, List.forall₂_map_left_iff,
    List.forall₂_map_right_iff, List.forall₂_same]
  exact fun s hs => foundAt_error ((places_blames h).suffix s hs)

theorem blamed_le (h : body tokens ≠ []) {i : Nat} (hi : i ∈ blamed tokens) :
    i ≤ (body tokens).length := by
  rw [blamed_eq h] at hi
  obtain ⟨k, -, rfl⟩ := List.mem_map.mp hi
  exact Nat.sub_le _ _

theorem count_blamed (h : body tokens ≠ []) {i : Nat} (hi : i ∈ blamed tokens) :
    (blamed tokens).count i = (lengths (places tokens)).count ((body tokens).length - i) := by
  have hle : ∀ k ∈ lengths (places tokens), k ≤ (body tokens).length := by
    intro k hk
    obtain ⟨s, hs, rfl⟩ := List.mem_map.mp hk
    exact ((places_blames h).suffix s hs).length_le
  have hi := blamed_le h hi
  rw [blamed_eq h]
  exact count_map_sub hle hi

theorem blamed_twice (h : body tokens ≠ []) (i : Nat) : (blamed tokens).count i ≤ 2 := by
  by_cases hi : i ∈ blamed tokens
  · rw [count_blamed h hi]
    exact (places_blames h).twice _
  · rw [List.count_eq_zero.mpr hi]
    exact Nat.zero_le 2

theorem blamed_stray (h : body tokens ≠ []) {i : Nat} (hi : 2 ≤ (blamed tokens).count i) :
    ∃ trees t rest, Outside ((body tokens).length + 1) (body tokens) trees (t :: rest) ∧
      t.kind = .closeCurly ∧ i = (Tree.leavesAll trees).length := by
  have hmem : i ∈ blamed tokens := List.count_pos_iff.mp (Nat.lt_of_lt_of_le Nat.two_pos hi)
  rw [count_blamed h hmem] at hi
  obtain ⟨trees, t, rest, hout, ht, hlength⟩ := (places_blames h).stray _ hi
  refine ⟨trees, t, rest, hout, ht, ?_⟩
  have hle := blamed_le h hmem
  have hall := congrArg List.length hout.leaves
  rw [List.length_append, List.length_cons] at hall
  omega

/-- There are at most as many errors as tokens and closing braces, and one more for the end. -/
theorem errors_length_le (h : body tokens ≠ []) :
    (parse tokens).errors.length ≤ (body tokens).length + closes (body tokens) + 1 := by
  rw [← (blamed_foundAt h).length_eq]
  refine length_le_of_count (fun i hi => blamed_le h hi) fun i => ?_
  by_cases hi : 2 ≤ (blamed tokens).count i
  · obtain ⟨trees, t, rest, hout, ht, rfl⟩ := blamed_stray h hi
    have hat : (body tokens)[(Tree.leavesAll trees).length]? = some t := by simp [hout.leaves]
    rw [hat, Option.toList_some, closes_close ht]
    exact blamed_twice h _
  · omega

end Program

/-- The errors of a program are found at tokens in their order. A token at which two are found is a
closing brace that was met outside all blocks, behind whole statements, and there is no third. At most
one error is found at the end and it is the last; so there are at most as many as tokens and closing
braces, and one more. -/
theorem errors_in_order (tokens : List Token) :
    List.Forall₂ (FoundAt tokens) (blamed tokens) (parse tokens).errors ∧
    (blamed tokens).Pairwise (· ≤ ·) ∧
    (∀ i, (blamed tokens).count i ≤ 2) ∧
    (∀ i, 2 ≤ (blamed tokens).count i → ∃ trees t rest,
      Outside ((body tokens).length + 1) (body tokens) trees (t :: rest) ∧ t.kind = .closeCurly ∧
        i = (Tree.leavesAll trees).length) ∧
    (∀ i ∈ (blamed tokens).dropLast, i < (body tokens).length) ∧
    (parse tokens).errors.length ≤ (body tokens).length + closes (body tokens) + 1 := by
  by_cases hbody : body tokens = []
  · have hblamed : blamed tokens = [(body tokens).length] := by
      rw [blamed, if_pos (by simpa using hbody)]
    have herrors : (parse tokens).errors = [⟨endLocation tokens, .emptyProgram⟩] := by
      rw [parse, if_pos (by simpa using hbody)]
    rw [hblamed, herrors]
    refine ⟨.cons (.ending rfl) .nil, List.pairwise_singleton _ _,
      fun i => List.count_le_length.trans (Nat.le_succ 1), ?_, by simp, by simp⟩
    intro i hi
    exact absurd (hi.trans List.count_le_length) (by simp)
  · refine ⟨blamed_foundAt hbody, ?_, blamed_twice hbody, fun i hi => blamed_stray hbody hi, ?_,
      errors_length_le hbody⟩
    · rw [blamed_eq hbody, List.pairwise_map, lengths, List.pairwise_map]
      exact (places_blames hbody).falling.imp fun h => Nat.sub_le_sub_left h _
    · intro i hi
      rw [blamed_eq hbody, lengths, List.map_map, ← List.map_dropLast] at hi
      obtain ⟨s, hs, rfl⟩ := List.mem_map.mp hi
      have hpos := List.length_pos_iff.mpr (places_dropLast hs)
      exact Nat.sub_lt (List.length_pos_iff.mpr hbody) hpos

/-- Outside all blocks a statement breaks off at a closing brace, and none starts there: `x = }`. -/
example : blamed [blank .ident, blank (.op .assign), blank .closeCurly] = [2, 2] := by decide

end Grammar

end ImpC
