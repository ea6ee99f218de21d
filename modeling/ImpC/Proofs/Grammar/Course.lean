import ImpC.Proofs.Grammar.Acceptance

/-!
# How a statement is read

Reading a statement goes over plain tokens and through blocks, up to a semicolon or the end of a block,
or gets stuck behind plain tokens. This is said once, by `Course`, for all kinds of statements. What
holds of their readings is then shown by induction on the course, which leaves the blocks, whose
statements are read one by one.
-/
namespace ImpC.Grammar

open ImpC.Parser

variable {skips : List Token → Prop} {α β γ : Type}

section Sequences

theorem andThen_of_ok {r : Reading α} {a : α} {rest : List Token} (h : r.result = .ok (a, rest))
    (next : α → List Token → Reading β) :
    r.andThen next = ⟨r.mistakes ++ (next a rest).mistakes, (next a rest).result⟩ := by
  rw [Reading.andThen, h]

theorem andThen_of_error {r : Reading α} {s : Stuck} (h : r.result = .error s)
    (next : α → List Token → Reading β) : r.andThen next = ⟨r.mistakes, .error s⟩ := by
  rw [Reading.andThen, h]

/-- Readings in turn may be grouped either way. -/
theorem andThen_assoc (r : Reading α) (f : α → List Token → Reading β)
    (g : β → List Token → Reading γ) :
    (r.andThen f).andThen g = r.andThen fun a ts => (f a ts).andThen g := by
  cases hx : r.result with
  | error s =>
    rw [andThen_of_error hx, andThen_of_error hx]
    rfl
  | ok y =>
    rw [andThen_of_ok hx, andThen_of_ok hx]
    cases hy : (f y.1 y.2).result with
    | error s => simp only [Reading.andThen, hy]
    | ok z => simp only [Reading.andThen, hy, List.append_assoc]

theorem andThen_done_self (r : Reading α) : r.andThen Reading.done = r := by
  obtain ⟨ms, x⟩ := r
  cases x with
  | error s => rfl
  | ok y => exact congrArg (Reading.mk · _) (List.append_nil ms)

/-- A token of the right kind is taken. -/
theorem andThen_exactly {kind : Kind} {t : Token} (h : t.kind = kind) (ts : List Token)
    (next : Tree → List Token → Reading α) :
    (Reading.of (exactly kind (t :: ts))).andThen next = next (.leaf t) ts := by
  have hread : (Reading.of (exactly kind (t :: ts))).result = .ok (.leaf t, ts) := by
    simp [Reading.of, exactly, token, h]
  rw [andThen_of_ok hread]
  rfl

end Sequences

/-- How the reading of a statement goes on from `ts`, where `b` reads blocks and `before` are those
read so far. The nodes of skipped tokens in the result are those of its blocks. -/
inductive Course (b : List Token → Reading Tree) :
    List Tree → List Token → Reading Tree → Prop
  | stuck {before : List Tree} {ts : List Token} {s : Stuck} (h : StuckAfter ts s) :
    Course b before ts (.of (.error s))
  | done {before : List Tree} {ts : List Token} {tree : Tree}
    (hnodes : tree.errorNodes = Tree.errorNodesAll before) : Course b before ts (.done tree ts)
  | semicolon {before : List Tree} {stop : Token} {ts : List Token} {tree : Tree}
    (hstop : stop.kind = .semicolon) (hnodes : tree.errorNodes = Tree.errorNodesAll before) :
    Course b before (stop :: ts) (.done tree ts)
  | plain {before : List Tree} {read ts : List Token} {r : Reading Tree}
    (hread : ∀ t ∈ read, isPlain t.kind = true) (h : Course b before ts r) :
    Course b before (read ++ ts) r
  | block {before : List Tree} {ts : List Token} {next : Tree → List Token → Reading Tree}
    (hend : ∀ body, ∃ tree, next body [] = .done tree [])
    (hnext : ∀ body rest, (b ts).result = .ok (body, rest) →
      Course b (before ++ [body]) rest (next body rest)) :
    Course b before ts ((b ts).andThen next)

section Statements

variable {b : List Token → Reading Tree} {e : Parser Tree} {t : Token} {ts : List Token}

theorem Course.word {before : List Tree} {r : Reading Tree} (ht : isPlain t.kind = true)
    (h : Course b before ts r) : Course b before (t :: ts) r :=
  .plain (List.forall_mem_singleton.mpr ht) h

/-- A statement that is part of another, behind the blocks `pre`. -/
theorem Course.map (pre : List Tree) {before : List Tree} {r : Reading Tree} {f : Tree → Tree}
    (hf : ∀ t, (f t).errorNodes = Tree.errorNodesAll pre ++ t.errorNodes)
    (h : Course b before ts r) :
    Course b (pre ++ before) ts (r.andThen fun t ts => .done (f t) ts) := by
  induction h with
  | stuck h => exact .stuck h
  | done hnodes => exact .done (by rw [hf, hnodes, Tree.errorNodesAll_append])
  | semicolon hstop hnodes =>
    exact .semicolon hstop (by rw [hf, hnodes, Tree.errorNodesAll_append])
  | plain hread _ ih => exact .plain hread ih
  | block hend _ ih =>
    rw [andThen_assoc]
    refine .block (fun body => ?_) fun body rest hx => ?_
    · obtain ⟨tree, hdone⟩ := hend body
      rw [hdone]
      exact ⟨f tree, rfl⟩
    · rw [List.append_assoc]
      exact ih body rest hx

/-- A block is a statement of its own. -/
theorem block_course : Course b [] ts (b ts) := by
  rw [← andThen_done_self (b ts)]
  refine .block (fun body => ⟨body, rfl⟩) fun body rest _ => .done ?_
  rw [List.nil_append, Tree.errorNodesAll, Tree.errorNodesAll, List.append_nil]

/-- A statement without blocks ends with its semicolon. -/
theorem simple_course {tree : Tree} {rest : List Token} (hsimple : Simple tree)
    (hflat : tree.errorNodes = []) : Course b [] (tree.leaves ++ rest) (.done tree rest) := by
  obtain ⟨init, stop, hleaves, hstop, hinit⟩ := hsimple
  rw [hleaves, List.append_assoc]
  exact .plain hinit (.semicolon hstop hflat)

/-- A reader of statements without blocks ends with a semicolon or gets stuck before it. -/
theorem Reads.course {r : Rule} {p : Parser Tree} (hp : Reads skips r p) (hr : isFlat r = true)
    (hsimple : ∀ t, IsA skips r t → Simple t) : Course b [] ts (.of (p ts)) := by
  have hread := hp ts
  cases hx : p ts with
  | error s =>
    rw [hx] at hread
    exact .stuck hread
  | ok y =>
    rw [hx] at hread
    rw [hread.2]
    exact simple_course (hsimple y.1 hread.1) (hread.1.errorNodes_flat hr)

/-- A declaration gets past the word that announces it. -/
theorem declaration_course (he : Reads skips .expression e) (ht : t.kind = .keyword .var) :
    Course b [] ts (.of (declaration e (t :: ts))) := by
  have hread := declaration_outcome he ht ts
  cases hx : declaration e (t :: ts) with
  | error s =>
    rw [hx] at hread
    exact .stuck hread
  | ok y =>
    rw [hx] at hread
    obtain ⟨htree, hleaves⟩ := hread
    obtain ⟨init, stop, heq, hstop, hinit⟩ := htree.simple_declaration
    have hflat := htree.errorNodes_flat rfl
    rw [heq, List.append_assoc] at hleaves
    cases init with
    | nil =>
      obtain ⟨rfl, -⟩ := List.cons.inj hleaves
      rw [ht] at hstop
      cases hstop
    | cons u init =>
      obtain ⟨rfl, rfl⟩ := List.cons.inj hleaves
      exact .plain (List.forall_mem_cons.mp hinit).2 (.semicolon hstop hflat)

/-- A condition and a block behind the word that announces them. -/
theorem guarded_course (he : Reads skips .expression e) {word : Keyword}
    (ht : t.kind = .keyword word) {before : List Tree}
    {next : Tree × List Tree → List Token → Reading Tree}
    (hend : ∀ parts, ∃ tree, next parts [] = .done tree [])
    (hnext : ∀ parts body rest, Tree.errorNodesAll (parts.1 :: parts.2) = body.errorNodes →
      Course b (before ++ [body]) rest (next parts rest)) :
    Course b before ts ((guarded word e b (t :: ts)).andThen next) := by
  rw [guarded, andThen_exactly ht, andThen_assoc]
  have hread := parenthesized_outcome he ts
  cases hx : parenthesized e ts with
  | error s =>
    rw [hx] at hread
    exact .stuck hread
  | ok y =>
    obtain ⟨⟨opening, condition, closing⟩, rest⟩ := y
    rw [hx] at hread
    obtain ⟨o, c, ho, hcondition, hc, rfl, rfl, rfl⟩ := hread
    have hplain : ∀ t ∈ o :: (condition.leaves ++ [c]), isPlain t.kind = true := by
      rw [List.forall_mem_cons, List.forall_mem_append, List.forall_mem_singleton, ho, hc]
      exact ⟨rfl, hcondition.leaves_plain rfl, rfl⟩
    have htokens : o :: (condition.leaves ++ c :: rest) = o :: (condition.leaves ++ [c]) ++ rest := by
      simp
    rw [htokens]
    refine .plain hplain ?_
    show Course b before rest (((b rest).andThen _).andThen next)
    rw [andThen_assoc]
    refine .block (fun body => hend _) fun body rest' _ => hnext _ body rest' ?_
    simp [Tree.errorNodesAll, Tree.errorNodes, hcondition.errorNodes_flat rfl]

theorem loop_course (he : Reads skips .expression e) (ht : t.kind = .keyword .while_) :
    Course b [] ts (loop e b (t :: ts)) := by
  refine guarded_course he ht (fun parts => ⟨_, rfl⟩) fun parts body rest hnodes => .done ?_
  rw [Tree.errorNodes_node (by decide), List.nil_append, Tree.errorNodesAll, Tree.errorNodesAll,
    List.append_nil]
  exact hnodes

/-- Behind `else` stands a block or another conditional. -/
theorem otherwise_course {c : List Token → Reading Tree}
    (hc : ∀ t ts, t.kind = .keyword .if_ → Course b [] (t :: ts) (c (t :: ts))) :
    Course b [] ts (if startsWith (.keyword .if_) ts then c ts else b ts) := by
  split
  · rename_i hif
    cases ts with
    | nil => cases hif
    | cons t ts => exact hc t ts (of_decide_eq_true hif)
  · exact block_course

/-- A chain of alternatives has the blocks of all of them. -/
theorem conditional_course (he : Reads skips .expression e) (n : Nat) (ht : t.kind = .keyword .if_) :
    Course b [] ts (conditional e b (n + 1) (t :: ts)) := by
  induction n using Nat.strongRecOn generalizing t ts with
  | ind n ih =>
    refine guarded_course he ht (fun parts => ⟨_, rfl⟩) fun parts body rest hnodes => ?_
    have halone : (Tree.node .conditional parts.1 parts.2).errorNodes =
        Tree.errorNodesAll ([] ++ [body]) := by
      simpa [Tree.errorNodes, Tree.errorNodesAll] using hnodes
    cases rest with
    | nil => exact .done halone
    | cons u rest =>
      by_cases hu : u.kind = .keyword .else_
      · have hchain (v : Token) (vs : List Token) (hv : v.kind = .keyword .if_) :
            Course b [] (v :: vs) (conditional e b n (v :: vs)) := by
          cases n with
          | zero => exact .stuck (.here rfl)
          | succ n => exact .word (by rw [hv]; rfl) (ih n (Nat.lt_succ_self n) hv)
        dsimp only
        rw [if_pos hu]
        refine .word (by rw [hu]; rfl) ((otherwise_course hchain).map [body] fun tree => ?_)
        simp [Tree.errorNodes, Tree.errorNodesAll, ← hnodes]
      · dsimp only
        rw [if_neg hu]
        exact .done halone

end Statements

/-- A token of this kind announces a statement, and skipping ends before it. -/
def announces : Kind → Bool
  | .keyword .var | .keyword .if_ | .keyword .while_ => true
  | _ => false

theorem announces_iff {kind : Kind} :
    announces kind = true ↔
      kind = .keyword .var ∨ kind = .keyword .if_ ∨ kind = .keyword .while_ := by
  unfold announces
  split <;> simp_all

/-- The node of a statement has the nodes of skipped tokens of what it is around. -/
theorem Course.statement {b : List Token → Reading Tree} {ts : List Token} {r : Reading Tree}
    (h : Course b [] ts r) :
    Course b [] ts (r.andThen fun inner ts => .done (.node .statement inner []) ts) :=
  h.map [] fun t => by simp [Tree.errorNodes, Tree.errorNodesAll]

/-- A statement gets past the word that announces it. -/
theorem announced_course {n : Nat} {t : Token} (ht : announces t.kind = true) (ts : List Token) :
    Course (block (n + 1) (statement (n + 1))) [] ts (statement (n + 2) (t :: ts)) := by
  have he := @expression_reads (fun _ => True) (n + 1)
  rw [statement]
  refine Course.statement ?_
  rcases announces_iff.mp ht with ht | ht | ht
  · rw [ht]
    exact declaration_course he ht
  · rw [ht]
    exact conditional_course he n ht
  · rw [ht]
    exact loop_course he ht

/-- Every statement is read in one of the ways of a course. -/
theorem statement_course (n : Nat) (ts : List Token) :
    Course (block n (statement n)) [] ts (statement (n + 1) ts) := by
  cases ts with
  | nil => exact .stuck (.here rfl)
  | cons t ts =>
    have he := @expression_reads (fun _ => True) n
    rw [statement]
    refine Course.statement ?_
    split
    · exact (declaration_reads he).course rfl fun _ h => h.simple_declaration
    · rename_i ht
      cases n with
      | zero => exact .stuck (.here rfl)
      | succ n => exact .word (by rw [ht]; rfl) (conditional_course he n ht)
    · rename_i ht
      exact .word (by rw [ht]; rfl) (loop_course he ht)
    · exact block_course
    · split
      · exact (callStatement_reads he n).course rfl fun _ h => h.simple_callStatement
      · exact (assignment_reads he).course rfl fun _ h => h.simple_assignment
    · exact .stuck (.here rfl)

end ImpC.Grammar
