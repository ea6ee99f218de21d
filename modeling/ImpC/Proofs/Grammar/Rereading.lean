import Mathlib.Data.List.Forall2
import ImpC.Proofs.Grammar.Malformed

/-!
# Programs are read back

The leaves of a program are read back as its tree. This holds as well with malformed statements in
it: there is one mistake for each of them, at one of its tokens.
-/
namespace ImpC

mutual

/-- The nodes of skipped tokens from left to right. -/
def Tree.errorNodes : Tree → List Tree
  | .leaf _ => []
  | .node .error first rest => [.node .error first rest]
  | .node _ first rest => first.errorNodes ++ Tree.errorNodesAll rest

def Tree.errorNodesAll : List Tree → List Tree
  | [] => []
  | t :: ts => t.errorNodes ++ Tree.errorNodesAll ts

end

theorem Tree.errorNodes_node {r : Rule} (hr : r ≠ .error) (first : Tree) (rest : List Tree) :
    (Tree.node r first rest).errorNodes = first.errorNodes ++ Tree.errorNodesAll rest := by
  cases r with
  | error => exact absurd rfl hr
  | _ => simp [errorNodes]

@[simp] theorem Tree.errorNodesAll_append (s t : List Tree) :
    errorNodesAll (s ++ t) = errorNodesAll s ++ errorNodesAll t := by
  induction s with
  | nil => rfl
  | cons a s ih => simp [errorNodesAll, ih]

namespace Grammar

open ImpC.Parser

variable {skips : List Token → Prop} {α β : Type}

/-- There is no node of skipped tokens below rules that do not lead to a statement, and none at all
if nothing may be skipped. -/
theorem Derives.errorNodes_within {rules : Rule → Bool}
    (hrules : ∀ r, rules r = true → (production r).within (fun _ => true) rules = true)
    (hskips : rules .statement = true → ∀ t ts, ¬ skips (t :: ts)) {p : Phrase} {trees : List Tree}
    (h : Derives skips p trees) (hp : p.within (fun _ => true) rules = true) :
    Tree.errorNodesAll trees = [] := by
  induction h with
  | token => rfl
  | @node r first rest h ih =>
    have hr : r ≠ .error := by
      rintro rfl
      obtain ⟨t, ht, -⟩ := derives_oneOf.mp h
      cases ht
    have hnodes := ih (hrules r hp)
    simpa [Tree.errorNodesAll, Tree.errorNodes_node hr] using hnodes
  | skipped h => exact absurd h (hskips hp _ _)
  | empty | none => rfl
  | seq _ _ ih ih' =>
    simp only [Phrase.within, Bool.and_eq_true] at hp
    rw [Tree.errorNodesAll_append, ih hp.1, ih' hp.2, List.append_nil]
  | first _ ih =>
    simp only [Phrase.within, Bool.and_eq_true] at hp
    exact ih hp.1
  | second _ ih =>
    simp only [Phrase.within, Bool.and_eq_true] at hp
    exact ih hp.2
  | more _ _ ih ih' => rw [Tree.errorNodesAll_append, ih hp, ih' hp, List.append_nil]

/-- Where nothing may be skipped, there are no nodes of skipped tokens. -/
theorem Derivation.errorNodes {p : Phrase} (hp : p.within (fun _ => true) (fun _ => true) = true)
    {trees : List Tree} (h : Derivation p trees) : Tree.errorNodesAll trees = [] := by
  have hrules : ∀ r, (production r).within (fun _ => true) (fun _ => true) = true := by
    intro r
    cases r <;> rfl
  exact Derives.errorNodes_within (fun r _ => hrules r) (fun _ _ _ h => h) h hp

/-- The rules of statements without statements in them, and of their parts. -/
def isFlat (r : Rule) : Bool :=
  isPlainRule r || r = .declaration || r = .assignment || r = .callStatement

theorem production_flat {r : Rule} (hr : isFlat r = true) :
    (production r).within (fun _ => true) isFlat = true := by
  cases r with
  | program | statement | conditional | alternative | loop | block | error => cases hr
  | _ => rfl

theorem IsA.errorNodes_flat {r : Rule} (hr : isFlat r = true) {t : Tree} (h : IsA skips r t) :
    t.errorNodes = [] := by
  simpa [Tree.errorNodesAll] using
    Derives.errorNodes_within (fun _ => production_flat) (fun h => by cases h) h hr

/-- The mistake lies at a token of the tree. -/
def Within (s : Stuck) (t : Tree) : Prop := ∃ u ∈ t.leaves, s.rest.head? = some u

/-- The reading succeeds, with one mistake in each of the nodes `errors`. -/
def Gives (r : Reading α) (a : α) (rest : List Token) (errors : List Tree) : Prop :=
  ∃ ms, r = ⟨ms, .ok (a, rest)⟩ ∧ List.Forall₂ Within ms errors

theorem Gives.of {x : Except Stuck (α × List Token)} {a : α} {rest : List Token}
    (h : x = .ok (a, rest)) : Gives (Reading.of x) a rest [] :=
  ⟨[], by rw [h, Reading.of], .nil⟩

theorem Gives.done (a : α) (rest : List Token) : Gives (Reading.done a rest) a rest [] := .of rfl

/-- The mistakes of a sequence are in the nodes of its parts. -/
theorem Gives.andThen {r : Reading α} {a : α} {ts : List Token} {errors errors' all : List Tree}
    (hall : all = errors ++ errors') (h : Gives r a ts errors)
    {next : α → List Token → Reading β} {b : β} {rest : List Token}
    (h' : Gives (next a ts) b rest errors') : Gives (r.andThen next) b rest all := by
  obtain ⟨ms, rfl, hms⟩ := h
  obtain ⟨ms', hnext, hms'⟩ := h'
  subst hall
  exact ⟨ms ++ ms', by simp [Reading.andThen, hnext], List.rel_append hms hms'⟩

/-- As `Rereads`, with malformed statements in the trees. -/
def RereadsOn (r : Rule) (n : Nat) (ends : List Token → Prop) (p : List Token → Reading Tree) :
    Prop :=
  ∀ t rest, IsA Malformed r t → t.leaves.length < n → ends rest →
    Gives (p (t.leaves ++ rest)) t rest t.errorNodes

theorem Rereads.rereadsOn {r : Rule} (hr : isFlat r = true) {n : Nat} {ends : List Token → Prop}
    {p : Parser Tree} (h : Rereads Malformed r n ends p) :
    RereadsOn r n ends (fun ts => Reading.of (p ts)) := by
  intro t rest ht hlen hrest
  rw [ht.errorNodes_flat hr]
  exact .of (h t rest ht hlen hrest)

theorem IsA.leaves_block {t : Tree} (h : IsA skips .block t) :
    ∃ opening more, opening.kind = .openCurly ∧ t.leaves = opening :: more := by
  obtain ⟨opening, body, closing, ho, -, -, rfl⟩ := isA_block.mp h
  exact ⟨opening, _, ho, rfl⟩

theorem IsA.leaves_conditional {t : Tree} (h : IsA skips .conditional t) :
    ∃ word more, word.kind = .keyword .if_ ∧ t.leaves = word :: more := by
  obtain ⟨_, _, ⟨word, _, _, _, _, hw, -, -, -, -, rfl, -⟩, rfl | ⟨_, -, rfl⟩⟩ := isA_conditional.mp h
  · exact ⟨word, _, hw, rfl⟩
  · exact ⟨word, _, hw, rfl⟩

theorem IsA.leaves_call {t : Tree} (h : IsA skips .call t) :
    ∃ f o more, f.kind = .ident ∧ o.kind = .openParen ∧ t.leaves = f :: o :: more := by
  obtain ⟨f, o, c, hf, ho, -, rfl | ⟨arguments, -, rfl⟩⟩ := isA_call.mp h
  · exact ⟨f, o, _, hf, ho, rfl⟩
  · exact ⟨f, o, _, hf, ho, rfl⟩

/-- What follows a statement is no alternative to it. -/
def NoElse (rest : List Token) : Prop := ∀ t ∈ rest.head?, t.kind ≠ .keyword .else_

/-- No statement starts with a closing brace or with `else`, so blocks and conditionals end where
they should. -/
theorem IsA.head_statement {t : Tree} (h : IsA Malformed .statement t) :
    ∀ u ∈ t.leaves.head?, u.kind ≠ .closeCurly ∧ u.kind ≠ .keyword .else_ := by
  let kinds : Kind → Bool := fun k => k ≠ .closeCurly && k ≠ .keyword .else_
  let rules : Rule → Bool := fun r => !isPlainRule r && r != .alternative || r = .call
  have hrules : ∀ r, rules r = true → (production r).startsWithin kinds rules = true := by
    intro r hr
    cases r with
    | expression | or | and | equality | comparison | additive | multiplicative | unary | primary
    | arguments | typeClause | alternative => cases hr
    | _ => rfl
  have hskips : ∀ t ts, Malformed (t :: ts) → kinds t.kind = true := fun t ts hm => by
    simpa [kinds] using ⟨(hm.no_brace t (by simp)).2, hm.no_else t rfl⟩
  intro u hu
  have hw := Derives.head_within hrules (fun _ => hskips) h rfl u
    (by simpa [Tree.leavesAll] using hu)
  simpa [kinds] using hw

theorem noElse_leavesAll {trees : List Tree} (htrees : ∀ t ∈ trees, IsA Malformed .statement t)
    {rest : List Token} (hrest : NoElse rest) : NoElse (Tree.leavesAll trees ++ rest) := by
  cases trees with
  | nil => exact hrest
  | cons first more =>
    intro u hu
    rw [Tree.leavesAll, List.append_assoc, List.head?_append_of_ne_nil _ first.leaves_ne_nil] at hu
    exact ((htrees first (by simp)).head_statement u hu).2

/-- Statements are read back one by one, up to the end or a token that stops them. -/
theorem statements_reread {p : List Token → Reading Tree} {n : Nat}
    (hp : RereadsOn .statement n NoElse (recovering p)) {stops : Kind → Bool}
    (hstops : ∀ k, stops k = true → k = .closeCurly) {trees : List Tree}
    (htrees : ∀ t ∈ trees, IsA Malformed .statement t) (bound : Nat)
    (hbound : (Tree.leavesAll trees).length < bound) (hn : (Tree.leavesAll trees).length < n)
    {rest : List Token} (hrest : NoElse rest) (hstop : ∀ t ∈ rest.head?, stops t.kind = true) :
    Gives (statements p stops bound (Tree.leavesAll trees ++ rest)) trees rest
      (Tree.errorNodesAll trees) := by
  induction trees generalizing bound with
  | nil =>
    cases bound with
    | zero => exact .done [] rest
    | succ bound =>
      cases rest with
      | nil => exact .done [] []
      | cons t rest =>
        simp only [Tree.leavesAll, List.nil_append, statements, hstop t rfl, if_true]
        exact .done [] _
  | cons first more ih =>
    have hfirst := htrees first (by simp)
    have hmore : ∀ t ∈ more, IsA Malformed .statement t := fun t ht => htrees t (by simp [ht])
    have hpos : 0 < first.leaves.length := List.length_pos_iff.mpr first.leaves_ne_nil
    simp only [Tree.leavesAll, List.length_append] at hbound hn
    obtain ⟨bound, rfl⟩ : ∃ b, bound = b + 1 := ⟨bound - 1, by omega⟩
    have hread := hp first (Tree.leavesAll more ++ rest) hfirst (by omega)
      (noElse_leavesAll hmore hrest)
    have hreads := ih hmore bound (by omega) (by omega)
    obtain ⟨u, us, hleaves⟩ := List.exists_cons_of_ne_nil first.leaves_ne_nil
    have hgo : stops u.kind = false := by
      have hu := (hfirst.head_statement u (by simp [hleaves])).1
      exact Bool.eq_false_iff.mpr fun h => hu (hstops _ h)
    rw [hleaves, List.cons_append] at hread
    rw [Tree.leavesAll, List.append_assoc, hleaves, List.cons_append, statements, hgo]
    refine .andThen rfl hread ?_
    exact .andThen (List.append_nil _).symm hreads (.done _ _)

/-- The statements of a block are read up to its closing brace and not beyond. -/
theorem block_rereadsOn {p : List Token → Reading Tree} {n : Nat}
    (hp : RereadsOn .statement n NoElse (recovering p)) :
    RereadsOn .block (n + 1) (fun _ => True) (block n p) := by
  intro t rest ht hlen _
  obtain ⟨opening, body, closing, ho, hbody, hc, rfl⟩ := isA_block.mp ht
  simp only [Tree.leaves, Tree.leavesAll, Tree.leavesAll_append, List.length_append,
    List.length_cons, List.length_nil] at hlen
  have hread := statements_reread hp (fun _ => of_decide_eq_true) hbody n (by omega) (by omega)
    (by simp [NoElse, hc] : NoElse (closing :: rest)) (by simp [hc])
  have hleaves : (Tree.node .block (.leaf opening) (body ++ [.leaf closing])).leaves ++ rest =
      opening :: (Tree.leavesAll body ++ closing :: rest) := by
    simp [Tree.leaves, Tree.leavesAll]
  have herrors : (Tree.node .block (.leaf opening) (body ++ [.leaf closing])).errorNodes =
      Tree.errorNodesAll body := by
    simp [Tree.errorNodes, Tree.errorNodesAll]
  rw [hleaves, herrors]
  refine .andThen (List.nil_append _).symm (.of (exactly_cons ho _)) ?_
  refine .andThen (List.append_nil _).symm hread ?_
  exact .andThen rfl (.of (exactly_cons hc rest)) (.done _ _)

theorem guarded_reread {n : Nat} {p : Parser Tree}
    (hp : Rereads Malformed .expression n (Ends levels) p) {b : List Token → Reading Tree}
    (hb : RereadsOn .block (n + 1) (fun _ => True) b) {word : Keyword} {first : Tree}
    {parts : List Tree} (h : Guarded Malformed word first parts)
    (hlen : (Tree.leavesAll (first :: parts)).length < n + 1) (rest : List Token) :
    Gives (guarded word p b (Tree.leavesAll (first :: parts) ++ rest)) (first, parts) rest
      (Tree.errorNodesAll (first :: parts)) := by
  obtain ⟨start, o, condition, c, body, hw, ho, hcondition, hc, hbody, rfl, rfl⟩ := h
  simp only [Tree.leavesAll, Tree.leaves, List.length_append, List.length_cons, List.length_nil]
    at hlen
  have hleaves : Tree.leavesAll [.leaf start, .leaf o, condition, .leaf c, body] ++ rest =
      start :: o :: (condition.leaves ++ c :: (body.leaves ++ rest)) := by
    simp [Tree.leavesAll, Tree.leaves]
  have herrors : Tree.errorNodesAll [.leaf start, .leaf o, condition, .leaf c, body] =
      body.errorNodes := by
    simp [Tree.errorNodesAll, Tree.errorNodes, hcondition.errorNodes_flat rfl]
  rw [hleaves, herrors]
  refine .andThen (List.nil_append _).symm (.of (exactly_cons hw _)) ?_
  refine .andThen (List.nil_append _).symm
    (.of (parenthesized_rereads hp ho hc hcondition (by omega) _)) ?_
  exact .andThen (List.append_nil _).symm (hb body rest hbody (by omega) trivial) (.done _ _)

theorem loop_rereadsOn {n : Nat} {p : Parser Tree}
    (hp : Rereads Malformed .expression n (Ends levels) p) {b : List Token → Reading Tree}
    (hb : RereadsOn .block (n + 1) (fun _ => True) b) :
    RereadsOn .loop (n + 1) (fun _ => True) (loop p b) := by
  intro t rest ht hlen _
  obtain ⟨word, parts, hparts, rfl⟩ := isA_loop.mp ht
  rw [Tree.errorNodes_node (by simp)]
  exact .andThen (List.append_nil _).symm (guarded_reread hp hb hparts hlen rest) (.done _ _)

/-- No `else` may follow, or it would be taken for one of its own. -/
theorem conditional_rereadsOn {n : Nat} {p : Parser Tree}
    (hp : Rereads Malformed .expression n (Ends levels) p) {b : List Token → Reading Tree}
    (hb : RereadsOn .block (n + 1) (fun _ => True) b) (bound : Nat) (hbound : bound ≤ n) :
    RereadsOn .conditional (bound + 1) NoElse (conditional p b bound) := by
  induction bound with
  | zero =>
    intro t rest _ hlen
    exact absurd (List.length_eq_zero_iff.mp (Nat.lt_one_iff.mp hlen)) t.leaves_ne_nil
  | succ bound ih =>
    intro t rest ht hlen hrest
    obtain ⟨word, parts, hparts, rfl | ⟨other, hother, rfl⟩⟩ := isA_conditional.mp ht
    · rw [Tree.errorNodes_node (by simp)]
      refine .andThen (List.append_nil _).symm
        (guarded_reread hp hb hparts (Nat.lt_of_lt_of_le hlen (by omega)) rest) ?_
      cases rest with
      | nil => exact .done _ _
      | cons u rest =>
        dsimp only
        rw [if_neg (hrest u rfl)]
        exact .done _ _
    · obtain ⟨other, body, ho, hbody, rfl⟩ := isA_alternative.mp hother
      simp only [Tree.leaves, Tree.leavesAll_append, Tree.leavesAll, List.length_append,
        List.length_cons, List.length_nil] at hlen
      -- the token behind `else` tells which of the two is read
      have hread : Gives
          (if startsWith (.keyword .if_) (body.leaves ++ rest) then
            conditional p b bound (body.leaves ++ rest) else b (body.leaves ++ rest))
          body rest body.errorNodes := by
        rcases hbody with hbody | hbody
        · obtain ⟨opening, more, ho, hleaves⟩ := hbody.leaves_block
          have hstart : startsWith (.keyword .if_) (body.leaves ++ rest) = false := by
            simp [hleaves, startsWith, ho]
          rw [hstart]
          exact hb body rest hbody (by omega) trivial
        · obtain ⟨word, more, hw, hleaves⟩ := hbody.leaves_conditional
          have hstart : startsWith (.keyword .if_) (body.leaves ++ rest) = true := by
            simp [hleaves, startsWith, hw]
          rw [hstart]
          exact ih (by omega) body rest hbody (by omega) hrest
      have hleaves : (Tree.node .conditional word
            (parts ++ [.node .alternative (.leaf other) [body]])).leaves ++ rest =
          Tree.leavesAll (word :: parts) ++ other :: (body.leaves ++ rest) := by
        simp [Tree.leaves, Tree.leavesAll]
      have herrors : (Tree.node .conditional word
            (parts ++ [.node .alternative (.leaf other) [body]])).errorNodes =
          Tree.errorNodesAll (word :: parts) ++ body.errorNodes := by
        simp [Tree.errorNodes, Tree.errorNodesAll]
      have hguarded : (Tree.leavesAll (word :: parts)).length < n + 1 := by
        simp only [Tree.leavesAll, List.length_append]
        omega
      rw [hleaves, herrors]
      refine .andThen rfl (guarded_reread hp hb hparts hguarded _) ?_
      dsimp only
      rw [if_pos ho]
      exact .andThen (List.append_nil _).symm hread (.done _ _)

/-- A statement is recognised by its first tokens. -/
theorem statement_reread (n : Nat) {inner : Tree} (hinner : IsA Malformed .declaration inner ∨
      IsA Malformed .assignment inner ∨ IsA Malformed .conditional inner ∨
      IsA Malformed .loop inner ∨ IsA Malformed .callStatement inner ∨ IsA Malformed .block inner)
    (hstatement : RereadsOn .statement n NoElse (recovering (statement n)))
    (hlen : inner.leaves.length < n + 1) {rest : List Token} (hrest : NoElse rest) :
    Gives (statement (n + 1) (inner.leaves ++ rest)) (.node .statement inner []) rest
      inner.errorNodes := by
  have he := @expression_rereads Malformed n
  have hb := block_rereadsOn hstatement
  rcases hinner with hi | hi | hi | hi | hi | hi
  · have hread := (declaration_rereads he).rereadsOn rfl inner rest hi hlen trivial
    obtain ⟨word, name, type, value, stop, hw, -, -, -, -, rfl⟩ := isA_declaration.mp hi
    simp only [Tree.leaves, List.cons_append, List.nil_append, statement, hw] at hread ⊢
    exact .andThen (List.append_nil _).symm hread (.done _ _)
  · have hread := (assignment_rereads he).rereadsOn rfl inner rest hi hlen trivial
    obtain ⟨target, sign, value, stop, ht, hs, -, -, rfl⟩ := isA_assignment.mp hi
    simp only [Tree.leaves, Tree.leavesAll, List.cons_append, List.nil_append, statement, ht,
      startsWith, hs] at hread ⊢
    exact .andThen (List.append_nil _).symm hread (.done _ _)
  · have hread := conditional_rereadsOn he hb n (Nat.le_refl n) inner rest hi hlen hrest
    obtain ⟨word, more, hw, hleaves⟩ := hi.leaves_conditional
    simp only [hleaves, List.cons_append, statement, hw] at hread ⊢
    exact .andThen (List.append_nil _).symm hread (.done _ _)
  · have hread := loop_rereadsOn he hb inner rest hi hlen trivial
    obtain ⟨_, _, ⟨word, _, _, _, _, hw, -, -, -, -, rfl, -⟩, rfl⟩ := isA_loop.mp hi
    simp only [Tree.leaves, List.cons_append, List.nil_append, statement, hw] at hread ⊢
    exact .andThen (List.append_nil _).symm hread (.done _ _)
  · have hread := (callStatement_rereads he).rereadsOn rfl inner rest hi hlen trivial
    obtain ⟨call, stop, hc, -, rfl⟩ := isA_callStatement.mp hi
    obtain ⟨f, o, more, hf, ho, hleaves⟩ := hc.leaves_call
    simp only [Tree.leaves, hleaves, List.cons_append, statement, hf, startsWith, ho, decide_true,
      if_true] at hread ⊢
    exact .andThen (List.append_nil _).symm hread (.done _ _)
  · have hread := hb inner rest hi hlen trivial
    obtain ⟨opening, more, ho, hleaves⟩ := hi.leaves_block
    simp only [hleaves, List.cons_append, statement, ho] at hread ⊢
    exact .andThen (List.append_nil _).symm hread (.done _ _)

theorem Gives.recovering {p : List Token → Reading Tree} {ts : List Token} {t : Tree}
    {rest : List Token} {errors : List Tree} (h : Gives (p ts) t rest errors) :
    Gives (recovering p ts) t rest errors := by
  cases ts with
  | nil => exact h
  | cons u ts =>
    obtain ⟨ms, hp, hms⟩ := h
    exact ⟨ms, by simp [Parser.recovering, hp], hms⟩

/-- Statements are read back, and malformed ones are stepped over as a whole. -/
theorem recovering_rereadsOn (n : Nat) :
    RereadsOn .statement n NoElse (recovering (statement n)) := by
  induction n with
  | zero => exact fun t rest _ hlen => absurd hlen (Nat.not_lt_zero _)
  | succ n ih =>
    intro t rest ht hlen hrest
    rcases isA_statement.mp ht with ⟨inner, hinner, rfl⟩ | ⟨u, us, hm, rfl⟩
    · simp only [Tree.leaves, Tree.leavesAll, List.append_nil] at hlen ⊢
      simpa [Tree.errorNodes, Tree.errorNodesAll] using
        (statement_reread n hinner ih hlen hrest).recovering
    · obtain ⟨s, hs, hwithin⟩ := hm.recovering (n + 1) rest
      have hleaves : (skippedTree u us).leaves = u :: us := by
        simp [skippedTree, Tree.leaves]
      rw [← hleaves] at hs hwithin
      exact ⟨[s], hs, .cons hwithin .nil⟩

theorem program_reread {n : Nat} {first : Tree} {more : List Tree}
    (htrees : ∀ t ∈ first :: more, IsA Malformed .statement t)
    (hlen : (Tree.leavesAll (first :: more)).length < n) (ending : Option Token) :
    Gives (program n ending (Tree.leavesAll (first :: more)))
      (.node .program first (more ++ ending.toList.map .leaf)) []
      (Tree.errorNodesAll (first :: more)) := by
  have hmore : ∀ t ∈ more, IsA Malformed .statement t := fun t ht => htrees t (by simp [ht])
  have hend : NoElse [] := by simp [NoElse]
  simp only [Tree.leavesAll, List.length_append] at hlen
  have hread := recovering_rereadsOn n first _ (htrees first (by simp)) (by omega)
    (noElse_leavesAll hmore hend)
  have hstops : ∀ k, (fun _ : Kind => false) k = true → k = .closeCurly := by simp
  have hreads := statements_reread (recovering_rereadsOn n) hstops hmore n (by omega) (by omega) hend
    (by simp)
  rw [← List.append_nil (Tree.leavesAll _), Tree.leavesAll, List.append_assoc]
  exact .andThen rfl hread (.andThen (List.append_nil _).symm hreads (.done _ _))

/-- The tokens of a program with malformed statements in it are read as the tree of that program, and
there is one error for each malformed statement. -/
theorem parse_reread {tokens : List Token} {first : Tree} {more : List Tree}
    (htrees : ∀ t ∈ first :: more, IsA Malformed .statement t)
    (hbody : body tokens = Tree.leavesAll (first :: more)) :
    ∃ ms, parse tokens = ⟨some (.node .program first (more ++ (ending? tokens).toList.map .leaf)),
        ms.map (·.error (endLocation tokens))⟩ ∧
      List.Forall₂ Within ms (Tree.errorNodesAll (first :: more)) := by
  obtain ⟨ms, hms, hwithin⟩ := program_reread htrees (Nat.lt_succ_self _) (ending? tokens)
  have hne : (body tokens).isEmpty = false := by
    simp [hbody, Tree.leavesAll, first.leaves_ne_nil]
  rw [← hbody] at hms
  refine ⟨ms, ?_, hwithin⟩
  simp only [parse, hne, hms]
  rfl

end Grammar

end ImpC
