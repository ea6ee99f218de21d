import ImpC.Proofs.Token.Run
import ImpC.Proofs.Grammar.ErrorNodes
import ImpC.Proofs.Surface.Words

/-!
# The places of trees

The leaves of a part of a tree are significant tokens that follow one another in the text, so that
the location of the part is exactly the stretch of their run. The parts of a node come one behind the
other, since the tokens do.
-/
namespace ImpC

namespace Tree

theorem leavesAll_eq_flatMap (ts : List Tree) : leavesAll ts = ts.flatMap leaves := by
  induction ts with
  | nil => rfl
  | cons t ts ih => rw [leavesAll, ih, List.flatMap_cons]

/-- The first token of a tree is its first leaf. -/
theorem head?_leaves (t : Tree) : t.leaves.head? = some t.firstToken := by
  cases t with
  | leaf => rfl
  | node _ first rest =>
    rw [leaves, List.head?_append_of_ne_nil _ first.leaves_ne_nil, head?_leaves first, firstToken]

mutual

/-- The last token of a tree is its last leaf. -/
theorem getLast?_leaves : ∀ t : Tree, t.leaves.getLast? = some t.lastToken
  | .leaf _ => rfl
  | .node _ first rest => by
    rw [leaves, List.getLast?_append, getLast?_leavesAll rest, getLast?_leaves first, lastToken]
    cases lastTokenAmong? rest <;> rfl

theorem getLast?_leavesAll : ∀ ts : List Tree, (leavesAll ts).getLast? = lastTokenAmong? ts
  | [] => rfl
  | t :: ts => by
    rw [leavesAll, List.getLast?_append, getLast?_leavesAll ts, getLast?_leaves t, lastTokenAmong?]
    cases lastTokenAmong? ts <;> rfl

end

theorem firstToken_mem (t : Tree) : t.firstToken ∈ t.leaves := List.mem_of_head? t.head?_leaves

theorem lastToken_mem (t : Tree) : t.lastToken ∈ t.leaves := List.mem_of_getLast? t.getLast?_leaves

theorem leavesAll_children (r : Rule) (first : Tree) (rest : List Tree) :
    leavesAll (first :: rest) = (Tree.node r first rest).leaves := rfl

mutual

/-- The leaves of a part follow one another among the leaves of the whole. -/
theorem leaves_preorder (depth : Nat) :
    ∀ t : Tree, ∀ part ∈ t.preorder depth, part.2.leaves <:+: t.leaves
  | .leaf _, part, hpart => by
    rw [preorder, List.mem_singleton] at hpart
    rw [hpart]
  | .node rule first rest, part, hpart => by
    rw [preorder, List.mem_cons, List.mem_append] at hpart
    rcases hpart with rfl | hpart | hpart
    · exact List.infix_rfl
    · exact (leaves_preorder (depth + 1) first part hpart).trans (List.infix_append [] _ _)
    · exact (leaves_preorderAll (depth + 1) rest part hpart).trans (List.suffix_append _ _).isInfix

theorem leaves_preorderAll (depth : Nat) :
    ∀ ts : List Tree, ∀ part ∈ preorderAll depth ts, part.2.leaves <:+: leavesAll ts
  | [], _, hpart => by cases hpart
  | t :: ts, part, hpart => by
    rw [preorderAll, List.mem_append] at hpart
    rcases hpart with hpart | hpart
    · exact (leaves_preorder depth t part hpart).trans (List.infix_append [] _ _)
    · exact (leaves_preorderAll depth ts part hpart).trans (List.suffix_append _ _).isInfix

end

end Tree

/-- Tokens that are given in the order of a text. -/
structure Ordered (ts : List Token) : Prop where
  before : ts.Pairwise Token.Before
  forward : ∀ t ∈ ts, t.location.start ≤ t.location.stop

namespace Ordered

variable {ts : List Token} {t u : Token}

theorem part {ts' : List Token} (h : Ordered ts) (hin : ts' <:+: ts) : Ordered ts' :=
  ⟨h.before.sublist hin.sublist, fun t ht => h.forward t (hin.subset ht)⟩

/-- No token starts before the first one. -/
theorem start_le (h : Ordered ts) (ht : ts.head? = some t) (hu : u ∈ ts) :
    t.location.start ≤ u.location.start := by
  obtain ⟨more, rfl⟩ := List.head?_eq_some_iff.mp ht
  rcases List.mem_cons.mp hu with rfl | hu
  · exact Nat.le_refl _
  · exact (h.forward t List.mem_cons_self).trans (List.rel_of_pairwise_cons h.before hu)

/-- No token stops behind the last one. -/
theorem stop_le (h : Ordered ts) (ht : ts.getLast? = some t) (hu : u ∈ ts) :
    u.location.stop ≤ t.location.stop := by
  obtain ⟨init, rfl⟩ := List.getLast?_eq_some_iff.mp ht
  rcases List.mem_append.mp hu with hu | hu
  · have hbefore := (List.pairwise_append.mp h.before).2.2 u hu t List.mem_cons_self
    exact Nat.le_trans hbefore (h.forward t (by simp))
  · rw [List.mem_singleton.mp hu]

end Ordered

namespace Tree

/-- The location of a tree is that of its leaves and the layout between them: it is not empty, goes
from the start of the first leaf to the end of the last one and covers the text of their run. -/
structure Exact (source : Source) (t : Tree) : Prop where
  nonempty : t.location.start < t.location.stop
  start : t.leaves.head?.map (·.location.start) = some t.location.start
  stop : t.leaves.getLast?.map (·.location.stop) = some t.location.stop
  covers : ∃ earlier run, Lexer.Run source t.leaves earlier run ∧
    t.location.text? = some (run.flatMap (·.text)) ∧
    t.location.Covers source (earlier.flatMap (·.text)) (run.flatMap (·.text))

/-- The parts of a node are within it, one behind the other. -/
structure Nested (t : Tree) : Prop where
  apart : t.children.Pairwise fun a b => a.location.stop ≤ b.location.start
  inside : ∀ c ∈ t.children,
    t.location.start ≤ c.location.start ∧ c.location.stop ≤ t.location.stop

theorem exact_of_within {source : Source} {t : Tree}
    (h : t.leaves <:+: (Lexer.start source).tokenize.tokens) (hlast : t.lastToken.text ≠ []) :
    t.Exact source := by
  obtain ⟨earlier, run, hrun⟩ := Lexer.exists_run h t.leaves_ne_nil
  have hcovers := hrun.covers t.head?_leaves t.getLast?_leaves hlast
  refine ⟨hcovers.start_lt_stop fun hnil => ?_, ?_, ?_, earlier, run, hrun, hcovers.text?, hcovers⟩
  · have hmem := List.mem_of_getLast? (hrun.last.trans t.getLast?_leaves)
    exact hlast (List.flatMap_eq_nil_iff.mp hnil _ hmem)
  · rw [t.head?_leaves]
    rfl
  · rw [t.getLast?_leaves]
    rfl

/-- The place of a tree reaches from its first token to its last, and its parts lie within. -/
theorem nested_of_ordered {t : Tree} (h : Ordered t.leaves) : t.Nested := by
  match t with
  | .leaf _ => exact ⟨List.Pairwise.nil, fun c hc => by cases hc⟩
  | .node r first rest =>
    have hflat := leavesAll_eq_flatMap (first :: rest)
    rw [leavesAll_children r] at hflat
    constructor
    · have hbefore := h.before
      rw [hflat, List.pairwise_flatMap] at hbefore
      exact hbefore.2.imp fun {a b} hab => hab _ a.lastToken_mem _ b.firstToken_mem
    · intro c hc
      have hin : ∀ u ∈ c.leaves, u ∈ (Tree.node r first rest).leaves := by
        intro u hu
        rw [hflat]
        exact List.mem_flatMap.mpr ⟨c, hc, hu⟩
      exact ⟨h.start_le (head?_leaves _) (hin _ c.firstToken_mem),
        h.stop_le (getLast?_leaves _) (hin _ c.lastToken_mem)⟩

end Tree

namespace Lexer

/-- Tokens come in the order of the text. -/
theorem tokenize_ordered (source : Source) : Ordered (start source).tokenize.tokens :=
  ⟨(tokens_ordered source).sublist List.filter_sublist,
    fun _ ht => start_le_stop (List.mem_filter.mp ht).1⟩

/-- The significant tokens of a text are those that the parser reads, none of them empty, and then the
end, which covers nothing behind the whole text. -/
theorem tokenize_ends (source : Source) :
    ∃ ts last, (start source).tokenize.tokens = ts ++ [last] ∧
      Parser.body (start source).tokenize.tokens = ts ∧
      Parser.ending? (start source).tokenize.tokens = some last ∧ last.kind = .eof ∧
      last.location.Covers source source.text [] ∧ ∀ t ∈ ts, t.text ≠ [] := by
  obtain ⟨all, last, htokens, hlast, hempty, hall, hflat, -⟩ := (start_at source).tokens rfl
  have hkept : (start source).tokenize.tokens = all.filter (!·.kind.isIgnorable) ++ [last] := by
    rw [tokenize, htokens, List.filter_append]
    simp [hlast, Kind.isIgnorable]
  have hparts : Parser.body (start source).tokenize.tokens = all.filter (!·.kind.isIgnorable) ∧
      Parser.ending? (start source).tokenize.tokens = some last := by
    rw [hkept]
    exact Grammar.body_ending_append (fun t ht => (hall t (List.mem_filter.mp ht).1).1)
      (by simpa using hlast)
  have hcovers := covers_of_split htokens
  rw [hempty, hflat] at hcovers
  exact ⟨_, last, hkept, hparts.1, hparts.2, hlast, hcovers,
    fun t ht => (hall t (List.mem_filter.mp ht).1).2⟩

/-- Tokens that the parser reads one after the other form a run, which has no end in it. -/
theorem exists_body_run {source : Source} {ts : List Token}
    (h : ts <:+: Parser.body (start source).tokenize.tokens) (hne : ts ≠ []) :
    ∃ earlier run, Run source ts earlier run ∧
      ∀ t ∈ ts, t ∈ (start source).tokenize.tokens ∧ t.kind ≠ .eof ∧ t.text ≠ [] := by
  obtain ⟨body, last, htokens, hbody, -, -, -, htexts⟩ := tokenize_ends source
  have hwithin : ts <:+: (start source).tokenize.tokens := by
    rw [htokens, ← hbody]
    exact h.trans (List.prefix_append _ _).isInfix
  obtain ⟨earlier, run, hrun⟩ := exists_run hwithin hne
  refine ⟨earlier, run, hrun, fun t ht => ⟨hwithin.subset ht, ?_, ?_⟩⟩
  · have hkind : decide (t.kind ≠ .eof) = true :=
      List.mem_takeWhile_imp (p := fun u : Token => u.kind ≠ .eof) (h.subset ht)
    exact of_decide_eq_true hkind
  · exact htexts t (hbody ▸ h.subset ht)

end Lexer

namespace Grammar

open ImpC.Parser

variable {source : Source} {tree : Tree}

/-- The leaves of a tree that is read from a text are its significant tokens. -/
theorem leaves_eq_tokens (h : (parse (Lexer.start source).tokenize.tokens).tree = some tree) :
    tree.leaves = (Lexer.start source).tokenize.tokens := by
  obtain ⟨first, more, rfl, hleaves, -⟩ := parse_tree h
  obtain ⟨ts, last, htokens, hbody, hending, -⟩ := Lexer.tokenize_ends source
  rw [leaves_program, hleaves, hbody, hending, htokens]
  rfl

/-- Below the root only the last leaf is the end of the text. -/
theorem leaves_nonempty (h : (parse (Lexer.start source).tokenize.tokens).tree = some tree) :
    ∀ part ∈ tree.preorder 0, 0 < part.1 → (∀ t, part.2 = .leaf t → t.kind ≠ .eof) →
      part.2.lastToken.text ≠ [] := by
  obtain ⟨first, more, rfl, hleaves, -⟩ := parse_tree h
  obtain ⟨ts, last, -, hbody, hending, hlast, -, hts⟩ := Lexer.tokenize_ends source
  rw [hbody] at hleaves
  rw [hending]
  intro part hpart hdepth hleaf
  rw [preorder_program, List.mem_cons, List.mem_append] at hpart
  rcases hpart with rfl | hpart | hpart
  · exact absurd hdepth (Nat.lt_irrefl 0)
  · have hin := Tree.leaves_preorderAll 1 _ part hpart
    rw [hleaves] at hin
    exact hts _ (hin.subset part.2.lastToken_mem)
  · obtain rfl : (1, Tree.leaf last) = part := by simpa [eq_comm] using hpart
    exact absurd hlast (hleaf last rfl)

end Grammar

/-- The location of every part of a tree below the root, the end of the text apart, is not empty and
covers the stretch of the source that is made of its leaves and the layout between them, with the
places of its first and last character. The parts of every node lie within it, one behind the other,
and the root ends where the text does. -/
theorem tree_locations {source : Source} {tree : Tree}
    (h : (parse (Lexer.start source).tokenize.tokens).tree = some tree) :
    (∀ part ∈ tree.preorder 0, 0 < part.1 → (∀ t, part.2 = .leaf t → t.kind ≠ .eof) →
      part.2.Exact source) ∧
    (∀ part ∈ tree.preorder 0, part.2.Nested) ∧
    tree.location.stop = source.text.byteSize := by
  have hleaves := Grammar.leaves_eq_tokens h
  have hin : ∀ part ∈ tree.preorder 0, part.2.leaves <:+: (Lexer.start source).tokenize.tokens := by
    intro part hpart
    rw [← hleaves]
    exact tree.leaves_preorder 0 part hpart
  refine ⟨fun part hpart hdepth hleaf => ?_, fun part hpart => ?_, ?_⟩
  · exact Tree.exact_of_within (hin part hpart) (Grammar.leaves_nonempty h part hpart hdepth hleaf)
  · exact Tree.nested_of_ordered ((Lexer.tokenize_ordered source).part (hin part hpart))
  · obtain ⟨ts, last, htokens, -, -, -, hcovers, -⟩ := Lexer.tokenize_ends source
    have hlast : tree.lastToken = last := by
      rw [← Option.some_inj, ← tree.getLast?_leaves, hleaves, htokens, List.getLast?_concat]
    have hstop : tree.location.stop = last.location.stop := by
      rw [← hlast]
      rfl
    rw [hstop, hcovers.stop, List.append_nil]

/-- A text with parentheses, a comment within a statement, tokens that are skipped and characters of
more than one byte. -/
theorem tree_locations_skipped :
    let source : Source := ⟨[], "var y = (1 + 2) // sum\r\n * 3;\n print \"é\"; \n".toList⟩
    ∃ tree, (parse (Lexer.start source).tokenize.tokens).tree = some tree ∧
      (∀ part ∈ tree.preorder 0, 0 < part.1 → (∀ t, part.2 = .leaf t → t.kind ≠ .eof) →
        part.2.Exact source) ∧
      (∀ part ∈ tree.preorder 0, part.2.Nested) ∧ tree.location.stop = 44 := by
  intro source
  have htokens : (Lexer.start source).tokens = ((Lexer.start source).advance 45).1 :=
    Lexer.tokens_eq_advance (by decide)
  have hsome : (parse (Lexer.start source).tokenize.tokens).tree.isSome = true := by
    rw [Lexer.tokenize, htokens]
    decide +kernel
  obtain ⟨tree, htree⟩ := Option.isSome_iff_exists.mp hsome
  obtain ⟨hexact, hnested, hstop⟩ := tree_locations htree
  exact ⟨tree, htree, hexact, hnested, hstop⟩

end ImpC
