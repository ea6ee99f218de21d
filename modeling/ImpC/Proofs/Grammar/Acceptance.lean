import ImpC.Proofs.Grammar.Rereading

/-!
# What the parser accepts

A token list is accepted without errors if and only if what precedes its end is a sentence of one or
more statements, and then the tree is its derivation. With or without errors, every token before the
end is a leaf of the tree, in its place.
-/
namespace ImpC.Grammar

open ImpC.Parser

variable {skips : List Token → Prop}

theorem derives_statements {trees : List Tree} :
    Derives skips (.oneOrMore (.rule .statement)) trees ↔
      ∃ first more, trees = first :: more ∧ ∀ t ∈ first :: more, IsA skips .statement t := by
  simp only [Phrase.oneOrMore, derives_seq, derives_rule, derives_many_rule]
  constructor
  · rintro ⟨_, ⟨first, hfirst, rfl⟩, more, hmore, rfl⟩
    exact ⟨first, more, rfl, by simpa using ⟨hfirst, hmore⟩⟩
  · rintro ⟨first, more, rfl, h⟩
    exact ⟨_, ⟨first, h first (by simp), rfl⟩, more, fun t ht => h t (by simp [ht]), rfl⟩

/-- The tree is a derivation of the tokens before the end: a program node with the statements and
then the end if there is one. -/
def IsDerivationOf (tokens : List Token) (tree : Tree) : Prop :=
  ∃ first more, tree = .node .program first (more ++ (ending? tokens).toList.map .leaf) ∧
    Derivation (.oneOrMore (.rule .statement)) (first :: more) ∧ tree.errorNodes = [] ∧
    tree.leaves = body tokens ++ (ending? tokens).toList

theorem leaves_program (first : Tree) (more : List Tree) (ending : Option Token) :
    (Tree.node .program first (more ++ ending.toList.map .leaf)).leaves =
      Tree.leavesAll (first :: more) ++ ending.toList := by
  simp [Tree.leaves, Tree.leavesAll]

theorem errorNodes_program (first : Tree) (more : List Tree) (ending : Option Token) :
    (Tree.node .program first (more ++ ending.toList.map .leaf)).errorNodes =
      Tree.errorNodesAll (first :: more) := by
  cases ending with
  | none => simp [Tree.errorNodes, Tree.errorNodesAll]
  | some t => simp [Tree.errorNodes, Tree.errorNodesAll]

/-- A derivation of a program has statements and, last, the end of the text if there is one. -/
theorem isDerivationOf_iff {tokens : List Token} {tree : Tree} :
    IsDerivationOf tokens tree ↔
      ∃ first more, tree = .node .program first (more ++ (ending? tokens).toList.map .leaf) ∧
        Derivation (.oneOrMore (.rule .statement)) (first :: more) ∧
        Tree.leavesAll (first :: more) = body tokens := by
  constructor
  · rintro ⟨first, more, rfl, hd, -, hleaves⟩
    exact ⟨first, more, rfl, hd, by simpa [leaves_program] using hleaves⟩
  · rintro ⟨first, more, rfl, hd, hleaves⟩
    refine ⟨first, more, rfl, hd, ?_, by rw [leaves_program, hleaves]⟩
    rw [errorNodes_program]
    exact Derivation.errorNodes rfl hd

theorem isDerivationOf_of_parse {tokens : List Token} {tree : Tree}
    (h : parse tokens = ⟨some tree, []⟩) : IsDerivationOf tokens tree := by
  obtain ⟨first, more, rfl, hleaves, hall⟩ := @parse_tree tokens tree (by rw [h])
  refine isDerivationOf_iff.mpr ⟨first, more, rfl, derives_statements.mpr ⟨first, more, rfl, ?_⟩,
    hleaves⟩
  exact hall (fun _ => False) fun herrors => absurd (by rw [h]) herrors

/-- A program that the grammar derives is read as derived, and without errors. -/
theorem parse_of_derivation {tokens : List Token} {first : Tree} {more : List Tree}
    (hd : Derivation (.oneOrMore (.rule .statement)) (first :: more))
    (hleaves : Tree.leavesAll (first :: more) = body tokens) :
    parse tokens =
      ⟨some (.node .program first (more ++ (ending? tokens).toList.map .leaf)), []⟩ := by
  obtain ⟨_, _, heq, hall⟩ := derives_statements.mp hd
  obtain ⟨rfl, rfl⟩ := List.cons.inj heq
  obtain ⟨ms, hparse, hms⟩ :=
    parse_reread (fun t ht => (hall t ht).mono fun _ => False.elim) hleaves.symm
  rw [Derivation.errorNodes rfl hd, List.forall₂_nil_right_iff] at hms
  rw [hparse, hms, List.map_nil]

/-- The parser accepts exactly the sentences of one or more statements, and gives exactly their
derivations. -/
theorem parse_accepts_iff (tokens : List Token) :
    ((∃ tree, parse tokens = ⟨some tree, []⟩) ↔
        Sentence (.oneOrMore (.rule .statement)) (body tokens)) ∧
      ∀ tree, parse tokens = ⟨some tree, []⟩ ↔ IsDerivationOf tokens tree := by
  have hiff : ∀ tree, parse tokens = ⟨some tree, []⟩ ↔ IsDerivationOf tokens tree := by
    refine fun tree => ⟨isDerivationOf_of_parse, fun h => ?_⟩
    obtain ⟨first, more, rfl, hd, hleaves⟩ := isDerivationOf_iff.mp h
    exact parse_of_derivation hd hleaves
  refine ⟨⟨?_, fun h => ?_⟩, hiff⟩
  · rintro ⟨tree, h⟩
    obtain ⟨first, more, -, hd, hleaves⟩ := isDerivationOf_iff.mp ((hiff tree).mp h)
    exact sentence_iff.mpr ⟨_, hd, hleaves⟩
  · obtain ⟨trees, hd, hleaves⟩ := sentence_iff.mp h
    obtain ⟨first, more, rfl, -⟩ := derives_statements.mp hd
    exact ⟨_, parse_of_derivation hd hleaves⟩

/-- A token without a text, at the start of an empty source. -/
def blank (kind : Kind) : Token := ⟨kind, [], (⟨[], []⟩ : Source).start⟩

/-- No token is lost, repeated or moved, whatever had to be skipped: the leaves of the tree are the
tokens before the end, and then the end as the last child of the root. -/
theorem parse_leaves {tokens : List Token} {tree : Tree} (h : (parse tokens).tree = some tree) :
    tree.leaves = body tokens ++ (ending? tokens).toList ∧
      (∀ e, ending? tokens = some e → tree.children.getLast? = some (.leaf e)) ∧
      ∀ node ∈ tree.preorder 0, (∃ t, node.2 = .leaf t) ∨ node.2.children ≠ [] := by
  obtain ⟨first, more, rfl, hleaves, -⟩ := parse_tree h
  refine ⟨by rw [leaves_program, hleaves], fun e he => ?_, fun node _ => ?_⟩
  · rw [Tree.children, he]
    exact List.getLast?_concat (l := first :: more)
  · cases node.2 with
    | leaf t => exact .inl ⟨t, rfl⟩
    | node r first rest => exact .inr (by simp [Tree.children])

/-- An assignment, a statement that had to be skipped, the end and what follows it. -/
def skippedStatementTokens : List Token :=
  [blank .ident, blank (.op .assign), blank .int, blank .semicolon, blank .comment, blank .int,
    blank .semicolon, blank .eof, blank .ident, blank .eof]

theorem parse_leaves_interrupted :
    ∃ tree, (parse skippedStatementTokens).tree = some tree ∧
      (parse skippedStatementTokens).errors.length = 1 ∧
      tree.leaves = skippedStatementTokens.take 8 ∧
      tree.children.getLast? = (skippedStatementTokens[7]?).map .leaf ∧
      ∀ node ∈ tree.preorder 0, (∃ t, node.2 = .leaf t) ∨ node.2.children ≠ [] := by
  have hsome : (parse skippedStatementTokens).tree.isSome = true := by decide
  obtain ⟨tree, htree⟩ := Option.isSome_iff_exists.mp hsome
  obtain ⟨hleaves, hlast, hnodes⟩ := parse_leaves htree
  exact ⟨tree, htree, by decide, hleaves, hlast _ rfl, hnodes⟩

end ImpC.Grammar
