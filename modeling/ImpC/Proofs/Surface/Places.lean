import ImpC.Proofs.Surface.Spelling
import ImpC.Proofs.Surface.Steps

/-!
# Names and values in their places

What holds of the names that stand in a text and of the expressions that its trees are holds of all
names and values of the program.
-/
namespace ImpC.Surface

section Reads

variable {N : Located Text → Prop} {V : Expr → Prop}

/-- Among the tokens `ts` every token that is read as a name is as asserted, and so is every expression
that is spelled there. -/
structure Assures (N : Located Text → Prop) (V : Expr → Prop) (ts : List Token) : Prop where
  names : ∀ t ∈ ts, N ⟨t.location, t.text⟩
  values : ∀ us x, us <:+: ts → Spelling (fun _ => True) us x → V x

theorem Assures.part {ts us : List Token} (h : Assures N V ts) (hin : us <:+: ts) :
    Assures N V us :=
  ⟨fun t ht => h.names t (hin.subset ht), fun vs x hvs hx => h.values vs x (hvs.trans hin) hx⟩

/-- The tokens of an expression lie in a row, so what is assured of rows holds of it. -/
theorem Assures.reads {ts : List Token} (h : Assures N V ts) {t : Tree} {x : Expr} (hx : x.Reads t)
    (hin : t.leaves <:+: ts) : V x :=
  h.values t.leaves x hin hx.spelling

theorem leaves_within {t : Tree} {ts : List Tree} (h : t ∈ ts) : t.leaves <:+: Tree.leavesAll ts := by
  obtain ⟨before, after, rfl⟩ := List.append_of_mem h
  exact ⟨Tree.leavesAll before, Tree.leavesAll after, by simp [Tree.leavesAll]⟩

/-- A child of a node. -/
theorem child_within {r : Rule} {first t : Tree} {rest : List Tree} (h : t ∈ first :: rest) :
    t.leaves <:+: (Tree.node r first rest).leaves := by
  rw [← Tree.leavesAll_children]
  exact leaves_within h

theorem block_within (curly : Token) (ts : List Tree) :
    Tree.leavesAll ts <:+: (Tree.node .block (.leaf curly) ts).leaves :=
  (List.suffix_append _ _).isInfix

theorem declaration_all {initial : Option Expr} {value : List Tree}
    (h : Assures N V (Tree.leavesAll value)) (hinitial : ReadsInitial value initial) :
    ∀ x ∈ initial, V x := by
  cases hinitial with
  | absent => simp
  | given sign hx =>
    intro y hy
    cases hy
    exact h.reads hx (leaves_within (by simp))

mutual

/-- What holds of the parts of a row of tokens holds of all names and values of its statements. -/
theorem Statement.Reads.all : ∀ {s : Statement} {t : Tree}, s.Reads t → Assures N V t.leaves →
    s.All N V
  | .declaration _ _ _, _, ⟨word, id, clause, value, stop, rfl, rfl, _, hinitial⟩, h => by
    refine ⟨h.names id (by simp [Tree.leaves, Tree.leavesAll]), declaration_all (h.part ?_) hinitial⟩
    exact ⟨word :: id :: Tree.leavesAll clause, [stop], by simp [Tree.leaves, Tree.leavesAll]⟩
  | .assignment _ _, _, ⟨id, _, _, _, rfl, rfl, hvalue⟩, h =>
    ⟨h.names id (by simp [Tree.leaves]), h.reads hvalue (child_within (by simp))⟩
  | .conditional _ _ _, _, ⟨start, opening, tree, closing, curly, ts, more, rfl, hcondition, hbody,
      hrest⟩, h =>
    ⟨h.reads hcondition (child_within (by simp)),
      Statement.ReadsAll.all hbody (h.part ((block_within curly ts).trans (child_within (by simp)))),
      Otherwise.Reads.all hrest (h.part ⟨start :: opening :: (tree.leaves ++
        closing :: (Tree.node .block (.leaf curly) ts).leaves), [], by
          simp [Tree.leaves, Tree.leavesAll]⟩)⟩
  | .loop _ _, _, ⟨_, _, _, _, curly, ts, rfl, hcondition, hbody⟩, h =>
    ⟨h.reads hcondition (child_within (by simp)),
      Statement.ReadsAll.all hbody (h.part ((block_within curly ts).trans (child_within (by simp))))⟩
  | .call _ _ _, _, ⟨_, _, rfl, hcall⟩, h => h.reads hcall (child_within (by simp))
  | .block _, _, ⟨curly, ts, rfl, hbody⟩, h =>
    Statement.ReadsAll.all hbody (h.part (block_within curly ts))

theorem Otherwise.Reads.all : ∀ {o : Otherwise} {more : List Tree}, o.Reads more →
    Assures N V (Tree.leavesAll more) → o.All N V
  | .nothing, _, _, _ => trivial
  | .block _, _, ⟨word, curly, ts, rfl, hbody⟩, h =>
    Statement.ReadsAll.all hbody (h.part ⟨[word, curly], [], by simp [Tree.leaves, Tree.leavesAll]⟩)
  | .conditional _ _ _, _, ⟨word, start, opening, tree, closing, curly, ts, others, rfl, hcondition,
      hbody, hrest⟩, h =>
    ⟨h.reads hcondition ⟨[word, start, opening], closing :: curly ::
        (Tree.leavesAll ts ++ Tree.leavesAll others), by simp [Tree.leaves, Tree.leavesAll]⟩,
      Statement.ReadsAll.all hbody (h.part ⟨word :: start :: opening :: (tree.leaves ++
        [closing, curly]), Tree.leavesAll others, by simp [Tree.leaves, Tree.leavesAll]⟩),
      Otherwise.Reads.all hrest (h.part ⟨word :: start :: opening :: (tree.leaves ++
        closing :: curly :: Tree.leavesAll ts), [], by simp [Tree.leaves, Tree.leavesAll]⟩)⟩

theorem Statement.ReadsAll.all : ∀ {ss : List Statement} {ts : List Tree}, Statement.ReadsAll ts ss →
    Assures N V (Tree.leavesAll ts) → Statement.AllOf N V ss
  | [], _, _, _ => trivial
  | _ :: _, _, ⟨before, inner, after, rfl, _, _, hs, hss⟩, h =>
    ⟨Statement.Reads.all hs (h.part ⟨Tree.leavesAll before, Tree.leavesAll after, by
        simp [Tree.leaves, Tree.leavesAll]⟩),
      Statement.ReadsAll.all hss (h.part ⟨Tree.leavesAll before ++ inner.leaves, [], by
        simp [Tree.leaves, Tree.leavesAll]⟩)⟩

end

end Reads

/-- What holds of the names and spellings of a text holds of its program. -/
theorem parse_all {source : Source} {tree : Tree} {N : Located Text → Prop} {V : Expr → Prop}
    (h : (parse (Lexer.start source).tokenize.tokens).tree = some tree)
    (hall : Assures N V (Parser.body (Lexer.start source).tokenize.tokens)) :
    Statement.AllOf N V (ofTree tree) := by
  obtain ⟨first, more, rfl, hleaves, hisA⟩ := Grammar.parse_tree h
  have hstatements := hisA (fun _ => True) fun _ _ _ => trivial
  obtain ⟨ss, hss⟩ := readsAll_of_stands fun t ht => ⟨hstatements t ht, stands (hstatements t ht)⟩
  -- the end of the text is no statement
  have hbody : ofTree (.node .program first (more ++
      (Parser.ending? (Lexer.start source).tokenize.tokens).toList.map .leaf)) = ss := by
    rw [ofTree, Tree.children, ← List.cons_append, body_append, hss.body, body_passed,
      List.append_nil]
    intro t ht
    obtain ⟨u, -, rfl⟩ := List.mem_map.mp ht
    exact .leaf u
  rw [hbody]
  exact hss.all (hleaves ▸ hall)

end ImpC.Surface
