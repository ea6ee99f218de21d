import ImpC.Proofs.Grammar.Recovery
import ImpC.Proofs.Surface.Occurrence

/-!
# What derived trees stand for

The shape of a tree, construct by construct, beside the statement it stands for. Every tree of the
grammar stands for a statement, except for nodes of skipped tokens and single tokens, which are
passed over in a list of statements; and the statement it stands for is the one that it is read as.
-/
namespace ImpC.Surface

open ImpC.Grammar

/-- The tree derives from the rule, with any tokens skipped. -/
abbrev Derived (r : Rule) (t : Tree) : Prop := IsA (fun _ => True) r t

/-- The derived tree of an expression. -/
structure Expr.Reads (t : Tree) (x : Expr) : Prop where
  meant : Meant t x
  derived : ∃ r, isPlainRule r = true ∧ Derived r t

/-- Trees in the place of a statement that stand for none. -/
inductive Passed : Tree → Prop
  | leaf (t : Token) : Passed (.leaf t)
  | skipped (t : Token) (ts : List Token) : Passed (skippedTree t ts)

/-- The type that a declaration gives. -/
inductive ReadsType : List Tree → Option Ty → Prop
  | absent : ReadsType [] none
  | given (colon type : Token) :
    ReadsType [.node .typeClause (.leaf colon) [.leaf type]] (some (.ofToken type))

/-- The initial value of a declaration. -/
inductive ReadsInitial : List Tree → Option Expr → Prop
  | absent : ReadsInitial [] none
  | given (sign : Token) {value : Tree} {x : Expr} (h : x.Reads value) :
    ReadsInitial [.leaf sign, value] (some x)

mutual

/-- The tree, which is a child of a node for statements, stands for the statement. -/
def Statement.Reads (t : Tree) : Statement → Prop
  | .declaration name type initial => ∃ word id clause value stop,
    t = .node .declaration (.leaf word) (.leaf id :: clause ++ value ++ [.leaf stop]) ∧
      name = ⟨id.location, id.text⟩ ∧ ReadsType clause type ∧ ReadsInitial value initial
  | .assignment target value => ∃ id sign tree stop,
    t = .node .assignment (.leaf id) [.leaf sign, tree, .leaf stop] ∧
      target = ⟨id.location, id.text⟩ ∧ value.Reads tree
  | .conditional condition body rest => ∃ start opening tree closing curly ts more,
    t = .node .conditional (.leaf start)
        (.leaf opening :: tree :: .leaf closing :: .node .block (.leaf curly) ts :: more) ∧
      condition.Reads tree ∧ Statement.ReadsAll ts body ∧ rest.Reads more
  | .loop condition body => ∃ start opening tree closing curly ts,
    t = .node .loop (.leaf start)
        [.leaf opening, tree, .leaf closing, .node .block (.leaf curly) ts] ∧
      condition.Reads tree ∧ Statement.ReadsAll ts body
  | .call location function arguments => ∃ tree stop,
    t = .node .callStatement tree [.leaf stop] ∧
      (Expr.call location function arguments).Reads tree
  | .block body => ∃ curly ts, t = .node .block (.leaf curly) ts ∧ Statement.ReadsAll ts body

/-- The trees are what a conditional has after its first block. -/
def Otherwise.Reads (more : List Tree) : Otherwise → Prop
  | .nothing => more = []
  | .block body => ∃ word curly ts,
    more = [.node .alternative (.leaf word) [.node .block (.leaf curly) ts]] ∧
      Statement.ReadsAll ts body
  | .conditional condition body rest => ∃ word start opening tree closing curly ts others,
    more = [.node .alternative (.leaf word) [.node .conditional (.leaf start)
        (.leaf opening :: tree :: .leaf closing :: .node .block (.leaf curly) ts :: others)]] ∧
      condition.Reads tree ∧ Statement.ReadsAll ts body ∧ rest.Reads others

/-- The statements that stand in a list of trees. -/
def Statement.ReadsAll (ts : List Tree) : List Statement → Prop
  | [] => ∀ t ∈ ts, Passed t
  | s :: ss => ∃ before inner after, ts = before ++ .node .statement inner [] :: after ∧
    (∀ t ∈ before, Passed t) ∧ Derived .statement (.node .statement inner []) ∧
      s.Reads inner ∧ Statement.ReadsAll after ss

end

theorem Passed.ofTree? {t : Tree} (h : Passed t) : Statement.ofTree? t = none := by
  cases h <;> rfl

theorem body_append (ts us : List Tree) :
    Statement.body (ts ++ us) = Statement.body ts ++ Statement.body us := by
  induction ts with
  | nil => rfl
  | cons t ts ih => simp [Statement.body, ih]

/-- Braces and the end are no statements. -/
theorem body_passed {ts : List Tree} (h : ∀ t ∈ ts, Passed t) : Statement.body ts = [] := by
  induction ts with
  | nil => rfl
  | cons t ts ih =>
    rw [List.forall_mem_cons] at h
    rw [Statement.body, h.1.ofTree?, ih h.2]
    rfl

/-- The clauses of a declaration are told apart by their kinds. -/
theorem declaration?_reads {id stop : Token} {clause value : List Tree} {type : Option Ty}
    {initial : Option Expr} (htype : ReadsType clause type)
    (hinitial : ReadsInitial value initial) :
    Statement.declaration? id (clause ++ value ++ [.leaf stop]) =
      some (.declaration ⟨id.location, id.text⟩ type initial) := by
  cases htype with
  | absent =>
    cases hinitial with
    | absent => rfl
    | given sign h => simp [Statement.declaration?, h.meant.ofTree?]
  | given colon kind =>
    cases hinitial with
    | absent => rfl
    | given sign h => simp [Statement.declaration?, h.meant.ofTree?]

mutual

/-- A tree is read as the statement that it stands for. -/
theorem Statement.Reads.inner? : ∀ {s : Statement} {t : Tree}, s.Reads t →
    Statement.inner? t = some s
  | .declaration _ _ _, _, ⟨_, _, _, _, _, rfl, rfl, htype, hinitial⟩ =>
    declaration?_reads htype hinitial
  | .assignment _ _, _, ⟨_, _, _, _, rfl, rfl, hvalue⟩ => by
    simp [Statement.inner?, hvalue.meant.ofTree?]
  | .conditional _ _ _, _, ⟨_, _, _, _, _, _, _, rfl, hcondition, hbody, hrest⟩ => by
    simp [Statement.inner?, hcondition.meant.ofTree?, Statement.ReadsAll.body hbody,
      Otherwise.Reads.otherwise? hrest]
  | .loop _ _, _, ⟨_, _, _, _, _, _, rfl, hcondition, hbody⟩ => by
    simp [Statement.inner?, hcondition.meant.ofTree?, Statement.ReadsAll.body hbody]
  | .call _ _ _, _, ⟨_, _, rfl, hcall⟩ => by
    simp [Statement.inner?, hcall.meant.ofTree?]
  | .block _, _, ⟨_, _, rfl, hbody⟩ => by
    simp [Statement.inner?, Statement.ReadsAll.body hbody]

/-- The relation and the function agree on alternatives. -/
theorem Otherwise.Reads.otherwise? : ∀ {o : Otherwise} {more : List Tree}, o.Reads more →
    Statement.otherwise? more = some o
  | .nothing, _, rfl => rfl
  | .block _, _, ⟨_, _, _, rfl, hbody⟩ => by
    simp [Statement.otherwise?, Statement.ReadsAll.body hbody]
  | .conditional _ _ _, _, ⟨_, _, _, _, _, _, _, _, rfl, hcondition, hbody, hrest⟩ => by
    simp [Statement.otherwise?, hcondition.meant.ofTree?, Statement.ReadsAll.body hbody,
      Otherwise.Reads.otherwise? hrest]

theorem Statement.ReadsAll.body : ∀ {ss : List Statement} {ts : List Tree},
    Statement.ReadsAll ts ss → Statement.body ts = ss
  | [], _, h => body_passed h
  | s :: ss, _, ⟨before, inner, after, rfl, hbefore, _, hs, hss⟩ => by
    rw [body_append, body_passed hbefore, Statement.body, Statement.ReadsAll.body hss,
      Statement.ofTree?, Statement.Reads.inner? hs]
    rfl

end

theorem readsAll_passed {t : Tree} (ht : Passed t) {ts : List Tree} {ss : List Statement}
    (h : Statement.ReadsAll ts ss) : Statement.ReadsAll (t :: ts) ss := by
  cases ss with
  | nil => exact List.forall_mem_cons.mpr ⟨ht, h⟩
  | cons s ss =>
    obtain ⟨before, inner, after, rfl, hbefore, hisA, hs, hss⟩ := h
    exact ⟨t :: before, inner, after, rfl, List.forall_mem_cons.mpr ⟨ht, hbefore⟩, hisA, hs, hss⟩

/-- What a tree of each rule of statements stands for. -/
def Stands (t : Tree) : Rule → Prop
  | .statement => Passed t ∨ ∃ inner s, t = .node .statement inner [] ∧ Statement.Reads inner s
  | .block => ∃ curly ts ss, t = .node .block (.leaf curly) ts ∧ Statement.ReadsAll ts ss
  | .conditional => ∃ condition body rest, Statement.Reads t (.conditional condition body rest) ∧
    ∀ word, Otherwise.Reads [.node .alternative (.leaf word) [t]] (.conditional condition body rest)
  | .alternative => ∃ o, Otherwise.Reads [t] o
  | .declaration | .assignment | .loop | .callStatement => ∃ s, Statement.Reads t s
  | _ => True

/-- The statements of a block are read one by one. -/
theorem readsAll_of_stands {ts : List Tree}
    (h : ∀ t ∈ ts, Derived .statement t ∧ Stands t .statement) :
    ∃ ss, Statement.ReadsAll ts ss := by
  induction ts with
  | nil => exact ⟨[], by simp [Statement.ReadsAll]⟩
  | cons t ts ih =>
    rw [List.forall_mem_cons] at h
    obtain ⟨ss, hss⟩ := ih h.2
    obtain ⟨hisA, ht | ⟨inner, s, rfl, hs⟩⟩ := h.1
    · exact ⟨ss, readsAll_passed ht hss⟩
    · exact ⟨s :: ss, [], inner, ts, rfl, by simp, hisA, hs, hss⟩

theorem readsAll_concat {ts : List Tree} {ss : List Statement} (h : Statement.ReadsAll ts ss)
    (t : Token) : Statement.ReadsAll (ts ++ [.leaf t]) ss := by
  induction ss generalizing ts with
  | nil => exact List.forall_mem_append.mpr ⟨h, List.forall_mem_singleton.mpr (.leaf t)⟩
  | cons s ss ih =>
    obtain ⟨before, inner, after, rfl, hbefore, hisA, hs, hss⟩ := h
    exact ⟨before, inner, after ++ [.leaf t], by simp, hbefore, hisA, hs, ih hss⟩

theorem expression_reads {t : Tree} (h : Derived .expression t) : ∃ x, Expr.Reads t x := by
  obtain ⟨x, hx⟩ := isA_meant h
  exact ⟨x, hx, .expression, rfl, h⟩

/-- The type and the value may each be missing. -/
theorem declaration_stands {t : Tree} (h : Derived .declaration t) : ∃ s, Statement.Reads t s := by
  obtain ⟨word, id, clause, value, stop, -, -, hclause, hvalue, -, rfl⟩ := isA_declaration.mp h
  have htype : ∃ type, ReadsType clause type := by
    rcases hclause with ⟨tree, htree, rfl⟩ | rfl
    · obtain ⟨colon, type, -, -, rfl⟩ := isA_typeClause.mp htree
      exact ⟨_, .given colon type⟩
    · exact ⟨_, .absent⟩
  have hinitial : ∃ initial, ReadsInitial value initial := by
    rcases hvalue with ⟨sign, tree, -, htree, rfl⟩ | rfl
    · obtain ⟨x, hx⟩ := expression_reads htree
      exact ⟨_, .given sign hx⟩
    · exact ⟨_, .absent⟩
  obtain ⟨type, htype⟩ := htype
  obtain ⟨initial, hinitial⟩ := hinitial
  exact ⟨.declaration ⟨id.location, id.text⟩ type initial, word, id, clause, value, stop, rfl, rfl,
    htype, hinitial⟩

theorem assignment_stands {t : Tree} (h : Derived .assignment t) : ∃ s, Statement.Reads t s := by
  obtain ⟨id, sign, tree, stop, -, -, htree, -, rfl⟩ := isA_assignment.mp h
  obtain ⟨x, hx⟩ := expression_reads htree
  exact ⟨.assignment ⟨id.location, id.text⟩ x, id, sign, tree, stop, rfl, rfl, hx⟩

theorem callStatement_stands {t : Tree} (h : Derived .callStatement t) :
    ∃ s, Statement.Reads t s := by
  obtain ⟨tree, stop, htree, -, rfl⟩ := isA_callStatement.mp h
  obtain ⟨location, function, arguments, hx⟩ := isA_expressionMeant htree
  exact ⟨.call location function arguments, tree, stop, rfl, hx, .call, rfl, htree⟩

/-- A condition between parentheses and a block, after their keyword. -/
theorem guarded_stands {word : Keyword} {first : Tree} {parts : List Tree}
    (h : Guarded (fun _ => True) word first parts)
    (ih : ∀ u ∈ parts, Derived .block u → Stands u .block) :
    ∃ start opening tree closing curly ts x ss, first = .leaf start ∧
      parts = [.leaf opening, tree, .leaf closing, .node .block (.leaf curly) ts] ∧
      Expr.Reads tree x ∧ Statement.ReadsAll ts ss := by
  obtain ⟨start, opening, tree, closing, body, -, -, htree, -, hbody, rfl, rfl⟩ := h
  obtain ⟨x, hx⟩ := expression_reads htree
  obtain ⟨curly, ts, ss, rfl, hss⟩ := ih body (by simp) hbody
  exact ⟨start, opening, tree, closing, curly, ts, x, ss, rfl, rfl, hx, hss⟩

section Children

variable {t : Tree} (ih : ∀ u ∈ t.children, ∀ r, Derived r u → Stands u r)
include ih

theorem statement_stands (h : Derived .statement t) : Stands t .statement := by
  rcases isA_statement.mp h with ⟨inner, hinner, rfl⟩ | ⟨u, us, -, rfl⟩
  · have hchild := ih inner (by simp [Tree.children])
    have hreads : ∃ s, Statement.Reads inner s := by
      rcases hinner with hinner | hinner | hinner | hinner | hinner | hinner
      · exact hchild _ hinner
      · exact hchild _ hinner
      · obtain ⟨condition, body, rest, hs, -⟩ := hchild _ hinner
        exact ⟨_, hs⟩
      · exact hchild _ hinner
      · exact hchild _ hinner
      · obtain ⟨curly, ts, ss, heq, hss⟩ := hchild _ hinner
        exact ⟨.block ss, curly, ts, heq, hss⟩
    obtain ⟨s, hs⟩ := hreads
    exact .inr ⟨inner, s, rfl, hs⟩
  · exact .inl (.skipped u us)

theorem block_stands (h : Derived .block t) : Stands t .block := by
  obtain ⟨curly, body, closing, -, hbody, -, rfl⟩ := isA_block.mp h
  have hstands : ∀ u ∈ body, Derived .statement u ∧ Stands u .statement := by
    intro u hu
    exact ⟨hbody u hu, ih u (by simp [Tree.children, hu]) _ (hbody u hu)⟩
  obtain ⟨ss, hss⟩ := readsAll_of_stands hstands
  exact ⟨curly, _, ss, rfl, readsAll_concat hss closing⟩

theorem loop_stands (h : Derived .loop t) : Stands t .loop := by
  obtain ⟨word, parts, hguarded, rfl⟩ := isA_loop.mp h
  obtain ⟨start, opening, tree, closing, curly, ts, x, ss, rfl, rfl, hx, hss⟩ :=
    guarded_stands hguarded fun u hu hisA => ih u (by simp [Tree.children, hu]) _ hisA
  exact ⟨.loop x ss, start, opening, tree, closing, curly, ts, rfl, hx, hss⟩

/-- The alternative is the last part, if there is one. -/
theorem conditional_stands (h : Derived .conditional t) : Stands t .conditional := by
  obtain ⟨word, parts, hguarded, ht⟩ := isA_conditional.mp h
  have hparts : ∀ u ∈ parts, Derived .block u → Stands u .block := by
    intro u hu hisA
    rcases ht with rfl | ⟨other, -, rfl⟩
    · exact ih u (by simp [Tree.children, hu]) _ hisA
    · exact ih u (by simp [Tree.children, hu]) _ hisA
  obtain ⟨start, opening, tree, closing, curly, ts, x, ss, rfl, rfl, hx, hss⟩ :=
    guarded_stands hguarded hparts
  have hmore : ∃ more o, t = .node .conditional (.leaf start) (.leaf opening :: tree ::
      .leaf closing :: .node .block (.leaf curly) ts :: more) ∧ Otherwise.Reads more o := by
    rcases ht with rfl | ⟨other, hother, rfl⟩
    · exact ⟨[], .nothing, rfl, rfl⟩
    · obtain ⟨o, ho⟩ := ih other (by simp [Tree.children]) .alternative hother
      exact ⟨[other], o, rfl, ho⟩
  obtain ⟨more, o, rfl, ho⟩ := hmore
  refine ⟨x, ss, o, ⟨start, opening, tree, closing, curly, ts, more, rfl, hx, hss, ho⟩, ?_⟩
  intro word
  exact ⟨word, start, opening, tree, closing, curly, ts, more, rfl, hx, hss, ho⟩

theorem alternative_stands (h : Derived .alternative t) : Stands t .alternative := by
  obtain ⟨word, body, -, hbody | hbody, rfl⟩ := isA_alternative.mp h
  · obtain ⟨curly, ts, ss, rfl, hss⟩ := ih body (by simp [Tree.children]) .block hbody
    exact ⟨.block ss, word, curly, ts, rfl, hss⟩
  · obtain ⟨condition, ss, o, -, ho⟩ := ih body (by simp [Tree.children]) .conditional hbody
    exact ⟨.conditional condition ss o, ho word⟩

/-- One case for each rule of statements, from the children of the node. -/
theorem stands_of_children {r : Rule} (h : Derived r t) : Stands t r := by
  cases r with
  | statement => exact statement_stands ih h
  | declaration => exact declaration_stands h
  | assignment => exact assignment_stands h
  | callStatement => exact callStatement_stands h
  | block => exact block_stands ih h
  | loop => exact loop_stands ih h
  | conditional => exact conditional_stands ih h
  | alternative => exact alternative_stands ih h
  | _ => trivial

end Children

/-- Whatever derives from a rule of statements stands for some. -/
theorem stands {r : Rule} {t : Tree} (h : Derived r t) : Stands t r := by
  induction t using Tree.children_induction generalizing r with
  | step t ih => exact stands_of_children (fun u hu r hisA => ih u hu hisA) h

/-- What the trees of a program stand for are its statements as written. -/
theorem parse_readsAll {tokens : List Token} {tree : Tree} (h : (parse tokens).tree = some tree) :
    Statement.ReadsAll tree.children (ofTree tree) := by
  obtain ⟨first, more, rfl, -, hall⟩ := parse_tree h
  have hisA := hall (fun _ => True) fun _ _ _ => trivial
  obtain ⟨ss, hss⟩ := readsAll_of_stands fun t ht => ⟨hisA t ht, stands (hisA t ht)⟩
  have hending : Statement.ReadsAll (first :: more ++
      (Parser.ending? tokens).toList.map .leaf) ss := by
    cases Parser.ending? tokens with
    | none => simpa using hss
    | some t => exact readsAll_concat hss t
  rw [ofTree, Tree.children, ← List.cons_append, hending.body]
  exact hending

end ImpC.Surface
