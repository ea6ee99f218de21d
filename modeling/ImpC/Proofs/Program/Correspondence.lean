import ImpC.Proofs.Surface.Reading
import ImpC.Proofs.Grammar.ErrorNodes
import ImpC.Proofs.Program.Sites

/-!
# Trees and resolved programs

What a tree denotes, construct by construct, without the functions that read it. A resolved program
has one statement for each node of a statement, in the same order and nesting and with the same
parts; only nodes of skipped tokens are left out. Blocks have the numbers of their opening braces.
-/
namespace ImpC

mutual

/-- The tree denotes the expression. A name may refer to any variable. -/
inductive Denotes : Tree → Expr → Prop
  | literal {t : Token} {value : Surface.Literal}
    (h : Surface.Expr.ofToken? t = some (.literal t.location value)) :
    Denotes (.leaf t) (.literal t.location (Resolver.literal t.location value).1)
  | name {t : Token} (h : t.kind = .ident) (referent : Option Nat) :
    Denotes (.leaf t) (.reference t.location ⟨t.text, referent⟩)
  | only {r : Rule} {t : Tree} {e : Expr} (h : Denotes t e) : Denotes (.node r t []) e
  | parenthesized {opening closing : Token} {t : Tree} {e : Expr} (h : Denotes t e) :
    Denotes (.node .primary (.leaf opening) [t, .leaf closing]) e
  | negative {sign digits : Token} {operand : Tree} (hsign : sign.kind = .op .minus)
    (h : Surface.intToken? operand = some digits) :
    Denotes (.node .unary (.leaf sign) [operand])
      (.literal (sign.location.through operand.location)
        (Resolver.literal (sign.location.through operand.location) (.int ('-' :: digits.text))).1)
  | signed {sign : Token} {op : UnaryOp} {operand : Tree} {e : Expr}
    (hsign : sign.kind = .op op.operator)
    (hplain : op = .negate → Surface.intToken? operand = none) (h : Denotes operand e) :
    Denotes (.node .unary (.leaf sign) [operand])
      (.unary (sign.location.through operand.location) op e)
  | call {function opening closing : Token} :
    Denotes (.node .call (.leaf function) [.leaf opening, .leaf closing])
      (.call (function.location.through closing.location) function.text [])
  | callWith {function opening closing : Token} {first : Tree} {more : List Tree} {e : Expr}
    {es : List Expr} (h : Denotes first e) (h' : DenotesArguments more es) :
    Denotes
      (.node .call (.leaf function) [.leaf opening, .node .arguments first more, .leaf closing])
      (.call (function.location.through closing.location) function.text (e :: es))
  | chain {r : Rule} {first : Tree} {rest : List Tree} {left e : Expr} (h : Denotes first left)
    (h' : DenotesChain left rest e) : Denotes (.node r first rest) e

/-- The arguments after the first, each behind a comma. -/
inductive DenotesArguments : List Tree → List Expr → Prop
  | nil : DenotesArguments [] []
  | cons {comma : Token} {t : Tree} {ts : List Tree} {e : Expr} {es : List Expr} (h : Denotes t e)
    (h' : DenotesArguments ts es) : DenotesArguments (.leaf comma :: t :: ts) (e :: es)

/-- Operators and operands after what stands to their left. -/
inductive DenotesChain : Expr → List Tree → Expr → Prop
  | nil {e : Expr} : DenotesChain e [] e
  | cons {sign : Token} {op : BinaryOp} {t : Tree} {ts : List Tree} {left right e : Expr}
    (hsign : sign.kind = .op op.operator) (h : Denotes t right)
    (h' : DenotesChain (.binary (left.location.through right.location) op left right) ts e) :
    DenotesChain left (.leaf sign :: t :: ts) e

end

/-- What stands between the name and the value of a declaration: a type or nothing. -/
inductive IsTypeClause : List Tree → Prop
  | absent : IsTypeClause []
  | given (colon type : Token) : IsTypeClause [.node .typeClause (.leaf colon) [.leaf type]]

mutual

/-- The child of a node for statements denotes the statement. Its blocks have the numbers from `n`
on and before `n'`. -/
inductive DenotesStatement : Nat → Tree → Statement → Nat → Prop
  | declaration {n index : Nat} {word id stop : Token} {clause : List Tree}
    (hclause : IsTypeClause clause) :
    DenotesStatement n (.node .declaration (.leaf word) (.leaf id :: clause ++ [.leaf stop]))
      (.declaration index none) n
  | initialized {n index : Nat} {word id sign stop : Token} {clause : List Tree} {value : Tree}
    {e : Expr} (hclause : IsTypeClause clause) (h : Denotes value e) :
    DenotesStatement n
      (.node .declaration (.leaf word) (.leaf id :: clause ++ [.leaf sign, value, .leaf stop]))
      (.declaration index (some ⟨⟨id.location, ⟨id.text, some index⟩⟩, e⟩)) n
  | assignment {n : Nat} {id sign stop : Token} {value : Tree} {e : Expr} {referent : Option Nat}
    (h : Denotes value e) :
    DenotesStatement n (.node .assignment (.leaf id) [.leaf sign, value, .leaf stop])
      (.assignment ⟨⟨id.location, ⟨id.text, referent⟩⟩, e⟩) n
  | conditional {n m n' : Nat} {start opening closing : Token} {condition block : Tree}
    {more : List Tree} {e : Expr} {b : Block} {o : Otherwise} (h : Denotes condition e)
    (hblock : DenotesBlock n block b m) (hmore : DenotesOtherwise m more o n') :
    DenotesStatement n
      (.node .conditional (.leaf start)
        (.leaf opening :: condition :: .leaf closing :: block :: more))
      (.conditional e b o) n'
  | loop {n n' : Nat} {start opening closing : Token} {condition block : Tree} {e : Expr}
    {b : Block} (h : Denotes condition e) (hblock : DenotesBlock n block b n') :
    DenotesStatement n
      (.node .loop (.leaf start) [.leaf opening, condition, .leaf closing, block]) (.loop e b) n'
  | call {n : Nat} {call : Tree} {stop : Token} {location : Location} {function : Text}
    {arguments : List Expr} (h : Denotes call (.call location function arguments)) :
    DenotesStatement n (.node .callStatement call [.leaf stop])
      (.call location function arguments) n
  | block {n n' : Nat} {block : Tree} {b : Block} (h : DenotesBlock n block b n') :
    DenotesStatement n block (.block b) n'

/-- What a conditional has after its first block. -/
inductive DenotesOtherwise : Nat → List Tree → Otherwise → Nat → Prop
  | nothing {n : Nat} : DenotesOtherwise n [] .nothing n
  | block {n n' : Nat} {word : Token} {block : Tree} {b : Block} (h : DenotesBlock n block b n') :
    DenotesOtherwise n [.node .alternative (.leaf word) [block]] (.block b) n'
  | conditional {n n' : Nat} {word : Token} {conditional : Tree} {e : Expr} {b : Block}
    {o : Otherwise} (h : DenotesStatement n conditional (.conditional e b o) n') :
    DenotesOtherwise n [.node .alternative (.leaf word) [conditional]] (.conditional e b o) n'

/-- A block has the number that is next at its opening brace. -/
inductive DenotesBlock : Nat → Tree → Block → Nat → Prop
  | mk {n n' : Nat} {opening : Token} {ts : List Tree} {ss : List Statement}
    (h : DenotesStatements (n + 1) ts ss n') :
    DenotesBlock n (.node .block (.leaf opening) ts) (.mk n ss) n'

/-- Of the trees in a list, tokens and nodes of skipped tokens denote nothing, and every other one
denotes a statement. -/
inductive DenotesStatements : Nat → List Tree → List Statement → Nat → Prop
  | nil {n : Nat} : DenotesStatements n [] [] n
  | leaf {n n' : Nat} {t : Token} {ts : List Tree} {ss : List Statement}
    (h : DenotesStatements n ts ss n') : DenotesStatements n (.leaf t :: ts) ss n'
  | skipped {n n' : Nat} {first : Tree} {rest ts : List Tree} {ss : List Statement}
    (h : DenotesStatements n ts ss n') : DenotesStatements n (.node .error first rest :: ts) ss n'
  | statement {n m n' : Nat} {inner : Tree} {ts : List Tree} {s : Statement} {ss : List Statement}
    (h : DenotesStatement n inner s m) (h' : DenotesStatements m ts ss n') :
    DenotesStatements n (.node .statement inner [] :: ts) (s :: ss) n'

end

section Expressions

theorem unaryOf?_eq_some {t : Token} {op : UnaryOp} (h : Surface.unaryOf? t = some op) :
    t.kind = .op op.operator := by
  unfold Surface.unaryOf? at h
  split at h
  · rename_i o hkind
    rw [hkind]
    cases o <;> cases h <;> rfl
  · cases h

theorem binaryOf?_eq_some {t : Token} {op : BinaryOp} (h : Surface.binaryOf? t = some op) :
    t.kind = .op op.operator := by
  unfold Surface.binaryOf? at h
  split at h
  · rename_i o hkind
    rw [hkind]
    cases o <;> cases h <;> rfl
  · cases h

variable (scopes : List Scope)

/-- Resolving keeps places. -/
theorem location_expression (x : Surface.Expr) :
    (Resolver.expression scopes x).1.location = x.location := by
  cases x <;> rfl

theorem reference_eq (place : Location) (name : Text) :
    (Resolver.reference scopes place name).1 = ⟨name, Resolver.lookup scopes name⟩ := by
  rw [Resolver.reference]
  cases Resolver.lookup scopes name <;> rfl

theorem denotes_ofToken? {t : Token} {x : Surface.Expr} (h : Surface.Expr.ofToken? t = some x) :
    Denotes (.leaf t) (Resolver.expression scopes x).1 := by
  have hcases : (∃ value, x = .literal t.location value) ∨
      (t.kind = .ident ∧ x = .name t.location t.text) := by
    unfold Surface.Expr.ofToken? at h
    split at h
    case h_6 hkind => exact .inr ⟨hkind, (Option.some.inj h).symm⟩
    case h_7 => cases h
    all_goals exact .inl ⟨_, (Option.some.inj h).symm⟩
  rcases hcases with ⟨value, rfl⟩ | ⟨hkind, rfl⟩
  · exact .literal h
  · have hname : (Resolver.expression scopes (.name t.location t.text)).1 =
        .reference t.location ⟨t.text, Resolver.lookup scopes t.text⟩ :=
      congrArg (Expr.reference t.location) (reference_eq scopes t.location t.text)
    rw [hname]
    exact .name hkind _

mutual

/-- A resolved expression is what its tree says. -/
theorem denotes_ofTree? (t : Tree) (x : Surface.Expr) (h : Surface.Expr.ofTree? t = some x) :
    Denotes t (Resolver.expression scopes x).1 := by
  unfold Surface.Expr.ofTree? at h
  split at h
  · exact denotes_ofToken? scopes h
  · exact .only (denotes_ofTree? _ x h)
  · rename_i sign operand
    obtain ⟨op, hop, h⟩ := Option.bind_eq_some_iff.mp h
    dsimp only at h
    split at h
    · rename_i digits hdigits
      cases h
      exact .negative (unaryOf?_eq_some hop) hdigits
    · rename_i hplain
      obtain ⟨y, hy, heq⟩ := Option.bind_eq_some_iff.mp h
      cases heq
      refine .signed (unaryOf?_eq_some hop) (fun hnegate => ?_) (denotes_ofTree? operand y hy)
      cases hdigits : Surface.intToken? operand with
      | none => rfl
      | some digits => exact absurd hdigits (hplain digits hnegate)
  · exact .parenthesized (denotes_ofTree? _ x h)
  · cases h
    exact .call
  · rename_i function opening first more closing
    obtain ⟨y, hy, h⟩ := Option.bind_eq_some_iff.mp h
    obtain ⟨ys, hys, heq⟩ := Option.bind_eq_some_iff.mp h
    cases heq
    exact .callWith (denotes_ofTree? first y hy) (denotes_arguments? more ys hys)
  · rename_i first rest _ _ _ _ _
    obtain ⟨left, hleft, h⟩ := Option.bind_eq_some_iff.mp h
    exact .chain (denotes_ofTree? first left hleft) (denotes_chain? rest left x h)
termination_by sizeOf t

theorem denotes_arguments? (ts : List Tree) (xs : List Surface.Expr)
    (h : Surface.Expr.arguments? ts = some xs) :
    DenotesArguments ts (Resolver.expressions scopes xs).1 := by
  unfold Surface.Expr.arguments? at h
  split at h
  · cases h
    exact .nil
  · rename_i argument more
    obtain ⟨y, hy, h⟩ := Option.bind_eq_some_iff.mp h
    obtain ⟨ys, hys, heq⟩ := Option.bind_eq_some_iff.mp h
    cases heq
    exact .cons (denotes_ofTree? argument y hy) (denotes_arguments? more ys hys)
  · cases h
termination_by sizeOf ts

theorem denotes_chain? (ts : List Tree) (left x : Surface.Expr)
    (h : Surface.Expr.chain? left ts = some x) :
    DenotesChain (Resolver.expression scopes left).1 ts (Resolver.expression scopes x).1 := by
  unfold Surface.Expr.chain? at h
  split at h
  · cases h
    exact .nil
  · rename_i sign operand more
    obtain ⟨op, hop, h⟩ := Option.bind_eq_some_iff.mp h
    obtain ⟨right, hright, h⟩ := Option.bind_eq_some_iff.mp h
    have hrest := denotes_chain? more _ x h
    refine .cons (binaryOf?_eq_some hop) (denotes_ofTree? operand right hright) ?_
    rw [location_expression, location_expression]
    exact hrest
  · cases h
termination_by sizeOf ts

end

end Expressions

namespace Resolver

open Surface

section Run

variable {α β : Type} {P : Nat → α → Nat → Prop}

/-- What `m` gives is as asserted of the number of the next scope before and after it. -/
def Opens (P : Nat → α → Nat → Prop) (m : StateM Resolver α) : Prop :=
  ∀ r : Resolver, P r.nextScope (m r).1 (m r).2.nextScope

theorem opens_pure {a : α} (h : ∀ n, P n a n) : Opens P (pure a) := fun r => h r.nextScope

/-- What is opened in the second part comes behind what is opened in the first. -/
theorem Opens.bind {m : StateM Resolver α} {f : α → StateM Resolver β} {Q : Nat → β → Nat → Prop}
    (h : Opens P m) (h' : ∀ a, Opens (fun k b n' => ∀ n, P n a k → Q n b n') (f a)) :
    Opens Q (m >>= f) :=
  fun r => h' (m r).1 (m r).2 _ (h r)

theorem Opens.map {m : StateM Resolver α} {f : α → β} {Q : Nat → β → Nat → Prop} (h : Opens P m)
    (h' : ∀ n a n', P n a n' → Q n (f a) n') : Opens Q (f <$> m) := fun r => h' _ _ _ (h r)

/-- A part that declares nothing opens no scope. -/
theorem reading_opens {part : List Scope → α × Errors} {P : α → Prop}
    (h : ∀ scopes, P (part scopes).1) : Opens (fun n a n' => P a ∧ n' = n) (reading part) :=
  fun r => ⟨h r.scopes, rfl⟩

theorem declare_opens (name : Located Text) (type : Ty) :
    Opens (fun n _ n' => n' = n) (declare name type) := by
  intro r
  unfold declare
  split
  · rfl
  · split
    · rfl
    · rfl

theorem get_opens : Opens (fun n _ n' => n' = n) (get : StateM Resolver Resolver) := fun _ => rfl

end Run

/-- Expressions open no scopes. -/
theorem expression_opens {t : Tree} {x : Surface.Expr} (h : x.Reads t) :
    Opens (fun n e n' => Denotes t e ∧ n' = n) (reading (expression · x)) :=
  reading_opens fun scopes => denotes_ofTree? scopes t x h.meant.ofTree?

theorem reference_opens (id : Token) :
    Opens (fun n target n' => (∃ referent, target = ⟨id.text, referent⟩) ∧ n' = n)
      (reading (reference · id.location id.text)) :=
  reading_opens fun _ => ⟨_, reference_eq _ _ _⟩

theorem call_opens {t : Tree} {location : Location} {function : Text}
    {arguments : List Surface.Expr} (h : (Surface.Expr.call location function arguments).Reads t) :
    Opens (fun n es n' => Denotes t (.call location function es) ∧ n' = n)
      (reading (expressions · arguments)) :=
  reading_opens fun scopes =>
    denotes_ofTree? scopes t (.call location function arguments) h.meant.ofTree?

theorem isTypeClause_of_readsType {clause : List Tree} {type : Option Ty}
    (h : ReadsType clause type) : IsTypeClause clause := by
  cases h with
  | absent => exact .absent
  | given colon type => exact .given colon type

/-- The value is resolved before the name is entered, and neither opens a scope. -/
theorem declaration_opens {word id stop : Token} {clause value : List Tree} {type : Option Ty}
    {initial : Option Surface.Expr} (htype : ReadsType clause type)
    (hinitial : ReadsInitial value initial) :
    Opens (fun n s n' => DenotesStatement n
        (.node .declaration (.leaf word) (.leaf id :: clause ++ value ++ [.leaf stop])) s n')
      (declaration ⟨id.location, id.text⟩ type initial) := by
  have hclause := isTypeClause_of_readsType htype
  -- the variable is declared after its initial value has been read
  have hdeclare {tree : Tree} (o : Option Expr) (h : ∀ n i, DenotesStatement n tree
      (.declaration i (o.map fun value => ⟨⟨id.location, ⟨id.text, some i⟩⟩, value⟩)) n) :
      Opens (fun n s n' => DenotesStatement n tree s n') (do
        let i ← declare ⟨id.location, id.text⟩ (declaredType (← get).table type o)
        return Statement.declaration i
          (o.map fun value => ⟨⟨id.location, ⟨id.text, some i⟩⟩, value⟩)) :=
    get_opens.bind fun _ => (declare_opens _ _).bind fun i => opens_pure fun _ _ hm _ hn => by
      rw [hm, hn]
      exact h _ i
  cases hinitial with
  | absent =>
    rw [List.append_nil]
    exact hdeclare none fun _ _ => .declaration hclause
  | @given sign value x h =>
    have hvalue : Opens (fun n o n' => ∃ e, Denotes value e ∧ o = some e ∧ n' = n)
        (some <$> reading (expression · x)) :=
      (expression_opens h).map fun n e n' h => ⟨e, h.1, rfl, h.2⟩
    refine hvalue.bind fun o r => ?_
    rintro n ⟨e, he, rfl, rfl⟩
    rw [List.append_assoc]
    exact hdeclare (some e) (fun _ _ => .initialized hclause he) r

/-- The statements of a block, after its brace. -/
theorem inScope_opens {ts : List Tree} {body : StateM Resolver (List Statement)}
    (h : Opens (fun n ss n' => DenotesStatements n ts ss n') body) (curly : Token) :
    Opens (fun n b n' => DenotesBlock n (.node .block (.leaf curly) ts) b n') (inScope body) :=
  fun r => .mk (h ⟨⟨r.nextScope, []⟩ :: r.scopes, r.nextScope + 1, r.table, r.errors⟩)

/-- Braces and the end mean nothing, so they may stand before other statements. -/
theorem passed_denoted {before ts : List Tree} {ss : List Statement} {n n' : Nat}
    (hbefore : ∀ t ∈ before, Passed t) (h : DenotesStatements n ts ss n') :
    DenotesStatements n (before ++ ts) ss n' := by
  induction before with
  | nil => exact h
  | cons t before ih =>
    rw [List.forall_mem_cons] at hbefore
    have hrest := ih hbefore.2
    cases hbefore.1 with
    | leaf t => exact .leaf hrest
    | skipped t ts => exact .skipped hrest

mutual

/-- A statement means what its tree says, and its blocks have the next numbers. -/
theorem statement_opens : ∀ (s : Surface.Statement) (t : Tree), s.Reads t →
    Opens (fun n s n' => DenotesStatement n t s n') (statement s)
  | .declaration _ _ _, _, ⟨_, _, _, _, _, rfl, rfl, htype, hinitial⟩ =>
    declaration_opens htype hinitial
  | .assignment _ value, _, ⟨id, _, tree, _, rfl, rfl, hvalue⟩ =>
    (reference_opens id).bind fun _ =>
    (expression_opens hvalue).bind fun _ => opens_pure fun _ _ hvalue _ htarget => by
      obtain ⟨⟨referent, rfl⟩, rfl⟩ := htarget
      obtain ⟨he, rfl⟩ := hvalue
      exact .assignment he
  | .conditional condition body rest, _, ⟨_, _, _, _, curly, _, _, rfl, hcondition, hbody, hrest⟩ =>
    (expression_opens hcondition).bind fun _ =>
    (inScope_opens (statements_opens body _ hbody) curly).bind fun _ =>
    (otherwise_opens rest _ hrest).bind fun _ =>
    opens_pure fun _ _ hrest _ hblock _ hcondition => by
      obtain ⟨he, rfl⟩ := hcondition
      exact .conditional he hblock hrest
  | .loop condition body, _, ⟨_, _, _, _, curly, _, rfl, hcondition, hbody⟩ =>
    (expression_opens hcondition).bind fun _ =>
    (inScope_opens (statements_opens body _ hbody) curly).bind fun _ => opens_pure
      fun _ _ hblock _ hcondition => by
        obtain ⟨he, rfl⟩ := hcondition
        exact .loop he hblock
  | .call location function arguments, _, ⟨tree, _, rfl, hcall⟩ =>
    (call_opens hcall).bind fun _ => opens_pure fun _ _ hcall => by
      obtain ⟨he, rfl⟩ := hcall
      exact .call he
  | .block body, _, ⟨curly, _, rfl, hbody⟩ =>
    (inScope_opens (statements_opens body _ hbody) curly).bind fun _ => opens_pure fun _ _ hblock =>
      .block hblock

theorem otherwise_opens : ∀ (o : Surface.Otherwise) (more : List Tree), o.Reads more →
    Opens (fun n o n' => DenotesOtherwise n more o n') (otherwise o)
  | .nothing, _, rfl => opens_pure fun _ => .nothing
  | .block body, _, ⟨_, curly, _, rfl, hbody⟩ =>
    (inScope_opens (statements_opens body _ hbody) curly).bind fun _ => opens_pure fun _ _ hblock =>
      .block hblock
  | .conditional condition body rest, _,
      ⟨_, _, _, _, _, curly, _, _, rfl, hcondition, hbody, hrest⟩ =>
    (expression_opens hcondition).bind fun _ =>
    (inScope_opens (statements_opens body _ hbody) curly).bind fun _ =>
    (otherwise_opens rest _ hrest).bind fun _ =>
    opens_pure fun _ _ hrest _ hblock _ hcondition => by
      obtain ⟨he, rfl⟩ := hcondition
      exact .conditional (.conditional he hblock hrest)

theorem statements_opens : ∀ (ss : List Surface.Statement) (ts : List Tree),
    Surface.Statement.ReadsAll ts ss →
    Opens (fun n ss n' => DenotesStatements n ts ss n') (statements ss)
  | [], ts, h => opens_pure fun n => by
    have hnone := passed_denoted h (DenotesStatements.nil (n := n))
    rwa [List.append_nil] at hnone
  | s :: ss, _, ⟨before, inner, after, rfl, hbefore, _, hs, hss⟩ =>
    (statement_opens s inner hs).bind fun _ =>
    (statements_opens ss after hss).bind fun _ => opens_pure fun _ _ hrest _ hfirst =>
      passed_denoted hbefore (.statement hfirst hrest)

end

end Resolver

namespace Surface

open ImpC.Grammar

/-- A node of the rule is read as what the rule is for. -/
def IsRead (t : Tree) : Rule → Prop
  | .statement => ∃ s, Statement.ofTree? t = some s
  | .conditional => ∃ condition body rest,
    Statement.inner? t = some (.conditional condition body rest)
  | .alternative => ∃ o, Statement.otherwise? [t] = some o
  | .call => ∃ location function arguments,
    Expr.ofTree? t = some (.call location function arguments)
  | .expression | .or | .and | .equality | .comparison | .additive | .multiplicative | .unary
  | .primary => ∃ x, Expr.ofTree? t = some x
  | _ => True

/-- The production of the rule says what is in its nodes. -/
theorem isRead_of_derived {r : Rule} {first : Tree} {rest : List Tree}
    (h : Derived r (.node r first rest)) : IsRead (.node r first rest) r := by
  have hstands := stands h
  have hmeant := isA_expressionMeant h
  cases r with
  | statement =>
    obtain hpassed | ⟨inner, s, heq, hs⟩ := hstands
    · cases hpassed
    · rw [heq]
      exact ⟨s, hs.inner?⟩
  | conditional =>
    obtain ⟨condition, body, rest, hs, -⟩ := hstands
    exact ⟨condition, body, rest, hs.inner?⟩
  | alternative =>
    obtain ⟨o, ho⟩ := hstands
    exact ⟨o, ho.otherwise?⟩
  | call =>
    obtain ⟨location, function, arguments, hx⟩ := hmeant
    exact ⟨location, function, arguments, hx.ofTree?⟩
  | expression | or | and | equality | comparison | additive | multiplicative | unary | primary =>
    obtain ⟨x, hx⟩ := hmeant
    exact ⟨x, hx.ofTree?⟩
  | _ => trivial

end Surface

namespace Grammar

variable {skips : List Token → Prop}

/-- All nodes of derived trees derive from their rules, except for those of skipped tokens. -/
theorem Derives.isA_preorder {p : Phrase} {trees : List Tree} (h : Derives skips p trees)
    (depth : Nat) : ∀ node ∈ Tree.preorderAll depth trees, ∀ r first rest,
      node.2 = .node r first rest → r = .error ∨ IsA skips r node.2 := by
  induction h generalizing depth with
  | token => simp [Tree.preorderAll, Tree.preorder]
  | @node r first rest h ih =>
    intro node hnode r' first' rest' heq
    rw [Tree.preorderAll, Tree.preorderAll, List.append_nil, Tree.preorder, List.mem_cons] at hnode
    rcases hnode with rfl | hnode
    · cases heq
      exact .inr (.node h)
    · exact ih (depth + 1) node hnode r' first' rest' heq
  | skipped =>
    intro node hnode r' first' rest' heq
    rw [Tree.preorderAll, Tree.preorderAll, List.append_nil, Tree.preorder, Tree.preorder,
      Tree.preorderAll_map_leaf, List.mem_cons, List.mem_append, List.mem_singleton] at hnode
    rcases hnode with rfl | rfl | hnode
    · cases heq
      exact .inl rfl
    · cases heq
    · obtain ⟨u, -, rfl⟩ := List.mem_map.mp hnode
      cases heq
  | empty | none => simp [Tree.preorderAll]
  | seq _ _ ih ih' | more _ _ ih ih' =>
    intro node hnode
    rw [Tree.preorderAll_append, List.mem_append] at hnode
    exact hnode.elim (ih depth node) (ih' depth node)
  | first _ ih | second _ ih => exact ih depth

end Grammar

open ImpC.Grammar

/-- Every node of a program that was read is built as its rule says. -/
theorem parse_isRead {tokens : List Token} {tree : Tree} (h : (parse tokens).tree = some tree) :
    ∀ node ∈ tree.preorder 0, ∀ r first rest, node.2 = .node r first rest →
      Surface.IsRead node.2 r := by
  obtain ⟨first, more, rfl, hd⟩ := parse_derives h
  intro node hnode r first' rest' heq
  rw [preorder_program, List.mem_cons, List.mem_append] at hnode
  rcases hnode with rfl | hnode | hnode
  · cases heq
    trivial
  · rcases hd.isA_preorder 1 node hnode r first' rest' heq with rfl | hisA
    · trivial
    · rw [heq] at hisA ⊢
      exact Surface.isRead_of_derived hisA
  · obtain ⟨u, -, rfl⟩ := List.mem_map.mp hnode
    cases heq

/-- Resolving a program keeps every statement of its tree, with all its parts; nothing that stands
for a statement or an expression fails to be read; and the blocks are numbered in the order of their
opening braces, the program itself being the first. -/
theorem resolve_keeps_statements {tokens : List Token} {tree : Tree}
    (h : (parse tokens).tree = some tree) :
    (∃ n, (resolve (Surface.ofTree tree)).program.scope = 0 ∧
      DenotesStatements 1 tree.children (resolve (Surface.ofTree tree)).program.statements n ∧
      (resolve (Surface.ofTree tree)).program.scopes = List.range n) ∧
    ∀ node ∈ tree.preorder 0, ∀ r first rest, node.2 = .node r first rest →
      Surface.IsRead node.2 r := by
  refine ⟨?_, parse_isRead h⟩
  have hopens := Resolver.statements_opens _ _ (Surface.parse_readsAll h) ⟨[⟨0, []⟩], 1, [], []⟩
  obtain ⟨n, hnext, hscopes⟩ := Resolver.run_numbers (Surface.steps (Surface.ofTree tree)) .start
  rw [Resolver.program_run] at hnext hscopes
  refine ⟨n, rfl, ?_, ?_⟩
  · rw [← Nat.zero_add n]
    exact hnext ▸ hopens
  · rw [List.range_eq_range']
    exact hscopes

/-- All kinds of statements, one of them malformed, in six blocks. -/
def assortedStatementsSource : Source :=
  ⟨[], "var x = 1; while (f(x, -2) < 3) \x7b x = ) ; x = (x); \x7d\n".toList ++
    "if (true) \x7b \x7d else if (x) \x7b print(x); \x7d else \x7b \x7b \x7d \x7d".toList⟩

theorem resolve_keeps_statements_assorted :
    ∃ tree, (parse (Lexer.start assortedStatementsSource).tokenize.tokens).tree = some tree ∧
      tree.errorNodes.length = 1 ∧
      (resolve (Surface.ofTree tree)).program.scopes = [0, 1, 2, 3, 4, 5] ∧
      DenotesStatements 1 tree.children (resolve (Surface.ofTree tree)).program.statements 6 := by
  have htokens : (Lexer.start assortedStatementsSource).tokens =
      ((Lexer.start assortedStatementsSource).advance 120).1 :=
    Lexer.tokens_eq_advance (by decide)
  have hread : (parse (Lexer.start assortedStatementsSource).tokenize.tokens).tree.map (fun tree =>
      (tree.errorNodes.length, (resolve (Surface.ofTree tree)).program.scopes)) =
      some (1, [0, 1, 2, 3, 4, 5]) := by
    rw [Lexer.tokenize, htokens]
    decide +kernel
  obtain ⟨tree, htree, heq⟩ := Option.map_eq_some_iff.mp hread
  obtain ⟨herrors, hscopes⟩ := Prod.mk.inj heq
  obtain ⟨⟨n, -, hdenotes, hrange⟩, -⟩ := resolve_keeps_statements htree
  have hn : n = 6 := by
    simpa [hscopes] using (congrArg List.length hrange).symm
  exact ⟨tree, htree, herrors, hscopes, hn ▸ hdenotes⟩

end ImpC
