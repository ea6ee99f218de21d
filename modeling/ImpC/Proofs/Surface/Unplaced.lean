import ImpC.Proofs.Grammar.Kinds
import ImpC.Proofs.Surface.Written

/-!
# Programs apart from their places

What a tree means does not depend on the places of its tokens.
-/
namespace ImpC

/-- The same token at no place. -/
def Token.unplaced (t : Token) : Token := { t with location := nowhere }

namespace Tree

variable {f : Token → Token}

theorem mapTokens_eq_leaf {t : Tree} {token : Token} :
    t.mapTokens f = .leaf token ↔ ∃ s, t = .leaf s ∧ f s = token := by
  cases t <;> simp [mapTokens]

/-- Changing tokens keeps the shape of a tree. -/
theorem mapTokens_eq_node {t : Tree} {rule : Rule} {first : Tree} {rest : List Tree} :
    t.mapTokens f = .node rule first rest ↔
      ∃ a as, t = .node rule a as ∧ a.mapTokens f = first ∧ mapTokensAll f as = rest := by
  cases t <;> simp [mapTokens, and_assoc]

theorem mapTokensAll_eq_nil {ts : List Tree} : mapTokensAll f ts = [] ↔ ts = [] := by
  cases ts <;> simp [mapTokensAll]

theorem mapTokensAll_eq_cons {ts : List Tree} {t : Tree} {more : List Tree} :
    mapTokensAll f ts = t :: more ↔
      ∃ a as, ts = a :: as ∧ a.mapTokens f = t ∧ mapTokensAll f as = more := by
  cases ts <;> simp [mapTokensAll, and_assoc]

theorem firstToken_map (t : Tree) : (t.mapTokens f).firstToken = f t.firstToken := by
  cases t with
  | leaf t => rfl
  | node rule first rest => exact firstToken_map first

mutual

theorem lastToken_map (t : Tree) : (t.mapTokens f).lastToken = f t.lastToken := by
  match t with
  | .leaf _ => rfl
  | .node _ first rest =>
    rw [mapTokens, lastToken, lastToken, lastTokenAmong?_map rest]
    cases lastTokenAmong? rest with
    | none => exact lastToken_map first
    | some _ => rfl

theorem lastTokenAmong?_map (ts : List Tree) :
    lastTokenAmong? (mapTokensAll f ts) = (lastTokenAmong? ts).map f := by
  match ts with
  | [] => rfl
  | t :: ts =>
    rw [mapTokensAll, lastTokenAmong?, lastTokenAmong?, lastTokenAmong?_map ts]
    cases lastTokenAmong? ts with
    | none => exact congrArg some (lastToken_map t)
    | some _ => rfl

end

/-- From nowhere to nowhere is nowhere. -/
theorem location_unplaced (t : Tree) : (t.mapTokens Token.unplaced).location = nowhere := by
  rw [location, firstToken_map, lastToken_map]
  rfl

end Tree

namespace Surface

theorem Expr.location_unplaced (e : Expr) : e.unplaced.location = nowhere := by
  cases e <;> rfl

theorem Expr.ofToken?_unplaced (t : Token) :
    Expr.ofToken? t.unplaced = (Expr.ofToken? t).map Expr.unplaced := by
  unfold Expr.ofToken?
  have hkind : t.unplaced.kind = t.kind := rfl
  rw [hkind]
  split <;> rfl

/-- Whether a tree is a single number does not depend on places. -/
theorem intToken?_unplaced (t : Tree) :
    intToken? (t.mapTokens Token.unplaced) = (intToken? t).map Token.unplaced := by
  match t with
  | .leaf token =>
    simp only [Tree.mapTokens, intToken?]
    have hkind : token.unplaced.kind = token.kind := rfl
    rw [hkind]
    split <;> rfl
  | .node _ only [] => exact intToken?_unplaced only
  | .node _ _ (_ :: _) => rfl

mutual

/-- Trees without places mean the same expressions without places. -/
theorem Expr.ofTree?_unplaced (t : Tree) :
    Expr.ofTree? (t.mapTokens Token.unplaced) = (Expr.ofTree? t).map Expr.unplaced := by
  rw [Expr.ofTree?.eq_def t]
  split
  · exact Expr.ofToken?_unplaced _
  · rename_i only
    exact Expr.ofTree?_unplaced only
  · rename_i sign operand
    have hsign : unaryOf? sign.unplaced = unaryOf? sign := rfl
    have hplace : sign.unplaced.location.through (operand.mapTokens Token.unplaced).location =
        nowhere := by
      rw [Tree.location_unplaced]
      rfl
    rw [Tree.mapTokens, Tree.mapTokensAll, Tree.mapTokensAll, Tree.mapTokens, Expr.ofTree?, hsign]
    cases unaryOf? sign with
    | none => rfl
    | some op =>
      simp only [Option.bind_eq_bind, Option.bind_some, hplace, intToken?_unplaced,
        Expr.ofTree?_unplaced operand]
      cases op with
      | negate =>
        cases intToken? operand with
        | some _ => rfl
        | none => cases Expr.ofTree? operand <;> rfl
      | not => cases Expr.ofTree? operand <;> rfl
  · rename_i inner _
    exact Expr.ofTree?_unplaced inner
  · rfl
  · rename_i function opening first more closing
    simp only [Tree.mapTokens, Tree.mapTokensAll, Expr.ofTree?, Expr.ofTree?_unplaced first,
      Expr.arguments?_unplaced more]
    cases Expr.ofTree? first with
    | none => rfl
    | some _ => cases Expr.arguments? more <;> rfl
  · rename_i rule first rest h1 h2 h3 h4 h5
    rw [Tree.mapTokens, Expr.ofTree?.eq_7, Expr.ofTree?_unplaced first]
    · cases Expr.ofTree? first with
      | none => rfl
      | some left => exact Expr.chain?_unplaced left rest
    -- the mapped tree has the shape of none of the cases before, as the tree has not
    all_goals simp only [Tree.mapTokens_eq_leaf, Tree.mapTokens_eq_node, Tree.mapTokensAll_eq_nil,
      Tree.mapTokensAll_eq_cons]
    · exact h1
    · rintro _ _ hrule ⟨_, rfl, -⟩ ⟨_, _, rfl, -, rfl⟩
      exact h2 _ _ hrule rfl rfl
    · rintro _ _ _ hrule ⟨_, rfl, -⟩ ⟨_, _, rfl, -, _, _, rfl, ⟨_, rfl, -⟩, rfl⟩
      exact h3 _ _ _ hrule rfl rfl
    · rintro _ _ _ hrule ⟨_, rfl, -⟩ ⟨_, _, rfl, ⟨_, rfl, -⟩, _, _, rfl, ⟨_, rfl, -⟩, rfl⟩
      exact h4 _ _ _ hrule rfl rfl
    · rintro _ _ _ _ _ hrule ⟨_, rfl, -⟩
        ⟨_, _, rfl, ⟨_, rfl, -⟩, _, _, rfl, ⟨_, _, rfl, -, -⟩, _, _, rfl, ⟨_, rfl, -⟩, rfl⟩
      exact h5 _ _ _ _ _ hrule rfl rfl
termination_by sizeOf t

theorem Expr.arguments?_unplaced (ts : List Tree) :
    Expr.arguments? (Tree.mapTokensAll Token.unplaced ts) =
      (Expr.arguments? ts).map Expr.unplacedAll := by
  rw [Expr.arguments?.eq_def ts]
  split
  · rfl
  · rename_i argument more
    simp only [Tree.mapTokensAll, Tree.mapTokens, Expr.arguments?, Expr.ofTree?_unplaced argument,
      Expr.arguments?_unplaced more]
    cases Expr.ofTree? argument with
    | none => rfl
    | some _ => cases Expr.arguments? more <;> rfl
  · rename_i h1 h2
    rw [Expr.arguments?.eq_3]
    · rfl
    all_goals simp only [Tree.mapTokens_eq_leaf, Tree.mapTokensAll_eq_nil,
      Tree.mapTokensAll_eq_cons]
    · exact h1
    · rintro _ _ _ ⟨_, _, rfl, ⟨_, rfl, -⟩, _, _, rfl, -⟩
      exact h2 _ _ _ rfl
termination_by sizeOf ts

theorem Expr.chain?_unplaced (left : Expr) (ts : List Tree) :
    Expr.chain? left.unplaced (Tree.mapTokensAll Token.unplaced ts) =
      (Expr.chain? left ts).map Expr.unplaced := by
  rw [Expr.chain?.eq_def left ts]
  split
  · rfl
  · rename_i sign operand more
    have hsign : binaryOf? sign.unplaced = binaryOf? sign := rfl
    simp only [Tree.mapTokensAll, Tree.mapTokens, Expr.chain?, hsign, Expr.ofTree?_unplaced operand]
    cases binaryOf? sign with
    | none => rfl
    | some op =>
      cases Expr.ofTree? operand with
      | none => rfl
      | some right =>
        have hmore := Expr.chain?_unplaced
          (.binary (left.location.through right.location) op left right) more
        simp only [Option.bind_eq_bind, Option.bind_some, Option.map_some,
          Expr.location_unplaced] at hmore ⊢
        exact hmore
  · rename_i h1 h2
    rw [Expr.chain?.eq_3]
    · rfl
    all_goals simp only [Tree.mapTokens_eq_leaf, Tree.mapTokensAll_eq_nil,
      Tree.mapTokensAll_eq_cons]
    · exact h1
    · rintro _ _ _ ⟨_, _, rfl, ⟨_, rfl, -⟩, _, _, rfl, -⟩
      exact h2 _ _ _ rfl
termination_by sizeOf ts

end

mutual

def Statement.unplaced : Statement → Statement
  | .declaration name type initial =>
    .declaration ⟨nowhere, name.value⟩ type (initial.map Expr.unplaced)
  | .assignment target value => .assignment ⟨nowhere, target.value⟩ value.unplaced
  | .conditional condition body otherwise =>
    .conditional condition.unplaced (Statement.unplacedAll body) otherwise.unplaced
  | .loop condition body => .loop condition.unplaced (Statement.unplacedAll body)
  | .call _ function arguments => .call nowhere function (Expr.unplacedAll arguments)
  | .block body => .block (Statement.unplacedAll body)

def Otherwise.unplaced : Otherwise → Otherwise
  | .nothing => .nothing
  | .block body => .block (Statement.unplacedAll body)
  | .conditional condition body otherwise =>
    .conditional condition.unplaced (Statement.unplacedAll body) otherwise.unplaced

def Statement.unplacedAll : List Statement → List Statement
  | [] => []
  | s :: ss => s.unplaced :: Statement.unplacedAll ss

end

theorem Statement.declaration?_unplaced (name : Token) (ts : List Tree) :
    Statement.declaration? name.unplaced (Tree.mapTokensAll Token.unplaced ts) =
      (Statement.declaration? name ts).map Statement.unplaced := by
  rw [Statement.declaration?.eq_def name ts]
  split
  · rfl
  · rfl
  · rename_i value _
    simp only [Tree.mapTokensAll, Tree.mapTokens, Statement.declaration?,
      Expr.ofTree?_unplaced value]
    cases Expr.ofTree? value <;> rfl
  · rename_i value _
    simp only [Tree.mapTokensAll, Tree.mapTokens, Statement.declaration?,
      Expr.ofTree?_unplaced value]
    cases Expr.ofTree? value <;> rfl
  · rename_i h1 h2 h3 h4
    rw [Statement.declaration?.eq_5]
    · rfl
    all_goals simp only [Tree.mapTokens_eq_leaf, Tree.mapTokens_eq_node, Tree.mapTokensAll_eq_nil,
      Tree.mapTokensAll_eq_cons]
    · rintro _ ⟨_, _, rfl, ⟨_, rfl, -⟩, rfl⟩
      exact h1 _ rfl
    · rintro _ _ _ ⟨_, _, rfl, ⟨_, _, rfl, ⟨_, rfl, -⟩, _, _, rfl, ⟨_, rfl, -⟩, rfl⟩,
        _, _, rfl, ⟨_, rfl, -⟩, rfl⟩
      exact h2 _ _ _ rfl
    · rintro _ _ _ ⟨_, _, rfl, ⟨_, rfl, -⟩, _, _, rfl, -, _, _, rfl, ⟨_, rfl, -⟩, rfl⟩
      exact h3 _ _ _ rfl
    · rintro _ _ _ _ _ ⟨_, _, rfl, ⟨_, _, rfl, ⟨_, rfl, -⟩, _, _, rfl, ⟨_, rfl, -⟩, rfl⟩,
        _, _, rfl, ⟨_, rfl, -⟩, _, _, rfl, -, _, _, rfl, ⟨_, rfl, -⟩, rfl⟩
      exact h4 _ _ _ _ _ rfl

theorem Statement.unplacedAll_append (ss ss' : List Statement) :
    Statement.unplacedAll (ss ++ ss') =
      Statement.unplacedAll ss ++ Statement.unplacedAll ss' := by
  induction ss with
  | nil => rfl
  | cons s ss ih => rw [List.cons_append, Statement.unplacedAll, Statement.unplacedAll, ih]; rfl

mutual

/-- The same for statements, with what is inside them. -/
theorem Statement.ofTree?_unplaced (t : Tree) :
    Statement.ofTree? (t.mapTokens Token.unplaced) =
      (Statement.ofTree? t).map Statement.unplaced := by
  rw [Statement.ofTree?.eq_def t]
  split
  · rename_i inner
    exact Statement.inner?_unplaced inner
  · rename_i h
    rw [Statement.ofTree?.eq_2]
    · rfl
    · simp only [Tree.mapTokens_eq_node, Tree.mapTokensAll_eq_nil]
      rintro _ ⟨_, _, rfl, -, rfl⟩
      exact h _ rfl
termination_by sizeOf t

theorem Statement.inner?_unplaced (t : Tree) :
    Statement.inner? (t.mapTokens Token.unplaced) =
      (Statement.inner? t).map Statement.unplaced := by
  rw [Statement.inner?.eq_def t]
  split
  · rename_i name rest
    exact Statement.declaration?_unplaced name rest
  · rename_i value _
    simp only [Tree.mapTokensAll, Tree.mapTokens, Statement.inner?, Expr.ofTree?_unplaced value]
    cases Expr.ofTree? value <;> rfl
  · rename_i inner _
    simp only [Tree.mapTokensAll, Tree.mapTokens, Statement.inner?, Expr.ofTree?_unplaced inner]
    rcases Expr.ofTree? inner with _ | (_ | _ | _ | _ | _) <;> rfl
  · rename_i rest
    simp only [Tree.mapTokens, Statement.inner?, Statement.body_unplaced rest]
    rfl
  · rename_i condition _ _ rest
    simp only [Tree.mapTokensAll, Tree.mapTokens, Statement.inner?, Expr.ofTree?_unplaced condition,
      Statement.body_unplaced rest]
    cases Expr.ofTree? condition <;> rfl
  · rename_i condition _ _ rest more
    simp only [Tree.mapTokensAll, Tree.mapTokens, Statement.inner?, Expr.ofTree?_unplaced condition,
      Statement.body_unplaced rest, Statement.otherwise?_unplaced more]
    cases Expr.ofTree? condition with
    | none => rfl
    | some _ => cases Statement.otherwise? more <;> rfl
  · rename_i h1 h2 h3 h4 h5 h6
    rw [Statement.inner?.eq_7]
    · rfl
    all_goals simp only [Tree.mapTokens_eq_leaf, Tree.mapTokens_eq_node, Tree.mapTokensAll_eq_nil,
      Tree.mapTokensAll_eq_cons]
    · rintro _ _ _ ⟨_, _, rfl, ⟨_, rfl, -⟩, _, _, rfl, ⟨_, rfl, -⟩, -⟩
      exact h1 _ _ _ rfl
    · rintro _ _ _ _ ⟨_, _, rfl, ⟨_, rfl, -⟩, _, _, rfl, ⟨_, rfl, -⟩, _, _, rfl, -,
        _, _, rfl, ⟨_, rfl, -⟩, rfl⟩
      exact h2 _ _ _ _ rfl
    · rintro _ _ ⟨_, _, rfl, -, _, _, rfl, ⟨_, rfl, -⟩, rfl⟩
      exact h3 _ _ rfl
    · rintro _ _ ⟨_, _, rfl, ⟨_, rfl, -⟩, -⟩
      exact h4 _ _ rfl
    · rintro _ _ _ _ _ _ ⟨_, _, rfl, ⟨_, rfl, -⟩, _, _, rfl, ⟨_, rfl, -⟩, _, _, rfl, -,
        _, _, rfl, ⟨_, rfl, -⟩, _, _, rfl, ⟨_, _, rfl, ⟨_, rfl, -⟩, -⟩, rfl⟩
      exact h5 _ _ _ _ _ _ rfl
    · rintro _ _ _ _ _ _ _ ⟨_, _, rfl, ⟨_, rfl, -⟩, _, _, rfl, ⟨_, rfl, -⟩, _, _, rfl, -,
        _, _, rfl, ⟨_, rfl, -⟩, _, _, rfl, ⟨_, _, rfl, ⟨_, rfl, -⟩, -⟩, -⟩
      exact h6 _ _ _ _ _ _ _ rfl
termination_by sizeOf t

theorem Statement.otherwise?_unplaced (ts : List Tree) :
    Statement.otherwise? (Tree.mapTokensAll Token.unplaced ts) =
      (Statement.otherwise? ts).map Otherwise.unplaced := by
  rw [Statement.otherwise?.eq_def ts]
  split
  · rfl
  · rename_i rest
    simp only [Tree.mapTokensAll, Tree.mapTokens, Statement.otherwise?,
      Statement.body_unplaced rest]
    rfl
  · rename_i condition _ _ rest more
    simp only [Tree.mapTokensAll, Tree.mapTokens, Statement.otherwise?,
      Expr.ofTree?_unplaced condition, Statement.body_unplaced rest,
      Statement.otherwise?_unplaced more]
    cases Expr.ofTree? condition with
    | none => rfl
    | some _ => cases Statement.otherwise? more <;> rfl
  · rename_i h1 h2 h3
    rw [Statement.otherwise?.eq_4]
    · rfl
    all_goals simp only [Tree.mapTokens_eq_leaf, Tree.mapTokens_eq_node, Tree.mapTokensAll_eq_nil,
      Tree.mapTokensAll_eq_cons]
    · exact h1
    · rintro _ _ _ ⟨_, _, rfl,
        ⟨_, _, rfl, ⟨_, rfl, -⟩, _, _, rfl, ⟨_, _, rfl, ⟨_, rfl, -⟩, -⟩, rfl⟩, rfl⟩
      exact h2 _ _ _ rfl
    · rintro _ _ _ _ _ _ _ _ ⟨_, _, rfl, ⟨_, _, rfl, ⟨_, rfl, -⟩, _, _, rfl,
        ⟨_, _, rfl, ⟨_, rfl, -⟩, _, _, rfl, ⟨_, rfl, -⟩, _, _, rfl, -, _, _, rfl, ⟨_, rfl, -⟩,
          _, _, rfl, ⟨_, _, rfl, ⟨_, rfl, -⟩, -⟩, -⟩, rfl⟩, rfl⟩
      exact h3 _ _ _ _ _ _ _ _ rfl
termination_by sizeOf ts

theorem Statement.body_unplaced (ts : List Tree) :
    Statement.body (Tree.mapTokensAll Token.unplaced ts) =
      Statement.unplacedAll (Statement.body ts) := by
  match ts with
  | [] => rfl
  | t :: ts =>
    rw [Tree.mapTokensAll, Statement.body, Statement.body, Statement.unplacedAll_append,
      Statement.ofTree?_unplaced t, Statement.body_unplaced ts]
    cases Statement.ofTree? t <;> rfl
termination_by sizeOf ts

end

/-- What a program means does not depend on the places of its tokens. -/
theorem ofTree_unplaced (t : Tree) :
    ofTree (t.mapTokens Token.unplaced) = Statement.unplacedAll (ofTree t) := by
  cases t with
  | leaf _ => rfl
  | node rule first rest => exact Statement.body_unplaced (first :: rest)

end Surface

end ImpC
