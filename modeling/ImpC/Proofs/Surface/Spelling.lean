import ImpC.Proofs.Grammar.Places
import ImpC.Proofs.Surface.Reading

/-!
# How expressions are spelled

The tokens of an expression and of all its parts. Parentheses around an operand are not covered by its
location, so the location of an operation, which goes from its left operand to its right one, leaves
out those at its ends. It covers the spelling of the operation if and only if the parentheses within
it come in pairs; all other parts are covered exactly.
-/
namespace ImpC.Surface

open ImpC.Grammar ImpC.Parser

/-- The number of open parentheses after a token, unless it closes one that is not open. -/
def deepen (depth : Nat) (t : Token) : Option Nat :=
  if t.kind = .openParen then some (depth + 1)
  else if t.kind = .closeParen then if depth = 0 then none else some (depth - 1)
  else some depth

def depth? (depth : Nat) (ts : List Token) : Option Nat := ts.foldlM deepen depth

/-- The parentheses among the tokens come in pairs. -/
def Paired (ts : List Token) : Prop := depth? 0 ts = some 0

instance (ts : List Token) : Decidable (Paired ts) := inferInstanceAs (Decidable (_ = _))

section Depth

variable {d e : Nat} {t : Token} {ts us : List Token}

@[simp] theorem depth?_nil : depth? d [] = some d := rfl

@[simp] theorem depth?_cons : depth? d (t :: ts) = (deepen d t).bind (depth? · ts) := rfl

@[simp] theorem depth?_append : depth? d (ts ++ us) = (depth? d ts).bind (depth? · us) := by
  simp [depth?]

theorem deepen_open (h : t.kind = .openParen) : deepen d t = some (d + 1) := by simp [deepen, h]

theorem deepen_close (h : t.kind = .closeParen) : deepen (d + 1) t = some d := by simp [deepen, h]

theorem deepen_plain (h : t.kind ≠ .openParen) (h' : t.kind ≠ .closeParen) :
    deepen d t = some d := by
  simp [deepen, h, h']

/-- Tokens that can be passed at some depth can be passed deeper. -/
theorem deepen_add (n : Nat) (h : deepen d t = some e) : deepen (d + n) t = some (e + n) := by
  unfold deepen at h ⊢
  by_cases hopen : t.kind = .openParen
  · simp only [hopen, if_true, Option.some.injEq] at h ⊢
    omega
  · by_cases hclose : t.kind = .closeParen
    · by_cases hd : d = 0
      · simp [hclose, hd] at h
      · have hdn : d + n ≠ 0 := by omega
        simp only [hclose, hd, hdn, if_true, if_false, reduceCtorEq, Option.some.injEq] at h ⊢
        omega
    · simp only [hopen, hclose, if_false, Option.some.injEq] at h ⊢
      omega

/-- More parentheses around the tokens stay open. -/
theorem depth?_add (n : Nat) (h : depth? d ts = some e) : depth? (d + n) ts = some (e + n) := by
  induction ts generalizing d with
  | nil =>
    cases h
    rfl
  | cons t ts ih =>
    rw [depth?_cons] at h ⊢
    obtain ⟨m, hm, hrest⟩ := Option.bind_eq_some_iff.mp h
    rw [deepen_add n hm]
    exact ih hrest

theorem depth?_opens (h : ∀ t ∈ ts, t.kind = .openParen) : depth? d ts = some (d + ts.length) := by
  induction ts generalizing d with
  | nil => rfl
  | cons t ts ih =>
    rw [List.forall_mem_cons] at h
    rw [depth?_cons, deepen_open h.1, Option.bind_some, ih h.2, List.length_cons]
    congr 1
    omega

namespace Paired

theorem nil : Paired [] := rfl

/-- A paired row comes back to the depth where it starts. -/
theorem depth? (h : Paired ts) (d : Nat) : depth? d ts = some d := by
  have hshift := depth?_add d h
  rwa [Nat.zero_add] at hshift

theorem append (h : Paired ts) (h' : Paired us) : Paired (ts ++ us) := by
  rw [Paired, depth?_append, h, Option.bind_some, h']

/-- What is behind a paired row in a paired row is paired. -/
theorem right (h : Paired ts) (h' : Paired (ts ++ us)) : Paired us := by
  rwa [Paired, depth?_append, h, Option.bind_some] at h'

theorem plain (h : t.kind ≠ .openParen) (h' : t.kind ≠ .closeParen) (hts : Paired ts) :
    Paired (t :: ts) := by
  rw [Paired, depth?_cons, deepen_plain h h', Option.bind_some, hts]

theorem enclosed {o c : Token} (ho : o.kind = .openParen) (hc : c.kind = .closeParen)
    (h : Paired ts) : Paired (o :: (ts ++ [c])) := by
  rw [Paired, depth?_cons, deepen_open ho, Option.bind_some, depth?_append, h.depth?,
    Option.bind_some, depth?_cons, deepen_close hc]
  rfl

/-- Opening parentheses that are left out have closed ones missing their partners. -/
theorem opens_nil (hopens : ∀ t ∈ ts, t.kind = .openParen) (h : Paired (ts ++ us))
    {vs : List Token} (h' : Paired (us ++ vs)) : ts = [] := by
  rw [Paired, depth?_append] at h h'
  obtain ⟨e, he, -⟩ := Option.bind_eq_some_iff.mp h'
  rw [depth?_opens hopens, Option.bind_some, depth?_add _ he, Option.some_inj] at h
  exact List.length_eq_zero_iff.mp (by omega)

/-- No parenthesis is left to be closed behind a paired row. -/
theorem closes_nil (hcloses : ∀ t ∈ us, t.kind = .closeParen) (h : Paired (ts ++ us))
    (h' : Paired ts) : us = [] := by
  have hus := h'.right h
  cases us with
  | nil => rfl
  | cons t us =>
    rw [Paired, depth?_cons] at hus
    simp [deepen, hcloses t List.mem_cons_self] at hus

end Paired

end Depth

/-- The location goes from the first token to the last. -/
def Spans (ts : List Token) (a : Location) : Prop :=
  ∃ t u, ts.head? = some t ∧ ts.getLast? = some u ∧ a = t.location.through u.location

theorem spans_leaves (t : Tree) : Spans t.leaves t.location :=
  ⟨t.firstToken, t.lastToken, t.head?_leaves, t.getLast?_leaves, rfl⟩

/-- The location goes from the first token to the last, parentheses at the ends apart. -/
def Framed (ts : List Token) (a : Location) : Prop :=
  ∃ opens core closes, ts = opens ++ (core ++ closes) ∧ (∀ t ∈ opens, t.kind = .openParen) ∧
    (∀ t ∈ closes, t.kind = .closeParen) ∧ Spans core a

/-- There need not be parentheses at the ends. -/
theorem Spans.framed {ts : List Token} {a : Location} (h : Spans ts a) : Framed ts a :=
  ⟨[], ts, [], by simp, by simp, by simp, h⟩

theorem Spans.through {ts us mid : List Token} {a b : Location} (h : Spans ts a) (h' : Spans us b) :
    Spans (ts ++ (mid ++ us)) (a.through b) := by
  obtain ⟨t, u, ht, -, rfl⟩ := h
  obtain ⟨t', u', -, hu', rfl⟩ := h'
  refine ⟨t, u', ?_, ?_, rfl⟩
  · rw [List.head?_append, ht]
    rfl
  · rw [List.getLast?_append, List.getLast?_append, hu']
    rfl

mutual

/-- An expression and all the expressions in it. -/
def Expr.parts : Expr → List Expr
  | .literal place value => [.literal place value]
  | .name place word => [.name place word]
  | .unary place op operand => .unary place op operand :: operand.parts
  | .binary place op left right => .binary place op left right :: (left.parts ++ right.parts)
  | .call place function arguments => .call place function arguments :: Expr.partsAll arguments

def Expr.partsAll : List Expr → List Expr
  | [] => []
  | x :: xs => x.parts ++ Expr.partsAll xs

end

def Expr.isBinary : Expr → Bool
  | .binary _ _ _ _ => true
  | _ => false

variable {skips : List Token → Prop}

/-- The tokens are those of a derivation that is this expression. -/
def Spelt (skips : List Token → Prop) (ts : List Token) (x : Expr) : Prop :=
  ∃ t, IsA skips .expression t ∧ t.leaves = ts ∧ Expr.ofTree? t = some x

/-- The tokens from the first to the last of an expression spell it if their parentheses come in
pairs, which they do unless it is an operation on two operands. -/
structure Faithful (skips : List Token → Prop) (ts : List Token) (x : Expr) : Prop where
  spans : Spans ts x.location
  spelt : Paired ts → Spelt skips ts x
  paired : x.isBinary = false → Paired ts

/-- The tokens of an expression, and of everything in it. -/
structure Spelling (skips : List Token → Prop) (ts : List Token) (x : Expr) : Prop where
  spelt : Spelt skips ts x
  paired : Paired ts
  framed : Framed ts x.location
  parts : ∀ y ∈ x.parts, ∃ part, part <:+: ts ∧ Faithful skips part y

namespace Spelling

variable {ts us : List Token} {x y : Expr}

/-- An expression that is covered as a whole, with others in it. -/
theorem whole (hspelt : Spelt skips ts x) (hpaired : Paired ts) (hspans : Spans ts x.location)
    (hparts : ∀ y ∈ x.parts, y = x ∨ ∃ us z, us <:+: ts ∧ Spelling skips us z ∧ y ∈ z.parts) :
    Spelling skips ts x := by
  refine ⟨hspelt, hpaired, hspans.framed, fun y hy => ?_⟩
  rcases hparts y hy with rfl | ⟨us, z, hin, hz, hy⟩
  · exact ⟨ts, List.infix_rfl, hspans, fun _ => hspelt, fun _ => hpaired⟩
  · obtain ⟨part, hpart, hfaithful⟩ := hz.parts y hy
    exact ⟨part, hpart.trans hin, hfaithful⟩

theorem enclosed {o c : Token} (ho : o.kind = .openParen) (hc : c.kind = .closeParen)
    (h : Spelling skips ts x) (hspelt : Spelt skips (o :: (ts ++ [c])) x) :
    Spelling skips (o :: (ts ++ [c])) x := by
  obtain ⟨opens, core, closes, hts, hopens, hcloses, hspans⟩ := h.framed
  refine ⟨hspelt, h.paired.enclosed ho hc, ⟨o :: opens, core, closes ++ [c], ?_, ?_, ?_, hspans⟩, ?_⟩
  · simp [hts]
  · exact List.forall_mem_cons.mpr ⟨ho, hopens⟩
  · exact List.forall_mem_append.mpr ⟨hcloses, List.forall_mem_singleton.mpr hc⟩
  · intro y hy
    obtain ⟨part, hpart, hfaithful⟩ := h.parts y hy
    exact ⟨part, hpart.trans ⟨[o], [c], rfl⟩, hfaithful⟩

/-- An operation on two operands is covered but for the parentheses at its ends. -/
theorem binary {op : BinaryOp} {sign : Token} (ho : sign.kind ≠ .openParen)
    (hc : sign.kind ≠ .closeParen) (h : Spelling skips ts x) (h' : Spelling skips us y)
    (hspelt : Spelt skips (ts ++ sign :: us) (.binary (x.location.through y.location) op x y)) :
    Spelling skips (ts ++ sign :: us) (.binary (x.location.through y.location) op x y) := by
  have hus : Paired (sign :: us) := h'.paired.plain ho hc
  obtain ⟨opens, core, closes, hts, hopens, -, hspans⟩ := h.framed
  obtain ⟨opens', core', closes', hus', -, hcloses', hspans'⟩ := h'.framed
  let covered := core ++ ((closes ++ sign :: opens') ++ core')
  have hwhole : ts ++ sign :: us = opens ++ (covered ++ closes') := by simp [covered, hts, hus']
  have hcovered : Spans covered (x.location.through y.location) := hspans.through hspans'
  refine ⟨hspelt, h.paired.append hus, ⟨opens, covered, closes', hwhole, hopens, hcloses', hcovered⟩,
    ?_⟩
  intro z hz
  rw [Expr.parts, List.mem_cons, List.mem_append] at hz
  rcases hz with rfl | hz | hz
  · refine ⟨covered, ⟨opens, closes', by simp [hwhole]⟩, hcovered, fun hpaired => ?_,
      fun hbinary => by cases hbinary⟩
    -- nothing is left out on the left, since the left operand is whole, nor then on the right
    have hleft : Paired (opens ++ (core ++ closes)) := hts ▸ h.paired
    have hrest : Paired ((core ++ closes) ++ (sign :: opens' ++ core')) := by
      simpa [covered] using hpaired
    have hopens_nil : opens = [] := hleft.opens_nil hopens hrest
    have hcloses_nil : closes' = [] := by
      apply Paired.closes_nil hcloses' _ hpaired
      have hall := h.paired.append hus
      rwa [hwhole, hopens_nil, List.nil_append] at hall
    rw [hopens_nil, hcloses_nil, List.nil_append, List.append_nil] at hwhole
    rwa [← hwhole]
  · obtain ⟨part, hpart, hfaithful⟩ := h.parts z hz
    exact ⟨part, hpart.trans (List.infix_append [] _ _), hfaithful⟩
  · obtain ⟨part, hpart, hfaithful⟩ := h'.parts z hz
    exact ⟨part, hpart.trans ⟨ts ++ [sign], [], by simp⟩, hfaithful⟩

end Spelling

section Trees

variable {t : Tree} {x : Expr}

theorem spelt_single {r : Rule} {inner : Tree} (h : Spelt skips (Tree.node r inner []).leaves x) :
    Spelt skips inner.leaves x := by
  simpa [Tree.leaves, Tree.leavesAll] using h

/-- Whatever stands where a tighter operand may stand is an expression of its own. -/
theorem spelt_of_level {k : Nat} (hk : k ≤ 6) (h : IsA skips (levelRule k) t)
    (hx : Expr.ofTree? t = some x) : Spelt skips t.leaves x := by
  induction k generalizing t with
  | zero =>
    refine ⟨.node .expression t [], isA_expression.mpr ⟨t, h, rfl⟩, ?_, ?_⟩
    · simp [Tree.leaves, Tree.leavesAll]
    · rw [Expr.ofTree?]
      exact hx
  | succ k ih =>
    have hwrapped : IsA skips (levelRule k) (.node (levelRule k) t []) :=
      (isA_level (by omega)).mpr ⟨t, [], h, .nil, rfl⟩
    have hmeaning : Expr.ofTree? (.node (levelRule k) t []) = some x := by
      rw [ofTree?_level (by omega), hx]
      rfl
    exact spelt_single (ih (by omega) hwrapped hmeaning)

theorem spelt_of_primary (h : IsA skips .primary t) (hx : Expr.ofTree? t = some x) :
    Spelt skips t.leaves x := by
  have hwrapped : IsA skips (levelRule 6) (.node .unary t []) := isA_unary.mpr (.inr ⟨t, h, rfl⟩)
  have hmeaning : Expr.ofTree? (.node .unary t []) = some x := by
    rw [Expr.ofTree?]
    exact hx
  exact spelt_single (spelt_of_level (Nat.le_refl 6) hwrapped hmeaning)

theorem spelt_of_call (h : IsA skips .call t) (hx : Expr.ofTree? t = some x) :
    Spelt skips t.leaves x := by
  have hwrapped : IsA skips .primary (.node .primary t []) :=
    isA_primary.mpr (.inr (.inl ⟨t, h, rfl⟩))
  have hmeaning : Expr.ofTree? (.node .primary t []) = some x := by
    obtain ⟨first, rest, -, rfl⟩ := (isA_iff (by decide)).mp h
    rw [Expr.ofTree?]
    exact hx
  exact spelt_single (spelt_of_primary hwrapped hmeaning)

/-- Every expression that the tree is has the spelling of its leaves. -/
def IsSpelling (skips : List Token → Prop) (t : Tree) : Prop :=
  ∀ x, Expr.ofTree? t = some x → Spelling skips t.leaves x

theorem atom_spelling {token : Token} (ht : isLiteral token.kind = true ∨ token.kind = .ident) :
    IsSpelling skips (.node .primary (.leaf token) []) := by
  intro x hx
  have hisA : IsA skips .primary (.node .primary (.leaf token) []) :=
    isA_primary.mpr (.inl ⟨token, ht, rfl⟩)
  have hspelt := spelt_of_primary hisA hx
  have hleaves : (Tree.node .primary (.leaf token) []).leaves = [token] := rfl
  rw [hleaves] at hspelt ⊢
  have hparts : x.location = token.location ∧ x.parts = [x] := by
    rw [Expr.ofTree?, Expr.ofTree?] at hx
    unfold Expr.ofToken? at hx
    split at hx <;> cases hx <;> exact ⟨rfl, rfl⟩
  have hpaired : Paired [token] := by
    apply Paired.nil.plain
    · intro hkind
      rw [hkind] at ht
      exact absurd ht (by decide)
    · intro hkind
      rw [hkind] at ht
      exact absurd ht (by decide)
  refine .whole hspelt hpaired ⟨token, token, rfl, rfl, hparts.1⟩ fun y hy => .inl ?_
  rw [hparts.2] at hy
  exact List.mem_singleton.mp hy

/-- A negated number is spelt by both tokens, and its digits are no part of their own. -/
theorem sign_spelling {sign : Token} (hs : sign.kind = .op .minus ∨ sign.kind = .op .not)
    {operand : Tree} (ho : IsA skips .unary operand) (h : IsSpelling skips operand) :
    IsSpelling skips (.node .unary (.leaf sign) [operand]) := by
  intro x hx
  have hisA : IsA skips (levelRule 6) (.node .unary (.leaf sign) [operand]) :=
    isA_unary.mpr (.inl ⟨sign, operand, hs, ho, rfl⟩)
  have hspelt := spelt_of_level (Nat.le_refl 6) hisA hx
  have hspans := spans_leaves (.node .unary (.leaf sign) [operand])
  have hleaves : (Tree.node .unary (.leaf sign) [operand]).leaves = sign :: operand.leaves := by
    simp [Tree.leaves, Tree.leavesAll]
  have hplace : (Tree.node .unary (.leaf sign) [operand]).location =
      sign.location.through operand.location := rfl
  rw [hleaves] at hspelt hspans ⊢
  rw [hplace] at hspans
  have hpaired (hoperand : Paired operand.leaves) : Paired (sign :: operand.leaves) := by
    apply hoperand.plain
    · rcases hs with hs | hs <;> rw [hs] <;> decide
    · rcases hs with hs | hs <;> rw [hs] <;> decide
  rw [Expr.ofTree?] at hx
  obtain ⟨op, -, hx⟩ := Option.bind_eq_some_iff.mp hx
  dsimp only at hx
  split at hx
  · rename_i t hint
    cases hx
    have hoperand := h _ (ofTree?_of_intToken? hint)
    refine .whole hspelt (hpaired hoperand.paired) hspans fun y hy => .inl ?_
    exact List.mem_singleton.mp hy
  · obtain ⟨z, hz, heq⟩ := Option.bind_eq_some_iff.mp hx
    cases heq
    refine .whole hspelt (hpaired (h z hz).paired) hspans fun y hy => ?_
    rcases List.mem_cons.mp hy with rfl | hy
    · exact .inl rfl
    · exact .inr ⟨operand.leaves, z, (List.suffix_cons _ _).isInfix, h z hz, hy⟩

theorem parenthesized_spelling {opening closing : Token} {inner : Tree}
    (ho : opening.kind = .openParen) (hi : IsA skips .expression inner)
    (hc : closing.kind = .closeParen) (h : IsSpelling skips inner) :
    IsSpelling skips (.node .primary (.leaf opening) [inner, .leaf closing]) := by
  intro x hx
  have hisA : IsA skips .primary (.node .primary (.leaf opening) [inner, .leaf closing]) :=
    isA_primary.mpr (.inr (.inr ⟨opening, inner, closing, ho, hi, hc, rfl⟩))
  have hspelt := spelt_of_primary hisA hx
  have hleaves : (Tree.node .primary (.leaf opening) [inner, .leaf closing]).leaves =
      opening :: (inner.leaves ++ [closing]) := rfl
  rw [hleaves] at hspelt ⊢
  rw [Expr.ofTree?] at hx
  exact (h x hx).enclosed ho hc hspelt

theorem single_spelling {r s : Rule} {first : Tree} {rest : List Tree}
    (h : IsSpelling skips (.node s first rest)) :
    IsSpelling skips (.node r (.node s first rest) []) := by
  intro x hx
  rw [Expr.ofTree?] at hx
  have hleaves : (Tree.node r (.node s first rest) []).leaves = (Tree.node s first rest).leaves := by
    simp [Tree.leaves, Tree.leavesAll]
  rw [hleaves]
  exact h x hx

/-- Operands of a level are grouped to the left, one after the other. -/
theorem chain_spelling {k : Nat} (hk : k < 6) {first : Tree} {done more : List Tree} {left : Expr}
    (hfirst : IsA skips (levelRule (k + 1)) first)
    (hdone : Tail skips ((levelOperators k).map .op) (levelRule (k + 1)) done)
    (hmore : Tail skips ((levelOperators k).map .op) (levelRule (k + 1)) more)
    (hleft : Expr.ofTree? (.node (levelRule k) first done) = some left)
    (h : Spelling skips (Tree.node (levelRule k) first done).leaves left)
    (hitem : ∀ t ∈ more, IsA skips (levelRule (k + 1)) t → IsSpelling skips t)
    (hx : Expr.chain? left more = some x) :
    Spelling skips (Tree.node (levelRule k) first (done ++ more)).leaves x := by
  -- the operands in `done` are already grouped into `left`
  induction hmore generalizing done left with
  | nil =>
    cases hx
    rwa [List.append_nil]
  | @cons sign next more hsign hnext hmore ih =>
    rw [Expr.chain?] at hx
    obtain ⟨op, hop, hx⟩ := Option.bind_eq_some_iff.mp hx
    obtain ⟨right, hright, hx⟩ := Option.bind_eq_some_iff.mp hx
    have hone : Tail skips ((levelOperators k).map .op) (levelRule (k + 1)) [.leaf sign, next] :=
      .cons hsign hnext .nil
    have hisA : IsA skips (levelRule k) (.node (levelRule k) first (done ++ [.leaf sign, next])) :=
      (isA_level hk).mpr ⟨first, _, hfirst, hdone.append hone, rfl⟩
    have hmeaning : Expr.ofTree? (.node (levelRule k) first (done ++ [.leaf sign, next])) =
        some (.binary (left.location.through right.location) op left right) := by
      rw [ofTree?_level hk] at hleft ⊢
      obtain ⟨start, hstart, hchain⟩ := Option.bind_eq_some_iff.mp hleft
      rw [hstart, Option.bind_some, chain?_append hdone, hchain]
      simp [Expr.chain?, hop, hright]
    have hspelt := spelt_of_level (Nat.le_of_lt hk) hisA hmeaning
    have hleaves : (Tree.node (levelRule k) first (done ++ [.leaf sign, next])).leaves =
        (Tree.node (levelRule k) first done).leaves ++ sign :: next.leaves := by
      simp [Tree.leaves, Tree.leavesAll]
    obtain ⟨o, -, ho⟩ := List.mem_map.mp hsign
    have hboth : Spelling skips (Tree.node (levelRule k) first (done ++ [.leaf sign, next])).leaves
        (.binary (left.location.through right.location) op left right) := by
      rw [hleaves] at hspelt ⊢
      refine h.binary ?_ ?_ (hitem next (by simp) hnext right hright) hspelt
      · rw [← ho]
        intro hkind
        cases hkind
      · rw [← ho]
        intro hkind
        cases hkind
    have hall := ih (hdone.append hone) hmeaning hboth (fun u hu => hitem u (by simp [hu])) hx
    rwa [List.append_assoc] at hall

/-- An operation is spelt by its operands with the operator between. -/
theorem level_spelling {k : Nat} (hk : k < 6) {first : Tree} {more : List Tree}
    (hfirst : IsA skips (levelRule (k + 1)) first)
    (hmore : Tail skips ((levelOperators k).map .op) (levelRule (k + 1)) more)
    (h : IsSpelling skips first)
    (hitem : ∀ t ∈ more, IsA skips (levelRule (k + 1)) t → IsSpelling skips t) :
    IsSpelling skips (.node (levelRule k) first more) := by
  intro x hx
  rw [ofTree?_level hk] at hx
  obtain ⟨left, hleft, hx⟩ := Option.bind_eq_some_iff.mp hx
  have hstart : Expr.ofTree? (.node (levelRule k) first []) = some left := by
    rw [ofTree?_level hk, hleft]
    rfl
  have hleaves : (Tree.node (levelRule k) first []).leaves = first.leaves := by
    simp [Tree.leaves, Tree.leavesAll]
  exact chain_spelling hk hfirst .nil hmore hstart (hleaves ▸ h left hleft) hitem hx

theorem arguments_spelling {more : List Tree} {xs : List Expr}
    (h : Tail skips [.comma] .expression more)
    (hitem : ∀ t ∈ more, IsA skips .expression t → IsSpelling skips t)
    (hxs : Expr.arguments? more = some xs) :
    Paired (Tree.leavesAll more) ∧
      ∀ z ∈ xs, ∃ us, us <:+: Tree.leavesAll more ∧ Spelling skips us z := by
  induction h generalizing xs with
  | nil =>
    cases hxs
    exact ⟨rfl, fun z hz => by cases hz⟩
  | @cons comma next more hcomma hnext hmore ih =>
    rw [Expr.arguments?] at hxs
    obtain ⟨y, hy, hxs⟩ := Option.bind_eq_some_iff.mp hxs
    obtain ⟨ys, hys, heq⟩ := Option.bind_eq_some_iff.mp hxs
    cases heq
    obtain ⟨hpaired, hrest⟩ := ih (fun u hu => hitem u (by simp [hu])) hys
    have hspelling := hitem next (by simp) hnext y hy
    have hkind : comma.kind = .comma := List.mem_singleton.mp hcomma
    have hleaves : Tree.leavesAll (.leaf comma :: next :: more) =
        comma :: (next.leaves ++ Tree.leavesAll more) := rfl
    rw [hleaves]
    constructor
    · exact (hspelling.paired.append hpaired).plain (by simp [hkind]) (by simp [hkind])
    · intro z hz
      rcases List.mem_cons.mp hz with rfl | hz
      · exact ⟨next.leaves, ⟨[comma], Tree.leavesAll more, rfl⟩, hspelling⟩
      · obtain ⟨us, hus, hz⟩ := hrest z hz
        exact ⟨us, hus.trans ⟨comma :: next.leaves, [], by simp⟩, hz⟩

theorem mem_partsAll {xs : List Expr} {y : Expr} (h : y ∈ Expr.partsAll xs) :
    ∃ z ∈ xs, y ∈ z.parts := by
  induction xs with
  | nil => cases h
  | cons x xs ih =>
    rw [Expr.partsAll, List.mem_append] at h
    rcases h with h | h
    · exact ⟨x, by simp, h⟩
    · obtain ⟨z, hz, hy⟩ := ih h
      exact ⟨z, by simp [hz], hy⟩

/-- A call is covered from the name of the function to the closing parenthesis. -/
theorem call_spelling {function opening closing : Token} (arguments : List Tree) {xs : List Expr}
    (hf : function.kind = .ident) (ho : opening.kind = .openParen)
    (hc : closing.kind = .closeParen)
    (hisA : IsA skips .call
      (.node .call (.leaf function) (.leaf opening :: arguments ++ [.leaf closing])))
    (hx : Expr.ofTree? (.node .call (.leaf function) (.leaf opening :: arguments ++ [.leaf closing])) =
      some (.call (function.location.through closing.location) function.text xs))
    (hpaired : Paired (Tree.leavesAll arguments))
    (hxs : ∀ z ∈ xs, ∃ us, us <:+: Tree.leavesAll arguments ∧ Spelling skips us z) :
    Spelling skips
      (Tree.node .call (.leaf function) (.leaf opening :: arguments ++ [.leaf closing])).leaves
      (.call (function.location.through closing.location) function.text xs) := by
  have hspelt := spelt_of_call hisA hx
  have hleaves : (Tree.node .call (.leaf function)
      (.leaf opening :: arguments ++ [.leaf closing])).leaves =
      function :: opening :: (Tree.leavesAll arguments ++ [closing]) := by
    simp [Tree.leaves, Tree.leavesAll]
  rw [hleaves] at hspelt ⊢
  have hwhole := (hpaired.enclosed ho hc).plain (t := function) (by simp [hf]) (by simp [hf])
  refine .whole hspelt hwhole ⟨function, closing, rfl, ?_, rfl⟩ fun y hy => ?_
  · rw [← List.cons_append, ← List.cons_append, List.getLast?_concat]
  · rw [Expr.parts, List.mem_cons] at hy
    rcases hy with rfl | hy
    · exact .inl rfl
    · obtain ⟨z, hz, hy⟩ := mem_partsAll hy
      obtain ⟨us, hus, hspelling⟩ := hxs z hz
      exact .inr ⟨us, z, hus.trans ⟨[function, opening], [closing], rfl⟩, hspelling, hy⟩

/-- What is asserted of a derivation of a rule of expressions. The arguments of a call are no
expression, but have expressions in them. -/
def RuleSpelling (skips : List Token → Prop) (t : Tree) : Rule → Prop
  | .expression | .or | .and | .equality | .comparison | .additive | .multiplicative | .unary
  | .primary | .call => IsSpelling skips t
  | .arguments => ∀ first more, t = .node .arguments first more →
    IsSpelling skips first ∧ ∀ next ∈ more, IsA skips .expression next → IsSpelling skips next
  | _ => True

/-- All levels of operators are expressions. -/
theorem RuleSpelling.level {k : Nat} (hk : k ≤ 6) (h : RuleSpelling skips t (levelRule k)) :
    IsSpelling skips t := by
  match k, hk with
  | 0, _ | 1, _ | 2, _ | 3, _ | 4, _ | 5, _ | 6, _ => exact h

theorem isA_level_spelling {k : Nat} (hk : k < 6) (h : IsA skips (levelRule k) t)
    (ih : ∀ u ∈ t.children, ∀ r, IsA skips r u → RuleSpelling skips u r) : IsSpelling skips t := by
  obtain ⟨first, more, hfirst, hmore, rfl⟩ := (isA_level hk).mp h
  have hspelling := (ih first (by simp [Tree.children]) _ hfirst).level hk
  apply level_spelling hk hfirst hmore hspelling
  intro u hu hisA
  exact (ih u (by simp [Tree.children, hu]) _ hisA).level hk

theorem isA_call_spelling (h : IsA skips .call t)
    (ih : ∀ u ∈ t.children, ∀ r, IsA skips r u → RuleSpelling skips u r) : IsSpelling skips t := by
  obtain ⟨function, opening, closing, hf, ho, hc, rfl | ⟨arguments, harguments, rfl⟩⟩ := isA_call.mp h
  · intro x hx
    have heq := hx
    rw [Expr.ofTree?] at heq
    cases heq
    exact call_spelling [] hf ho hc h hx .nil fun z hz => by cases hz
  · obtain ⟨first, more, -, hmore, rfl⟩ := (isA_separated (by decide) rfl).mp harguments
    obtain ⟨hfirst, hrest⟩ := ih _ (by simp [Tree.children]) .arguments harguments first more rfl
    intro x hx
    have heq := hx
    rw [Expr.ofTree?] at heq
    obtain ⟨y, hy, heq⟩ := Option.bind_eq_some_iff.mp heq
    obtain ⟨ys, hys, heq⟩ := Option.bind_eq_some_iff.mp heq
    cases heq
    obtain ⟨hpaired, hparts⟩ := arguments_spelling hmore hrest hys
    have hleaves : Tree.leavesAll [Tree.node .arguments first more] =
        first.leaves ++ Tree.leavesAll more := by
      simp [Tree.leaves, Tree.leavesAll]
    refine call_spelling [.node .arguments first more] hf ho hc h hx ?_ fun z hz => ?_
    · rw [hleaves]
      exact (hfirst y hy).paired.append hpaired
    · rw [hleaves]
      rcases List.mem_cons.mp hz with rfl | hz
      · exact ⟨first.leaves, List.infix_append [] _ _, hfirst _ hy⟩
      · obtain ⟨us, hus, hspelling⟩ := hparts z hz
        exact ⟨us, hus.trans (List.suffix_append _ _).isInfix, hspelling⟩

/-- One case for each rule of expressions, from the children of the node. -/
theorem ruleSpelling_of_children {r : Rule} (h : IsA skips r t)
    (ih : ∀ u ∈ t.children, ∀ r, IsA skips r u → RuleSpelling skips u r) :
    RuleSpelling skips t r := by
  cases r with
  | expression =>
    obtain ⟨inner, hinner, rfl⟩ := isA_expression.mp h
    have hspelling := ih inner (by simp [Tree.children]) _ hinner
    obtain ⟨first, more, -, -, rfl⟩ := (isA_level (k := 0) (by decide)).mp hinner
    exact single_spelling hspelling
  | or => exact isA_level_spelling (k := 0) (by decide) h ih
  | and => exact isA_level_spelling (k := 1) (by decide) h ih
  | equality => exact isA_level_spelling (k := 2) (by decide) h ih
  | comparison => exact isA_level_spelling (k := 3) (by decide) h ih
  | additive => exact isA_level_spelling (k := 4) (by decide) h ih
  | multiplicative => exact isA_level_spelling (k := 5) (by decide) h ih
  | unary =>
    rcases isA_unary.mp h with ⟨sign, operand, hs, hoperand, rfl⟩ | ⟨inner, hinner, rfl⟩
    · exact sign_spelling hs hoperand (ih operand (by simp [Tree.children]) _ hoperand)
    · have hspelling := ih inner (by simp [Tree.children]) _ hinner
      obtain ⟨first, rest, -, rfl⟩ := (isA_iff (by decide)).mp hinner
      exact single_spelling hspelling
  | primary =>
    rcases isA_primary.mp h with ⟨atom, hatom, rfl⟩ | ⟨call, hcall, rfl⟩ |
      ⟨opening, inner, closing, ho, hinner, hc, rfl⟩
    · exact atom_spelling hatom
    · have hspelling := ih call (by simp [Tree.children]) _ hcall
      obtain ⟨first, rest, -, rfl⟩ := (isA_iff (by decide)).mp hcall
      exact single_spelling hspelling
    · exact parenthesized_spelling ho hinner hc (ih inner (by simp [Tree.children]) _ hinner)
  | call => exact isA_call_spelling h ih
  | arguments =>
    intro first more heq
    subst heq
    obtain ⟨_, _, hfirst, -, heq⟩ := (isA_separated (by decide) rfl).mp h
    cases heq
    refine ⟨ih first (by simp [Tree.children]) _ hfirst, ?_⟩
    intro next hnext hisA
    exact ih next (by simp [Tree.children, hnext]) _ hisA
  | _ => trivial

/-- Every tree of an expression spells it, and so do its parts. -/
theorem isA_ruleSpelling {r : Rule} (h : IsA skips r t) : RuleSpelling skips t r := by
  induction t using Tree.children_induction generalizing r with
  | step t ih => exact ruleSpelling_of_children h fun u hu r hisA => ih u hu hisA

/-- The arguments of a call are an expression only if there is one of them. -/
theorem ofTree?_arguments {first : Tree} {more : List Tree} (h : Tail skips [.comma] .expression more)
    (hx : Expr.ofTree? (.node .arguments first more) = some x) : more = [] := by
  cases h with
  | nil => rfl
  | @cons comma next more hcomma _ _ =>
    have hkind : comma.kind = .comma := List.mem_singleton.mp hcomma
    rw [Expr.ofTree?] at hx
    · obtain ⟨left, -, hx⟩ := Option.bind_eq_some_iff.mp hx
      simp [Expr.chain?, binaryOf?, hkind] at hx
    all_goals
      intros
      simp_all

theorem Expr.Reads.spelling (h : x.Reads t) : Spelling (fun _ => True) t.leaves x := by
  have hx := h.meant.ofTree?
  obtain ⟨r, hr, hisA⟩ := h.derived
  have hspelling := isA_ruleSpelling hisA
  cases r with
  | program | statement | declaration | assignment | conditional | alternative | loop
  | callStatement | block | error => cases hr
  | typeClause =>
    obtain ⟨colon, type, hcolon, -, rfl⟩ := isA_typeClause.mp hisA
    simp [Expr.ofTree?, Expr.ofToken?, hcolon] at hx
  | arguments =>
    obtain ⟨first, more, -, hmore, rfl⟩ := (isA_separated (by decide) rfl).mp hisA
    cases ofTree?_arguments hmore hx
    rw [Expr.ofTree?] at hx
    simpa [Tree.leaves, Tree.leavesAll] using (hspelling first [] rfl).1 x hx
  | _ => exact hspelling x hx

end Trees

end ImpC.Surface
