import ImpC.Proofs.Grammar.Acceptance
import ImpC.Surface

/-!
# Writing expressions down

Expressions apart from their places, and the words that write them with parentheses only where the
levels of the operators ask for them. Tokens that say these words are an expression of the grammar,
and the tree of it gives back what was written.
-/
namespace ImpC

/-- One kind of token has many meanings, by its text. -/
def Kind.hasText : Kind → Bool
  | .ident | .int | .float | .str => true
  | _ => false

/-- What a token says, wherever it stands. -/
def Token.word (t : Token) : Kind × Text := (t.kind, if t.kind.hasText then t.text else [])

theorem Token.kind_of_word {t : Token} {kind : Kind} {text : Text} (h : t.word = (kind, text)) :
    t.kind = kind :=
  congrArg Prod.fst h

/-- Of the tokens that have one, the text is part of the word. -/
theorem Token.text_of_word {t : Token} {kind : Kind} {text : Text} (h : t.word = (kind, text))
    (hkind : kind.hasText = true) : t.text = text := by
  have htext := congrArg Prod.snd h
  rw [Token.word, t.kind_of_word h, if_pos hkind] at htext
  exact htext

theorem Grammar.Tail.append {skips : List Token → Prop} {separators : List Kind} {item : Rule}
    {trees more : List Tree}
    (h : Grammar.Tail skips separators item trees) (h' : Grammar.Tail skips separators item more) :
    Grammar.Tail skips separators item (trees ++ more) := by
  induction h with
  | nil => exact h'
  | cons ht hnext _ ih => exact .cons ht hnext ih

def nowhere : Location := (⟨[], []⟩ : Source).start

namespace Surface

open ImpC.Grammar ImpC.Parser

/-- An expression apart from its places. -/
inductive Term where
  | int (value : Int32)
  | float (spelling : Text)
  | bool (value : Bool)
  | str (spelling : Text)
  | name (name : Text)
  | unary (op : UnaryOp) (operand : Term)
  | binary (op : BinaryOp) (left right : Term)
  | call (function : Text) (arguments : List Term)

/-- How tightly an operator binds its operands. -/
def tightness : BinaryOp → Nat
  | .or => 0
  | .and => 1
  | .equal | .notEqual => 2
  | .less | .lessOrEqual | .greater | .greaterOrEqual => 3
  | .add | .sub => 4
  | .mul | .div | .mod => 5

namespace Term

/-- All but binary operations hold together more tightly than any operator binds. -/
def tightness : Term → Nat
  | .binary op _ _ => Surface.tightness op
  | _ => 6

def isNatural : Term → Bool
  | .int value => 0 ≤ value.toInt
  | _ => false

/-- Words with parentheses around them, if they need any. -/
def enclosed (needed : Bool) (words : List (Kind × Text)) : List (Kind × Text) :=
  if needed then (.openParen, []) :: (words ++ [(.closeParen, [])]) else words

mutual

/-- An operand stands between parentheses if it is a binary operation that would not hold together
without them. So does an integer after a minus sign, which would become a part of it. -/
def words : Term → List (Kind × Text)
  | .int value =>
    match value.toInt with
    | .ofNat n => [(.int, Text.ofNat n)]
    | .negSucc n => [(.op .minus, []), (.int, Text.ofNat (n + 1))]
  | .float spelling => [(.float, spelling)]
  | .bool value => [(.keyword (if value then .true_ else .false_), [])]
  | .str spelling => [(.str, spelling)]
  | .name word => [(.ident, word)]
  | .unary op operand =>
    (.op op.operator, []) ::
      enclosed (operand.tightness < 6 || (op = .negate && operand.isNatural)) operand.words
  | .binary op left right =>
    enclosed (left.tightness < Surface.tightness op) left.words ++
      (.op op.operator, []) :: enclosed (right.tightness ≤ Surface.tightness op) right.words
  | .call function arguments =>
    (.ident, function) :: (.openParen, []) :: (argumentWords arguments ++ [(.closeParen, [])])

def argumentWords : List Term → List (Kind × Text)
  | [] => []
  | e :: es => e.words ++ moreWords es

/-- The arguments after the first, each behind a comma. -/
def moreWords : List Term → List (Kind × Text)
  | [] => []
  | e :: es => (.comma, []) :: (e.words ++ moreWords es)

end

mutual

/-- The expression as it is written, at no place. -/
def surface : Term → Expr
  | .int value => .literal nowhere (.int (Text.ofInt value.toInt))
  | .float spelling => .literal nowhere (.float spelling)
  | .bool value => .literal nowhere (.bool value)
  | .str spelling => .literal nowhere (.str spelling)
  | .name word => .name nowhere word
  | .unary op operand => .unary nowhere op operand.surface
  | .binary op left right => .binary nowhere op left.surface right.surface
  | .call function arguments => .call nowhere function (surfaces arguments)

def surfaces : List Term → List Expr
  | [] => []
  | e :: es => e.surface :: surfaces es

end

end Term

mutual

def Expr.unplaced : Expr → Expr
  | .literal _ value => .literal nowhere value
  | .name _ word => .name nowhere word
  | .unary _ op operand => .unary nowhere op operand.unplaced
  | .binary _ op left right => .binary nowhere op left.unplaced right.unplaced
  | .call _ function arguments => .call nowhere function (Expr.unplacedAll arguments)

def Expr.unplacedAll : List Expr → List Expr
  | [] => []
  | e :: es => e.unplaced :: Expr.unplacedAll es

end

section Levels

variable {skips : List Token → Prop}

/-- The rule of the operands that hold together at least as tightly as an operator of tightness `k`
binds. -/
def levelRule (k : Nat) : Rule := ruleOf (levels.drop k)

def levelOperators (k : Nat) : List Operator := ((levels[k]?).map Level.operators).getD []

theorem tightness_lt (op : BinaryOp) : tightness op < 6 := by
  cases op <;> decide

theorem operator_mem_level (op : BinaryOp) :
    Kind.op op.operator ∈ (levelOperators (tightness op)).map .op := by
  cases op <;> decide

theorem Term.tightness_le (e : Term) : e.tightness ≤ 6 := by
  cases e with
  | binary op left right => exact Nat.le_of_lt (tightness_lt op)
  | _ => exact Nat.le_refl 6

/-- A level is an operand of the next tighter one, with more of them behind operators. -/
theorem isA_level {k : Nat} (hk : k < 6) {t : Tree} :
    IsA skips (levelRule k) t ↔ ∃ first more, IsA skips (levelRule (k + 1)) first ∧
      Tail skips ((levelOperators k).map .op) (levelRule (k + 1)) more ∧
      t = .node (levelRule k) first more := by
  match k, hk with
  | 0, _ | 1, _ | 2, _ | 3, _ | 4, _ | 5, _ => exact isA_separated (by decide) rfl

/-- A node of a level groups its operands to the left. -/
theorem ofTree?_level {k : Nat} (hk : k < 6) (first : Tree) (more : List Tree) :
    Expr.ofTree? (.node (levelRule k) first more) =
      (Expr.ofTree? first).bind (Expr.chain? · more) := by
  cases more with
  | nil =>
    cases h : Expr.ofTree? first with
    | none => simp [Expr.ofTree?, h]
    | some x => simp [Expr.ofTree?, Expr.chain?, h]
  | cons t more =>
    have hlevel : k = 0 ∨ k = 1 ∨ k = 2 ∨ k = 3 ∨ k = 4 ∨ k = 5 := by omega
    rcases hlevel with rfl | rfl | rfl | rfl | rfl | rfl <;>
      simp [levelRule, levels, ruleOf, Expr.ofTree?, Option.bind_eq_bind]

/-- A chain can be read in two parts, since it is grouped from the left. -/
theorem chain?_append {separators : List Kind} {item : Rule} {trees : List Tree}
    (h : Tail skips separators item trees) (more : List Tree) (left : Expr) :
    Expr.chain? left (trees ++ more) = (Expr.chain? left trees).bind (Expr.chain? · more) := by
  induction h generalizing left with
  | nil => rfl
  | @cons t next trees ht hnext _ ih =>
    rw [List.cons_append, List.cons_append, Expr.chain?, Expr.chain?]
    cases binaryOf? t with
    | none => rfl
    | some op =>
      cases Expr.ofTree? next with
      | none => rfl
      | some right => exact ih _

end Levels

/-- A tree of the rule has these tokens and is this expression. -/
def Builds (r : Rule) (ts : List Token) (e : Term) : Prop :=
  ∃ tree x, IsA (fun _ => False) r tree ∧ tree.leaves = ts ∧ Expr.ofTree? tree = some x ∧
    x.unplaced = e.surface

namespace Builds

variable {k : Nat} {ts us : List Token} {e e' : Term}

/-- What is tight enough for a level is so for all looser ones. -/
theorem level_of_succ (hk : k < 6) (h : Builds (levelRule (k + 1)) ts e) :
    Builds (levelRule k) ts e := by
  obtain ⟨tree, x, htree, hleaves, hx, he⟩ := h
  refine ⟨.node (levelRule k) tree [], x, ?_, ?_, ?_, he⟩
  · exact (isA_level hk).mpr ⟨tree, [], htree, .nil, rfl⟩
  · simpa [Tree.leaves, Tree.leavesAll] using hleaves
  · rw [ofTree?_level hk, hx]
    rfl

/-- What holds together tightly may stand where less is asked for. -/
theorem loosen {j : Nat} (hj : j ≤ k) (hk : k ≤ 6) (h : Builds (levelRule k) ts e) :
    Builds (levelRule j) ts e := by
  induction hj with
  | refl => exact h
  | step hle ih =>
    apply ih (by omega)
    exact level_of_succ (by omega) h

theorem expression (hk : k ≤ 6) (h : Builds (levelRule k) ts e) : Builds .expression ts e := by
  obtain ⟨tree, x, htree, hleaves, hx, he⟩ := loosen (Nat.zero_le k) hk h
  refine ⟨.node .expression tree [], x, isA_expression.mpr ⟨tree, htree, rfl⟩, ?_, ?_, he⟩
  · simpa [Tree.leaves, Tree.leavesAll] using hleaves
  · exact hx

theorem unary_of_primary (h : Builds .primary ts e) : Builds .unary ts e := by
  obtain ⟨tree, x, htree, hleaves, hx, he⟩ := h
  refine ⟨.node .unary tree [], x, isA_unary.mpr (.inr ⟨tree, htree, rfl⟩), ?_, ?_, he⟩
  · simpa [Tree.leaves, Tree.leavesAll] using hleaves
  · exact hx

theorem atom {t : Token} (ht : isLiteral t.kind = true ∨ t.kind = .ident) {x : Expr}
    (hx : Expr.ofToken? t = some x) (he : x.unplaced = e.surface) : Builds .unary [t] e := by
  apply unary_of_primary
  refine ⟨.node .primary (.leaf t) [], x, isA_primary.mpr (.inl ⟨t, ht, rfl⟩), rfl, ?_, he⟩
  exact hx

theorem parenthesized {opening closing : Token} (ho : opening.kind = .openParen)
    (hc : closing.kind = .closeParen) (h : Builds .expression ts e) :
    Builds .unary (opening :: (ts ++ [closing])) e := by
  obtain ⟨tree, x, htree, hleaves, hx, he⟩ := h
  apply unary_of_primary
  refine ⟨.node .primary (.leaf opening) [tree, .leaf closing], x, ?_, ?_, ?_, he⟩
  · exact isA_primary.mpr (.inr (.inr ⟨opening, tree, closing, ho, htree, hc, rfl⟩))
  · simp [Tree.leaves, Tree.leavesAll, hleaves]
  · exact hx

/-- One more operand to the right of what an operator of the same level has grouped already. -/
theorem binary {op : BinaryOp} {sign : Token} (hs : sign.kind = .op op.operator)
    (h : Builds (levelRule (tightness op)) ts e) (h' : Builds (levelRule (tightness op + 1)) us e') :
    Builds (levelRule (tightness op)) (ts ++ sign :: us) (.binary op e e') := by
  have hk := tightness_lt op
  obtain ⟨tree, x, htree, hleaves, hx, he⟩ := h
  obtain ⟨right, y, hright, hleaves', hy, he'⟩ := h'
  obtain ⟨first, more, hfirst, hmore, rfl⟩ := (isA_level hk).mp htree
  have hone : Tail (fun _ => False) ((levelOperators (tightness op)).map .op)
      (levelRule (tightness op + 1)) [.leaf sign, right] :=
    .cons (hs ▸ operator_mem_level op) hright .nil
  have hsign : binaryOf? sign = some op := by
    simp [binaryOf?, hs]
  rw [ofTree?_level hk] at hx
  refine ⟨.node (levelRule (tightness op)) first (more ++ [.leaf sign, right]),
    .binary (x.location.through y.location) op x y, ?_, ?_, ?_, ?_⟩
  · exact (isA_level hk).mpr ⟨first, _, hfirst, hmore.append hone, rfl⟩
  · rw [← hleaves, ← hleaves']
    simp [Tree.leaves, Tree.leavesAll]
  · rw [ofTree?_level hk]
    obtain ⟨left, hleft, hchain⟩ := Option.bind_eq_some_iff.mp hx
    rw [hleft, Option.bind_some, chain?_append hmore, hchain]
    simp [Expr.chain?, hsign, hy]
  · simp [Expr.unplaced, Term.surface, he, he']

end Builds

theorem leaves_of_intToken? {t : Tree} {u : Token} (h : intToken? t = some u) :
    t.leaves = [u] ∧ u.kind = .int := by
  fun_induction intToken? t with
  | case1 t hkind =>
    cases h
    exact ⟨rfl, hkind⟩
  | case2 => cases h
  | case3 r only ih => simpa [Tree.leaves, Tree.leavesAll] using ih h
  | case4 => cases h

/-- A sign before something other than a number is an operator. -/
theorem ofTree?_signed {op : UnaryOp} {sign : Token} {operand : Tree} {x : Expr}
    (hsign : unaryOf? sign = some op) (hint : op = .negate → intToken? operand = none)
    (hx : Expr.ofTree? operand = some x) :
    Expr.ofTree? (.node .unary (.leaf sign) [operand]) =
      some (.unary (sign.location.through operand.location) op x) := by
  rw [Expr.ofTree?, hsign]
  cases op with
  | not => simp [hx]
  | negate => simp [hint rfl, hx]

/-- A minus before a number gives a negative literal. -/
theorem ofTree?_negated {sign t : Token} {operand : Tree} (hsign : unaryOf? sign = some .negate)
    (hint : intToken? operand = some t) :
    Expr.ofTree? (.node .unary (.leaf sign) [operand]) =
      some (.literal (sign.location.through operand.location) (.int ('-' :: t.text))) := by
  rw [Expr.ofTree?, hsign]
  simp [hint]

/-- A sign before an operand, unless it becomes a part of an integer. -/
theorem Builds.signed {op : UnaryOp} {sign : Token} {ts : List Token} {e : Term}
    (hs : sign.kind = .op op.operator) (hint : op = .negate → ∀ t, ts = [t] → t.kind ≠ .int)
    (h : Builds .unary ts e) : Builds .unary (sign :: ts) (.unary op e) := by
  obtain ⟨tree, x, htree, hleaves, hx, he⟩ := h
  have hkind : sign.kind = .op .minus ∨ sign.kind = .op .not := by
    rw [hs]
    cases op with
    | negate => exact .inl rfl
    | not => exact .inr rfl
  refine ⟨.node .unary (.leaf sign) [tree], .unary (sign.location.through tree.location) op x, ?_, ?_,
    ?_, ?_⟩
  · exact isA_unary.mpr (.inl ⟨sign, tree, hkind, htree, rfl⟩)
  · simp [Tree.leaves, Tree.leavesAll, hleaves]
  · have hsign : unaryOf? sign = some op := by
      simp [unaryOf?, hs]
    apply ofTree?_signed hsign _ hx
    intro hop
    cases hfound : intToken? tree with
    | none => rfl
    | some u =>
      obtain ⟨hu, hukind⟩ := leaves_of_intToken? hfound
      exact absurd hukind (hint hop u (hleaves.symm.trans hu))
  · simp [Expr.unplaced, Term.surface, he]

/-- Trees have these tokens and are the arguments of a call after its first one. -/
def BuildsMore (ts : List Token) (es : List Term) : Prop :=
  ∃ trees xs, Tail (fun _ => False) [.comma] .expression trees ∧ Tree.leavesAll trees = ts ∧
    Expr.arguments? trees = some xs ∧ Expr.unplacedAll xs = Term.surfaces es

theorem buildsMore_nil : BuildsMore [] [] := ⟨[], [], .nil, rfl, rfl, rfl⟩

theorem BuildsMore.cons {comma : Token} {ts us : List Token} {e : Term} {es : List Term}
    (hc : comma.kind = .comma) (h : Builds .expression ts e) (hmore : BuildsMore us es) :
    BuildsMore (comma :: (ts ++ us)) (e :: es) := by
  obtain ⟨tree, x, htree, rfl, hx, he⟩ := h
  obtain ⟨trees, xs, htrees, rfl, hxs, hes⟩ := hmore
  refine ⟨.leaf comma :: tree :: trees, x :: xs, .cons (by simp [hc]) htree htrees, ?_, ?_, ?_⟩
  · simp [Tree.leavesAll, Tree.leaves]
  · rw [Expr.arguments?, hx, hxs]
    rfl
  · rw [Expr.unplacedAll, Term.surfaces, he, hes]

section Calls

variable {function opening closing : Token} (hf : function.kind = .ident)
  (ho : opening.kind = .openParen) (hc : closing.kind = .closeParen)

include hf ho hc

theorem Builds.call_nil :
    Builds .unary [function, opening, closing] (.call function.text []) := by
  apply Builds.unary_of_primary
  refine ⟨.node .primary (.node .call (.leaf function) [.leaf opening, .leaf closing]) [],
    .call (function.location.through closing.location) function.text [], ?_, rfl, ?_, rfl⟩
  · exact isA_primary.mpr (.inr (.inl ⟨_, isA_call.mpr
      ⟨function, opening, closing, hf, ho, hc, .inl rfl⟩, rfl⟩))
  · rw [Expr.ofTree?, Expr.ofTree?]

theorem Builds.call_cons {ts us : List Token} {e : Term} {es : List Term}
    (h : Builds .expression ts e) (hmore : BuildsMore us es) :
    Builds .unary (function :: opening :: (ts ++ us ++ [closing]))
      (.call function.text (e :: es)) := by
  obtain ⟨tree, x, htree, rfl, hx, he⟩ := h
  obtain ⟨trees, xs, htrees, rfl, hxs, hes⟩ := hmore
  have harguments : IsA (fun _ => False) .arguments (.node .arguments tree trees) :=
    (isA_separated (by decide) rfl).mpr ⟨tree, trees, htree, htrees, rfl⟩
  apply Builds.unary_of_primary
  refine ⟨.node .primary (.node .call (.leaf function)
      [.leaf opening, .node .arguments tree trees, .leaf closing]) [],
    .call (function.location.through closing.location) function.text (x :: xs), ?_, ?_, ?_, ?_⟩
  · exact isA_primary.mpr (.inr (.inl ⟨_, isA_call.mpr
      ⟨function, opening, closing, hf, ho, hc, .inr ⟨_, harguments, rfl⟩⟩, rfl⟩))
  · simp [Tree.leaves, Tree.leavesAll]
  · rw [Expr.ofTree?, Expr.ofTree?, hx, hxs]
    rfl
  · simp [Expr.unplaced, Expr.unplacedAll, Term.surface, Term.surfaces, he, hes]

end Calls

/-- A minus sign and a magnitude are one literal. -/
theorem builds_negative {sign digits : Token} {value : Int32} {n : Nat}
    (hs : sign.kind = .op .minus) (hd : digits.kind = .int) (htext : digits.text = Text.ofNat (n + 1))
    (hvalue : value.toInt = .negSucc n) : Builds .unary [sign, digits] (.int value) := by
  have hoperand : IsA (fun _ => False) .unary (.node .unary (.node .primary (.leaf digits) []) []) :=
    isA_unary.mpr (.inr ⟨_, isA_primary.mpr (.inl ⟨digits, .inl (by rw [hd]; rfl), rfl⟩), rfl⟩)
  have hsign : unaryOf? sign = some .negate := by
    simp [unaryOf?, hs, UnaryOp.ofOperator?]
  refine ⟨.node .unary (.leaf sign) [.node .unary (.node .primary (.leaf digits) []) []],
    .literal (sign.location.through
      (Tree.node .unary (.node .primary (.leaf digits) []) []).location) (.int ('-' :: digits.text)),
    ?_, rfl, ?_, ?_⟩
  · exact isA_unary.mpr (.inl ⟨sign, _, .inl hs, hoperand, rfl⟩)
  · apply ofTree?_negated hsign
    rw [intToken?, intToken?, intToken?, if_pos hd]
  · rw [Expr.unplaced, Term.surface, hvalue, htext]
    rfl

namespace Term

/-- Only an integer without a sign is written as one integer token. -/
theorem isNatural_of_words {e : Term} (htight : 6 ≤ e.tightness) {text : Text}
    (h : e.words = [(.int, text)]) : e.isNatural = true := by
  cases e with
  | int value =>
    rw [words] at h
    cases hvalue : value.toInt with
    | ofNat n => simp [isNatural, hvalue]
    | negSucc n =>
      rw [hvalue] at h
      cases h
  | binary op left right =>
    have hlt := tightness_lt op
    rw [Term.tightness] at htight
    omega
  | bool value => cases value <;> simp [words] at h
  | _ => simp [words] at h

/-- An integer token alone is not what an operand of a minus sign is written as. -/
theorem ne_int_of_enclosed {e : Term} {needed : Bool}
    (hneeded : needed = false → 6 ≤ e.tightness ∧ e.isNatural = false) {t : Token}
    (ht : [t].map Token.word = enclosed needed e.words) : t.kind ≠ .int := by
  intro hkind
  cases needed with
  | true =>
    rw [enclosed, if_pos rfl] at ht
    simp at ht
  | false =>
    obtain ⟨htight, hnatural⟩ := hneeded rfl
    have hword : e.words = [(.int, t.word.2)] := by
      rw [← hkind]
      exact ht.symm
    rw [isNatural_of_words htight hword] at hnatural
    cases hnatural

/-- Parentheses are enough where they are needed. -/
theorem builds_enclosed {e : Term}
    (h : ∀ ts, ts.map Token.word = e.words → Builds (levelRule e.tightness) ts e) {needed : Bool}
    {k : Nat} (hk : k ≤ 6) (htight : needed = false → k ≤ e.tightness) {ts : List Token}
    (hts : ts.map Token.word = enclosed needed e.words) : Builds (levelRule k) ts e := by
  cases needed with
  | false => exact (h ts hts).loosen (htight rfl) e.tightness_le
  | true =>
    obtain ⟨opening, rest, rfl, ho, hrest⟩ := List.map_eq_cons_iff.mp hts
    obtain ⟨inner, last, rfl, hinner, hlast⟩ := List.map_eq_append_iff.mp hrest
    obtain ⟨closing, rfl, hc⟩ := List.map_eq_singleton_iff.mp hlast
    have hexpression := (h inner hinner).expression e.tightness_le
    have hunary := hexpression.parenthesized (Token.kind_of_word ho) (Token.kind_of_word hc)
    exact Builds.loosen (k := 6) hk (Nat.le_refl 6) hunary

mutual

/-- Tokens that write an expression down are that expression. -/
theorem builds (e : Term) (ts : List Token) (hts : ts.map Token.word = e.words) :
    Builds (levelRule e.tightness) ts e := by
  match e with
  | .int value =>
    rw [words] at hts
    -- a negative number is two tokens, which the tree reads as one literal
    cases hvalue : value.toInt with
    | ofNat n =>
      rw [hvalue] at hts
      obtain ⟨t, rfl, ht⟩ := List.map_eq_singleton_iff.mp hts
      have hkind := Token.kind_of_word ht
      apply Builds.atom (x := .literal t.location (.int t.text))
      · exact .inl (by rw [hkind]; rfl)
      · simp [Expr.ofToken?, hkind]
      · rw [Expr.unplaced, surface, hvalue, Token.text_of_word ht rfl]
        rfl
    | negSucc n =>
      rw [hvalue] at hts
      obtain ⟨sign, rest, rfl, hs, hrest⟩ := List.map_eq_cons_iff.mp hts
      obtain ⟨digits, rfl, hd⟩ := List.map_eq_singleton_iff.mp hrest
      exact builds_negative (Token.kind_of_word hs) (Token.kind_of_word hd)
        (Token.text_of_word hd rfl) hvalue
  | .float spelling =>
    obtain ⟨t, rfl, ht⟩ := List.map_eq_singleton_iff.mp hts
    have hkind := Token.kind_of_word ht
    apply Builds.atom (x := .literal t.location (.float t.text))
    · exact .inl (by rw [hkind]; rfl)
    · simp [Expr.ofToken?, hkind]
    · rw [Expr.unplaced, surface, Token.text_of_word ht rfl]
  | .bool value =>
    obtain ⟨t, rfl, ht⟩ := List.map_eq_singleton_iff.mp hts
    have hkind := Token.kind_of_word ht
    apply Builds.atom (x := .literal t.location (.bool value))
    · exact .inl (by rw [hkind]; cases value <;> rfl)
    · cases value <;> simp [Expr.ofToken?, hkind]
    · rw [Expr.unplaced, surface]
  | .str spelling =>
    obtain ⟨t, rfl, ht⟩ := List.map_eq_singleton_iff.mp hts
    have hkind := Token.kind_of_word ht
    apply Builds.atom (x := .literal t.location (.str t.text))
    · exact .inl (by rw [hkind]; rfl)
    · simp [Expr.ofToken?, hkind]
    · rw [Expr.unplaced, surface, Token.text_of_word ht rfl]
  | .name word =>
    obtain ⟨t, rfl, ht⟩ := List.map_eq_singleton_iff.mp hts
    have hkind := Token.kind_of_word ht
    apply Builds.atom (x := .name t.location t.text)
    · exact .inr hkind
    · simp [Expr.ofToken?, hkind]
    · rw [Expr.unplaced, surface, Token.text_of_word ht rfl]
  | .unary op operand =>
    rw [words] at hts
    obtain ⟨sign, rest, rfl, hs, hrest⟩ := List.map_eq_cons_iff.mp hts
    -- a number behind a minus stands between parentheses, or the two would be one literal
    apply Builds.signed (Token.kind_of_word hs)
    · rintro rfl t rfl
      apply ne_int_of_enclosed ?_ hrest
      intro hneeded
      simpa using hneeded
    · apply builds_enclosed (k := 6) (builds operand) (Nat.le_refl 6) ?_ hrest
      intro hneeded
      simp only [Bool.or_eq_false_iff, decide_eq_false_iff_not, Nat.not_lt] at hneeded
      exact hneeded.1
  | .binary op left right =>
    rw [words] at hts
    obtain ⟨before, rest, rfl, hbefore, hrest⟩ := List.map_eq_append_iff.mp hts
    obtain ⟨sign, after, rfl, hs, hafter⟩ := List.map_eq_cons_iff.mp hrest
    have hlt := tightness_lt op
    -- operations are grouped to the left: only the left operand may be as loose as the operator
    apply Builds.binary (Token.kind_of_word hs)
    · apply builds_enclosed (builds left) (by omega) ?_ hbefore
      intro hneeded
      simpa using hneeded
    · apply builds_enclosed (builds right) (by omega) ?_ hafter
      intro hneeded
      exact Nat.not_le.mp (of_decide_eq_false hneeded)
  | .call function [] =>
    obtain ⟨name, rest, rfl, hn, hrest⟩ := List.map_eq_cons_iff.mp hts
    obtain ⟨opening, rest, rfl, ho, hrest⟩ := List.map_eq_cons_iff.mp hrest
    obtain ⟨closing, rfl, hc⟩ := List.map_eq_singleton_iff.mp hrest
    rw [← Token.text_of_word hn rfl]
    exact Builds.call_nil (Token.kind_of_word hn) (Token.kind_of_word ho) (Token.kind_of_word hc)
  | .call function (e :: es) =>
    rw [words, argumentWords] at hts
    obtain ⟨name, rest, rfl, hn, hrest⟩ := List.map_eq_cons_iff.mp hts
    obtain ⟨opening, rest, rfl, ho, hrest⟩ := List.map_eq_cons_iff.mp hrest
    obtain ⟨arguments, last, rfl, harguments, hlast⟩ := List.map_eq_append_iff.mp hrest
    obtain ⟨closing, rfl, hc⟩ := List.map_eq_singleton_iff.mp hlast
    obtain ⟨first, more, rfl, hfirst, hmore⟩ := List.map_eq_append_iff.mp harguments
    rw [← Token.text_of_word hn rfl]
    exact Builds.call_cons (Token.kind_of_word hn) (Token.kind_of_word ho) (Token.kind_of_word hc)
      ((builds e first hfirst).expression e.tightness_le) (buildsMore es more hmore)

/-- The arguments after the first, each behind its comma. -/
theorem buildsMore (es : List Term) (ts : List Token) (hts : ts.map Token.word = moreWords es) :
    BuildsMore ts es := by
  match es with
  | [] =>
    rw [moreWords, List.map_eq_nil_iff] at hts
    rw [hts]
    exact buildsMore_nil
  | e :: es =>
    rw [moreWords] at hts
    obtain ⟨comma, rest, rfl, hc, hrest⟩ := List.map_eq_cons_iff.mp hts
    obtain ⟨first, more, rfl, hfirst, hmore⟩ := List.map_eq_append_iff.mp hrest
    exact .cons (Token.kind_of_word hc) ((builds e first hfirst).expression e.tightness_le)
      (buildsMore es more hmore)

end

end Term

end Surface

end ImpC
