import ImpC.Proofs.Program.Correspondence

/-!
# Integers as they are written

An integer token, with the minus sign directly before it if there is one, is a numeral. The numerals
of a tree are the integers of the program as written that it is read as, in the same order. Here the
grammar is needed, by which an integer token stands only where an operand does.
-/
namespace ImpC

structure Numeral where
  sign : Option Token
  digits : Token

namespace Numeral

/-- The numeral behind a sign, if there is one. -/
def under (n : Numeral) : Option Token → Numeral
  | some sign => ⟨some sign, n.digits⟩
  | none => n

def location (n : Numeral) : Location :=
  match n.sign with
  | some sign => sign.location.through n.digits.location
  | none => n.digits.location

def spelling (n : Numeral) : Text :=
  match n.sign with
  | some _ => '-' :: n.digits.text
  | none => n.digits.text

def written (n : Numeral) : Located Text := ⟨n.location, n.spelling⟩

end Numeral

namespace Tree

/-- The sign of a node that is a minus sign before a single token. -/
def negation? : Rule → Tree → List Tree → Option Token
  | .unary, .leaf sign, rest =>
    if sign.kind = .op .minus ∧ (leavesAll rest).length = 1 then some sign else none
  | _, _, _ => none

mutual

/-- The numerals of a tree, in order. Skipped tokens are none. -/
def numerals : Tree → List Numeral
  | .leaf t => if t.kind = .int then [⟨none, t⟩] else []
  | .node .error _ _ => []
  | .node r first rest =>
    (first.numerals ++ numeralsAll rest).map (·.under (negation? r first rest))

def numeralsAll : List Tree → List Numeral
  | [] => []
  | t :: ts => t.numerals ++ numeralsAll ts

end

mutual

/-- The tokens of a tree that are not skipped, in order. -/
def kept : Tree → List Token
  | .leaf t => [t]
  | .node .error _ _ => []
  | .node _ first rest => first.kept ++ keptAll rest

def keptAll : List Tree → List Token
  | [] => []
  | t :: ts => t.kept ++ keptAll ts

end

theorem numerals_rule {r : Rule} (hr : r ≠ .error) (first : Tree) (rest : List Tree) :
    (Tree.node r first rest).numerals =
      (first.numerals ++ numeralsAll rest).map (·.under (negation? r first rest)) := by
  cases r with
  | error => exact absurd rfl hr
  | _ => rw [numerals]; exact hr

theorem kept_rule {r : Rule} (hr : r ≠ .error) (first : Tree) (rest : List Tree) :
    (Tree.node r first rest).kept = first.kept ++ keptAll rest := by
  cases r with
  | error => exact absurd rfl hr
  | _ => rw [kept]; exact hr

/-- A node other than a negated number has the numerals of its parts. -/
theorem numerals_node {r : Rule} (hr : r ≠ .error) {first : Tree} {rest : List Tree}
    (h : negation? r first rest = none) :
    (Tree.node r first rest).numerals = first.numerals ++ numeralsAll rest := by
  rw [numerals_rule hr, h]
  exact (List.map_congr_left fun _ _ => rfl).trans (List.map_id _)

theorem numerals_leaf {t : Token} (h : t.kind ≠ .int) : (Tree.leaf t).numerals = [] := by
  rw [numerals, if_neg h]

theorem numeralsAll_append (ts us : List Tree) :
    numeralsAll (ts ++ us) = numeralsAll ts ++ numeralsAll us := by
  induction ts with
  | nil => rfl
  | cons t ts ih => simp [numeralsAll, ih]

mutual

/-- Every integer token that is not skipped has its numeral. -/
theorem numerals_digits : ∀ t : Tree,
    t.numerals.map (·.digits) = t.kept.filter (·.kind = .int)
  | .leaf t => by
    by_cases h : t.kind = .int
    · simp [numerals, kept, h]
    · simp [numerals, kept, h]
  | .node r first rest => by
    by_cases hr : r = .error
    · rw [hr, numerals, kept]
      rfl
    · have hdigits (sign : Option Token) (n : Numeral) : (n.under sign).digits = n.digits := by
        cases sign <;> rfl
      rw [numerals_rule hr, kept_rule hr, List.map_map, List.filter_append, ← numerals_digits first,
        ← numeralsAll_digits rest, ← List.map_append]
      exact List.map_congr_left fun n _ => hdigits _ n

/-- The digits of the numerals are the integer tokens that are kept, in their order. -/
theorem numeralsAll_digits : ∀ ts : List Tree,
    (numeralsAll ts).map (·.digits) = (keptAll ts).filter (·.kind = .int)
  | [] => rfl
  | t :: ts => by
    rw [numeralsAll, keptAll, List.map_append, List.filter_append, numerals_digits t,
      numeralsAll_digits ts]

end

mutual

/-- The tokens below a node of skipped ones are not kept. -/
theorem kept_subset : ∀ t : Tree, t.kept ⊆ t.leaves
  | .leaf t => List.Subset.refl _
  | .node r first rest => by
    by_cases hr : r = .error
    · rw [hr, kept]
      exact List.nil_subset _
    · rw [kept_rule hr, leaves]
      exact List.append_subset.mpr
        ⟨List.subset_append_of_subset_left _ (kept_subset first),
          List.subset_append_of_subset_right _ (keptAll_subset rest)⟩

theorem keptAll_subset : ∀ ts : List Tree, keptAll ts ⊆ leavesAll ts
  | [] => List.Subset.refl _
  | t :: ts => List.append_subset.mpr
    ⟨List.subset_append_of_subset_left _ (kept_subset t),
      List.subset_append_of_subset_right _ (keptAll_subset ts)⟩

end

/-- None of the trees is an integer token. -/
def NoInts (ts : List Tree) : Prop := ∀ t : Token, .leaf t ∈ ts → t.kind ≠ .int

mutual

/-- An integer token is the only child of an operand, unless it is skipped. -/
def Placed : Tree → Prop
  | .leaf _ => True
  | .node r first rest =>
    (r = .error ∨ (r = .primary ∧ rest = []) ∨ NoInts (first :: rest)) ∧
      Placed first ∧ PlacedAll rest

def PlacedAll : List Tree → Prop
  | [] => True
  | t :: ts => Placed t ∧ PlacedAll ts

end

theorem placedAll_append {s t : List Tree} : PlacedAll (s ++ t) ↔ PlacedAll s ∧ PlacedAll t := by
  induction s with
  | nil => simp [PlacedAll]
  | cons a s ih => simp [PlacedAll, ih, and_assoc]

theorem placedAll_leaves (ts : List Token) : PlacedAll (ts.map .leaf) := by
  induction ts with
  | nil => trivial
  | cons t ts ih => exact ⟨trivial, ih⟩

end Tree

namespace Grammar

variable {skips : List Token → Prop}

def isNoInt (kind : Kind) : Bool := kind ≠ .int

/-- Integer tokens stand in primaries only. -/
theorem production_noInt {r : Rule} (hr : r ≠ .primary) :
    (production r).within isNoInt (fun _ => true) = true := by
  cases r with
  | primary => exact absurd rfl hr
  | _ => decide

/-- If no part of a phrase is an integer token, none of its trees is. -/
theorem Derives.noInts {p : Phrase} {trees : List Tree} (h : Derives skips p trees)
    (hp : p.within isNoInt (fun _ => true) = true) : Tree.NoInts trees := by
  induction h with
  | @token kinds t h =>
    intro u hu
    obtain rfl : u = t := by simpa using hu
    exact of_decide_eq_true (List.all_eq_true.mp hp _ h)
  | node | skipped =>
    intro u hu
    simp at hu
  | empty | none =>
    intro u hu
    cases hu
  | seq _ _ ih ih' =>
    rw [Phrase.within, Bool.and_eq_true] at hp
    intro u hu
    exact (List.mem_append.mp hu).elim (ih hp.1 u) (ih' hp.2 u)
  | first _ ih =>
    rw [Phrase.within, Bool.and_eq_true] at hp
    exact ih hp.1
  | second _ ih =>
    rw [Phrase.within, Bool.and_eq_true] at hp
    exact ih hp.2
  | more _ _ ih ih' =>
    intro u hu
    exact (List.mem_append.mp hu).elim (ih hp u) (ih' hp u)

/-- What the grammar derives has its integers in primaries. -/
theorem Derives.placed {p : Phrase} {trees : List Tree} (h : Derives skips p trees) :
    Tree.PlacedAll trees := by
  induction h with
  | token => exact ⟨trivial, trivial⟩
  | @node r first rest h ih =>
    refine ⟨⟨.inr ?_, ih⟩, trivial⟩
    by_cases hr : r = .primary
    · subst hr
      rcases isA_primary.mp (.node h) with ⟨atom, -, ⟨⟩⟩ | ⟨call, -, ⟨⟩⟩ |
        ⟨opening, inner, closing, hopening, hinner, hclosing, ⟨⟩⟩
      · exact .inl ⟨rfl, rfl⟩
      · exact .inl ⟨rfl, rfl⟩
      · right
        intro u hu
        obtain ⟨_, _, -, rfl⟩ := (isA_iff (by decide)).mp hinner
        simp only [List.mem_cons, Tree.leaf.injEq, reduceCtorEq, List.not_mem_nil, or_false,
          false_or] at hu
        rcases hu with rfl | rfl
        · rw [hopening]
          decide
        · rw [hclosing]
          decide
    · exact .inr (h.noInts (production_noInt hr))
  | @skipped t ts h => exact ⟨⟨.inl rfl, trivial, Tree.placedAll_leaves ts⟩, trivial⟩
  | empty | none => trivial
  | seq _ _ ih ih' | more _ _ ih ih' => exact Tree.placedAll_append.mpr ⟨ih, ih'⟩
  | first _ ih | second _ ih => exact ih

end Grammar

namespace Tree

theorem errorNodes_eq_nil {r : Rule} {first : Tree} {rest : List Tree}
    (h : (Tree.node r first rest).errorNodes = []) :
    r ≠ .error ∧ first.errorNodes = [] ∧ errorNodesAll rest = [] := by
  have hr : r ≠ .error := by
    rintro rfl
    cases h
  rw [errorNodes_node hr, List.append_eq_nil_iff] at h
  exact ⟨hr, h⟩

theorem leavesAll_eq_nil {ts : List Tree} (h : leavesAll ts = []) : ts = [] := by
  cases ts with
  | nil => rfl
  | cons t ts => exact absurd (List.append_eq_nil_iff.mp h).1 t.leaves_ne_nil

/-- A list of trees with one token is one tree. -/
theorem eq_singleton_of_leavesAll {ts : List Tree} (h : (leavesAll ts).length = 1) :
    ∃ t, ts = [t] ∧ t.leaves.length = 1 := by
  cases ts with
  | nil => cases h
  | cons t ts =>
    rw [leavesAll, List.length_append] at h
    have hpos := List.length_pos_iff.mpr t.leaves_ne_nil
    have hnil : leavesAll ts = [] := List.length_eq_zero_iff.mp (by omega)
    rw [leavesAll_eq_nil hnil]
    exact ⟨t, rfl, by omega⟩

theorem negation?_eq_some {r : Rule} {first : Tree} {rest : List Tree} {sign : Token}
    (h : negation? r first rest = some sign) :
    r = .unary ∧ first = .leaf sign ∧ sign.kind = .op .minus ∧
      ∃ operand, rest = [operand] ∧ operand.leaves.length = 1 := by
  unfold negation? at h
  split at h
  · obtain ⟨⟨hkind, hlength⟩, heq⟩ := Option.ite_none_right_eq_some.mp h
    cases heq
    exact ⟨rfl, rfl, hkind, eq_singleton_of_leavesAll hlength⟩
  · cases h

theorem negation?_nil (r : Rule) (only : Tree) : negation? r only [] = none := by
  cases hsign : negation? r only [] with
  | none => rfl
  | some sign =>
    obtain ⟨-, -, -, operand, heq, -⟩ := negation?_eq_some hsign
    cases heq

theorem numeralsAll_leaf {t : Token} {ts : List Tree} (h : NoInts (.leaf t :: ts)) :
    numeralsAll (.leaf t :: ts) = numeralsAll ts := by
  rw [numeralsAll, numerals_leaf (h t List.mem_cons_self), List.nil_append]

theorem NoInts.tail {t : Tree} {ts : List Tree} (h : NoInts (t :: ts)) : NoInts ts :=
  fun u hu => h u (List.mem_cons_of_mem t hu)

end Tree

namespace Surface

open ImpC.Tree

/-- The operand of a minus is a number if it is one token, however deep. -/
theorem intToken?_eq_some {t : Tree} {d : Token} (h : intToken? t = some d) :
    t.leaves = [d] ∧ t.location = d.location ∧ d.kind = .int := by
  fun_induction intToken? t with
  | case1 t hkind =>
    cases h
    exact ⟨rfl, rfl, hkind⟩
  | case2 | case4 => cases h
  | case3 r only ih =>
    obtain ⟨hleaves, hlocation, hkind⟩ := ih h
    refine ⟨?_, hlocation, hkind⟩
    rw [leaves, hleaves]
    rfl

/-- A tree of one token is a numeral if the token is an integer. -/
theorem numerals_of_single : ∀ {t : Tree}, t.errorNodes = [] → t.leaves.length = 1 →
    t.numerals = (intToken? t).toList.map (⟨none, ·⟩)
  | .leaf t, _, _ => by
    rw [numerals, intToken?]
    split <;> rfl
  | .node r first rest, he, hlength => by
    obtain ⟨hr, hfirst, -⟩ := errorNodes_eq_nil he
    rw [leaves, List.length_append] at hlength
    have hpos := List.length_pos_iff.mpr first.leaves_ne_nil
    have hnil : leavesAll rest = [] := List.length_eq_zero_iff.mp (by omega)
    rw [leavesAll_eq_nil hnil, numerals_node hr (negation?_nil r first), numeralsAll,
      List.append_nil, intToken?, numerals_of_single hfirst (by omega)]

section Unary

variable {sign : Token} {operand : Tree}

/-- A minus and the digits behind it are one numeral. -/
theorem numerals_negative {digits : Token} (hsign : sign.kind = .op .minus)
    (he : operand.errorNodes = []) (h : intToken? operand = some digits) :
    (Tree.node .unary (.leaf sign) [operand]).numerals = [⟨some sign, digits⟩] := by
  obtain ⟨hleaves, -, -⟩ := intToken?_eq_some h
  have hlength : operand.leaves.length = 1 := by rw [hleaves]; rfl
  have hnegation : negation? .unary (.leaf sign) [operand] = some sign := by
    simp [negation?, leavesAll, hsign, hlength]
  have hnone : (Tree.leaf sign).numerals = [] := numerals_leaf (by simp [hsign])
  rw [numerals_rule (by simp), hnegation, hnone, numeralsAll, numeralsAll, List.append_nil,
    List.nil_append, numerals_of_single he hlength, h]
  rfl

/-- A sign that is no minus sign of an integer has no part in a numeral. -/
theorem numerals_signed {op : UnaryOp} (hsign : sign.kind = .op op.operator)
    (he : operand.errorNodes = []) (h : op = .negate → intToken? operand = none) :
    (Tree.node .unary (.leaf sign) [operand]).numerals = operand.numerals := by
  have hnone : (Tree.leaf sign).numerals = [] := numerals_leaf (by simp [hsign])
  cases hnegation : negation? .unary (.leaf sign) [operand] with
  | none =>
    rw [numerals_node (by simp) hnegation, hnone, numeralsAll, numeralsAll, List.append_nil,
      List.nil_append]
  | some minus =>
    obtain ⟨-, heq, hminus, _, hoperand, hlength⟩ := negation?_eq_some hnegation
    cases heq
    cases hoperand
    have hop : op = .negate := by
      rw [hsign] at hminus
      cases op with
      | negate => rfl
      | not => cases hminus
    have hempty : operand.numerals = [] := by rw [numerals_of_single he hlength, h hop]; rfl
    rw [numerals_rule (by simp), hnone, numeralsAll, numeralsAll, hempty]
    rfl

end Unary

mutual

/-- The integers of an expression by their spellings, in order. -/
def Expr.integers : Expr → List (Located Text)
  | .literal location (.int spelling) => [⟨location, spelling⟩]
  | .literal _ _ | .name _ _ => []
  | .unary _ _ operand => operand.integers
  | .binary _ _ left right => left.integers ++ right.integers
  | .call _ _ arguments => Expr.integersAll arguments

def Expr.integersAll : List Expr → List (Located Text)
  | [] => []
  | e :: es => e.integers ++ Expr.integersAll es

end

def Step.integers (steps : List Step) : List (Located Text) :=
  (steps.filterMap Step.value?).flatMap Expr.integers

def Statement.integers (s : Statement) : List (Located Text) := Step.integers s.steps

def Otherwise.integers (o : Otherwise) : List (Located Text) := Step.integers o.steps

def Statement.integersAll (ss : List Statement) : List (Located Text) :=
  Step.integers (Statement.stepsAll ss)

section Integers

theorem Step.integers_append (steps more : List Step) :
    Step.integers (steps ++ more) = Step.integers steps ++ Step.integers more := by
  simp [Step.integers]

theorem Step.integers_single (s : Step) :
    Step.integers [s] = s.value?.toList.flatMap Expr.integers := by
  cases h : s.value? <;> simp [Step.integers, h]

/-- A block with its condition, and what follows it. -/
theorem Step.integers_block (opening : Opening Expr) (steps more : List Step) :
    Step.integers (.enter opening :: (steps ++ more)) =
      opening.condition?.toList.flatMap Expr.integers ++
        (Step.integers steps ++ Step.integers more) := by
  rw [← Step.integers_append, ← List.singleton_append, Step.integers_append, Step.integers_single]
  rfl

variable (condition : Expr) (body : List Statement) (rest : Otherwise)

theorem Statement.integers_conditional : (Statement.conditional condition body rest).integers =
    condition.integers ++ (Statement.integersAll body ++ rest.integers) := by
  rw [Statement.integers, Statement.steps, Step.integers_block, Opening.condition?,
    Option.toList_some, List.flatMap_singleton]
  rfl

theorem Statement.integers_loop : (Statement.loop condition body).integers =
    condition.integers ++ Statement.integersAll body := by
  have hleave : Step.integers [.leave] = [] := rfl
  rw [Statement.integers, Statement.steps, Step.integers_block, Opening.condition?,
    Option.toList_some, List.flatMap_singleton, hleave, List.append_nil]
  rfl

theorem Statement.integers_block :
    (Statement.block body).integers = Statement.integersAll body := by
  have hleave : Step.integers [.leave] = [] := rfl
  rw [Statement.integers, Statement.steps, Step.integers_block, hleave, List.append_nil]
  rfl

theorem Otherwise.integers_block :
    (Otherwise.block body).integers = Statement.integersAll body := by
  have hleave : Step.integers [.leave] = [] := rfl
  rw [Otherwise.integers, Otherwise.steps, Step.integers_block, hleave, List.append_nil]
  rfl

theorem Otherwise.integers_conditional : (Otherwise.conditional condition body rest).integers =
    condition.integers ++ (Statement.integersAll body ++ rest.integers) := by
  rw [Otherwise.integers, Otherwise.steps, Step.integers_block, Opening.condition?,
    Option.toList_some, List.flatMap_singleton]
  rfl

/-- A statement with no block has the integers of its value. -/
theorem Statement.integers_single {s : Statement} {step : Step} {x : Expr} (hs : s.steps = [step])
    (hx : step.value? = some x) : s.integers = x.integers := by
  rw [Statement.integers, hs, Step.integers_single, hx, Option.toList_some, List.flatMap_singleton]

theorem Statement.integersAll_cons (s : Statement) (ss : List Statement) :
    Statement.integersAll (s :: ss) = s.integers ++ Statement.integersAll ss := by
  rw [Statement.integersAll, Statement.stepsAll, Step.integers_append]
  rfl

end Integers

theorem Expr.integers_ofToken? {t : Token} {x : Expr} (h : Expr.ofToken? t = some x) :
    x.integers = (Tree.leaf t).numerals.map Numeral.written := by
  unfold Expr.ofToken? at h
  rw [numerals]
  split at h
  case h_7 => cases h
  all_goals
    rename_i hkind
    cases h
    rw [hkind]
    rfl

/-- A tree without an integer among its own tokens. -/
theorem noInts_of_placed {r : Rule} {first : Tree} {rest : List Tree}
    (h : (Tree.node r first rest).Placed) (hr : r ≠ .error) (hrest : r = .primary → rest ≠ []) :
    NoInts (first :: rest) := by
  rcases h.1 with herror | ⟨hprimary, hnil⟩ | hnone
  · exact absurd herror hr
  · exact absurd hnil (hrest hprimary)
  · exact hnone

mutual

/-- The integers of an expression are the numerals of its tree, in their order. -/
theorem Expr.integers_ofTree? (t : Tree) (x : Expr) (h : Expr.ofTree? t = some x) (hp : t.Placed)
    (he : t.errorNodes = []) : x.integers = t.numerals.map Numeral.written := by
  unfold Expr.ofTree? at h
  split at h
  · exact Expr.integers_ofToken? h
  · rename_i r only
    obtain ⟨hr, honly, -⟩ := errorNodes_eq_nil he
    rw [numerals_node hr (negation?_nil r only), numeralsAll, List.append_nil]
    exact Expr.integers_ofTree? only x h hp.2.1 honly
  · rename_i sign operand
    obtain ⟨-, -, hrest⟩ := errorNodes_eq_nil he
    have hoperand : operand.errorNodes = [] := (List.append_eq_nil_iff.mp hrest).1
    obtain ⟨op, hop, h⟩ := Option.bind_eq_some_iff.mp h
    have hsign := unaryOf?_eq_some hop
    -- a minus before a number is a part of it, however deep the number stands
    dsimp only at h
    split at h
    · rename_i digits hdigits
      cases h
      rw [numerals_negative hsign hoperand hdigits, Expr.integers,
        (intToken?_eq_some hdigits).2.1]
      rfl
    · rename_i hplain
      obtain ⟨y, hy, heq⟩ := Option.bind_eq_some_iff.mp h
      cases heq
      have hsigned := numerals_signed hsign hoperand fun hnegate => by
        cases hdigits : intToken? operand with
        | none => rfl
        | some digits => exact absurd hdigits (hplain digits hnegate)
      rw [hsigned, Expr.integers]
      exact Expr.integers_ofTree? operand y hy hp.2.2.1 hoperand
  · rename_i opening inner closing
    obtain ⟨hr, -, hrest⟩ := errorNodes_eq_nil he
    have hnone := noInts_of_placed hp hr (by simp)
    have hinner := Expr.integers_ofTree? inner x h hp.2.2.1 (List.append_eq_nil_iff.mp hrest).1
    rw [numerals_node hr rfl, ← numeralsAll, numeralsAll_leaf hnone, numeralsAll,
      numeralsAll_leaf hnone.tail.tail, numeralsAll, List.append_nil, hinner]
  · rename_i function opening closing
    cases h
    have hnone := noInts_of_placed hp (by simp) (by simp)
    rw [numerals_node (by simp) rfl, ← numeralsAll, numeralsAll_leaf hnone,
      numeralsAll_leaf hnone.tail, numeralsAll_leaf hnone.tail.tail]
    rfl
  · rename_i function opening first more closing
    obtain ⟨y, hy, h⟩ := Option.bind_eq_some_iff.mp h
    obtain ⟨ys, hys, heq⟩ := Option.bind_eq_some_iff.mp h
    cases heq
    have hnone := noInts_of_placed hp (by simp) (by simp)
    obtain ⟨-, -, hrest⟩ := errorNodes_eq_nil he
    have harguments : (Tree.node .arguments first more).errorNodes ++ [] = [] := hrest
    obtain ⟨-, hfirst, hmore⟩ := errorNodes_eq_nil (List.append_eq_nil_iff.mp harguments).1
    have hplaced := hp.2.2.2.1
    rw [numerals_node (by simp) rfl, ← numeralsAll, numeralsAll_leaf hnone,
      numeralsAll_leaf hnone.tail, numeralsAll, numeralsAll_leaf hnone.tail.tail.tail, numeralsAll,
      List.append_nil, numerals_node (by simp) rfl, List.map_append, Expr.integers,
      Expr.integersAll, Expr.integers_ofTree? first y hy hplaced.2.1 hfirst,
      Expr.integers_arguments? more ys hys hplaced.2.2
        (noInts_of_placed hplaced (by simp) (by simp)).tail hmore]
  · rename_i r first rest hnil hunary _ _ _
    obtain ⟨left, hleft, h⟩ := Option.bind_eq_some_iff.mp h
    obtain ⟨hr, hfirst, hrest⟩ := errorNodes_eq_nil he
    -- signed operands were a case of their own
    have hnegation : negation? r first rest = none := by
      cases hsign : negation? r first rest with
      | none => rfl
      | some sign =>
        obtain ⟨rfl, rfl, -, operand, rfl, -⟩ := negation?_eq_some hsign
        exact absurd rfl (hunary sign operand rfl rfl)
    rw [numerals_node hr hnegation, List.map_append,
      Expr.integers_chain? rest left x h hp.2.2 hrest,
      Expr.integers_ofTree? first left hleft hp.2.1 hfirst]
termination_by sizeOf t

theorem Expr.integers_arguments? (ts : List Tree) (xs : List Expr)
    (h : Expr.arguments? ts = some xs) (hp : PlacedAll ts) (hn : NoInts ts)
    (he : errorNodesAll ts = []) :
    Expr.integersAll xs = (numeralsAll ts).map Numeral.written := by
  unfold Expr.arguments? at h
  split at h
  · cases h
    rfl
  · rename_i comma argument more
    obtain ⟨y, hy, h⟩ := Option.bind_eq_some_iff.mp h
    obtain ⟨ys, hys, heq⟩ := Option.bind_eq_some_iff.mp h
    cases heq
    have herrors : argument.errorNodes = [] ∧ errorNodesAll more = [] := List.append_eq_nil_iff.mp he
    have hmore : NoInts more := fun t ht => hn t (by simp [ht])
    rw [numeralsAll, numeralsAll, numerals_leaf (hn comma (by simp)), List.nil_append,
      List.map_append, Expr.integersAll,
      Expr.integers_ofTree? argument y hy hp.2.1 herrors.1,
      Expr.integers_arguments? more ys hys hp.2.2 hmore herrors.2]
  · cases h
termination_by sizeOf ts

theorem Expr.integers_chain? (ts : List Tree) (left x : Expr) (h : Expr.chain? left ts = some x)
    (hp : PlacedAll ts) (he : errorNodesAll ts = []) :
    x.integers = left.integers ++ (numeralsAll ts).map Numeral.written := by
  unfold Expr.chain? at h
  split at h
  · cases h
    simp [numeralsAll]
  · rename_i sign operand more
    obtain ⟨op, hop, h⟩ := Option.bind_eq_some_iff.mp h
    obtain ⟨right, hright, h⟩ := Option.bind_eq_some_iff.mp h
    have herrors : operand.errorNodes = [] ∧ errorNodesAll more = [] := List.append_eq_nil_iff.mp he
    have hsign : sign.kind ≠ .int := by
      rw [binaryOf?_eq_some hop]
      simp
    rw [Expr.integers_chain? more _ x h hp.2.2 herrors.2, Expr.integers,
      Expr.integers_ofTree? operand right hright hp.2.1 herrors.1, numeralsAll, numeralsAll,
      numerals_leaf hsign]
    simp
  · cases h
termination_by sizeOf ts

end

theorem Expr.Reads.integers {x : Expr} {t : Tree} (h : x.Reads t) (hp : t.Placed) :
    x.integers = t.numerals.map Numeral.written := by
  obtain ⟨r, hr, ht⟩ := h.derived
  exact Expr.integers_ofTree? t x h.meant.ofTree? hp
    (ht.errorNodes_flat (by simp [Grammar.isFlat, hr]))

/-- The node of a statement has no numerals but those of its parts. -/
theorem numerals_statement {r : Rule} {first : Tree} {rest : List Tree}
    (hr : r ≠ .error ∧ r ≠ .primary ∧ r ≠ .unary) (hp : (Tree.node r first rest).Placed) :
    (Tree.node r first rest).numerals = numeralsAll (first :: rest) ∧ NoInts (first :: rest) := by
  refine ⟨?_, noInts_of_placed hp hr.1 fun h => absurd h hr.2.1⟩
  refine numerals_node hr.1 ?_
  cases hsign : negation? r first rest with
  | none => rfl
  | some sign => exact absurd (negation?_eq_some hsign).1 hr.2.2

theorem numeralsAll_passed {ts : List Tree} (h : ∀ t ∈ ts, Passed t) (hn : NoInts ts) :
    numeralsAll ts = [] := by
  induction ts with
  | nil => rfl
  | cons t ts ih =>
    rw [List.forall_mem_cons] at h
    have hrest := ih h.2 hn.tail
    cases h.1 with
    | leaf t => rw [numeralsAll_leaf hn, hrest]
    | skipped t us =>
      rw [numeralsAll, hrest]
      rfl

theorem numerals_block {curly : Token} {ts : List Tree}
    (hp : (Tree.node .block (.leaf curly) ts).Placed) :
    (Tree.node .block (.leaf curly) ts).numerals = numeralsAll ts ∧ NoInts ts := by
  obtain ⟨hnumerals, hnone⟩ := numerals_statement (by simp) hp
  exact ⟨hnumerals.trans (numeralsAll_leaf hnone), hnone.tail⟩

/-- A condition between parentheses and a block, after their keyword. -/
theorem numerals_guarded {r : Rule} (hr : r ≠ .error ∧ r ≠ .primary ∧ r ≠ .unary)
    {start opening closing curly : Token} {condition : Tree} {ts more : List Tree}
    (hp : (Tree.node r (.leaf start) (.leaf opening :: condition :: .leaf closing ::
      .node .block (.leaf curly) ts :: more)).Placed) :
    (Tree.node r (.leaf start) (.leaf opening :: condition :: .leaf closing ::
        .node .block (.leaf curly) ts :: more)).numerals =
      condition.numerals ++ (numeralsAll ts ++ numeralsAll more) ∧
      condition.Placed ∧ PlacedAll ts ∧ NoInts ts ∧ PlacedAll more := by
  obtain ⟨hnumerals, hnone⟩ := numerals_statement hr hp
  obtain ⟨-, -, -, hcondition, -, hbody, hmore⟩ := hp
  obtain ⟨hblock, hints⟩ := numerals_block hbody
  refine ⟨?_, hcondition, hbody.2.2, hints, hmore⟩
  rw [hnumerals, numeralsAll_leaf hnone, numeralsAll_leaf hnone.tail, numeralsAll,
    numeralsAll_leaf hnone.tail.tail.tail, numeralsAll, hblock]

theorem declaration_integers {word id stop : Token} {clause value : List Tree} {type : Option Ty}
    {initial : Option Expr} (htype : ReadsType clause type) (hinitial : ReadsInitial value initial)
    (hp : (Tree.node .declaration (.leaf word)
      (.leaf id :: clause ++ value ++ [.leaf stop])).Placed) :
    (Statement.declaration ⟨id.location, id.text⟩ type initial).integers =
      (Tree.node .declaration (.leaf word)
        (.leaf id :: clause ++ value ++ [.leaf stop])).numerals.map Numeral.written := by
  obtain ⟨hnumerals, hnone⟩ := numerals_statement (by simp) hp
  obtain ⟨⟨-, hparts⟩, -⟩ : PlacedAll ((.leaf id :: clause) ++ value) ∧ PlacedAll [.leaf stop] :=
    placedAll_append.mp hp.2.2
  obtain ⟨hclause, hvalue⟩ := placedAll_append.mp hparts
  have hfront : numeralsAll (.leaf id :: clause) = [] := by
    rw [numeralsAll, numerals_leaf (hnone id (by simp)), List.nil_append]
    cases htype with
    | absent => rfl
    | given colon type =>
      obtain ⟨hclause, hnone⟩ := numerals_statement (by simp) hclause.1
      rw [numeralsAll, hclause, numeralsAll_leaf hnone, numeralsAll_leaf hnone.tail]
      rfl
  have hback : numeralsAll [.leaf stop] = [] := by
    rw [numeralsAll, numerals_leaf (hnone stop (by simp))]
    rfl
  have hinteger : (Statement.declaration ⟨id.location, id.text⟩ type initial).integers =
      (numeralsAll value).map Numeral.written := by
    cases hinitial with
    | absent => rfl
    | given sign h =>
      rw [numeralsAll, numerals_leaf (hnone sign (by simp)), List.nil_append, numeralsAll,
        numeralsAll, List.append_nil, Statement.integers_single rfl rfl, h.integers hvalue.2.1]
  rw [hnumerals, numeralsAll_leaf hnone, numeralsAll_append, numeralsAll_append, hfront, hback,
    hinteger, List.nil_append, List.append_nil]

mutual

/-- The integers of a statement are the numerals of its tree, in their order. -/
theorem Statement.integers_reads : ∀ (s : Statement) (t : Tree), s.Reads t → t.Placed →
    s.integers = t.numerals.map Numeral.written
  | .declaration _ _ _, _, ⟨_, _, _, _, _, rfl, rfl, htype, hinitial⟩, hp =>
    declaration_integers htype hinitial hp
  | .assignment _ value, _, ⟨id, sign, tree, stop, rfl, rfl, hvalue⟩, hp => by
    obtain ⟨hnumerals, hnone⟩ := numerals_statement (by simp) hp
    rw [hnumerals, numeralsAll_leaf hnone, numeralsAll_leaf hnone.tail, numeralsAll,
      numeralsAll_leaf hnone.tail.tail.tail, numeralsAll, List.append_nil,
      Statement.integers_single rfl rfl, hvalue.integers hp.2.2.2.1]
  | .conditional condition body rest, _, ⟨_, _, _, _, _, _, _, rfl, hcondition, hbody, hrest⟩,
      hp => by
    obtain ⟨hnumerals, hplaced, hts, hnone, hmore⟩ := numerals_guarded (by simp) hp
    rw [hnumerals, List.map_append, List.map_append, Statement.integers_conditional,
      hcondition.integers hplaced, Statement.integers_readsAll body _ hbody hts hnone,
      Otherwise.integers_reads rest _ hrest hmore]
  | .loop condition body, _, ⟨_, _, _, _, _, _, rfl, hcondition, hbody⟩, hp => by
    obtain ⟨hnumerals, hplaced, hts, hnone, -⟩ := numerals_guarded (by simp) hp
    rw [hnumerals, List.map_append, List.map_append, Statement.integers_loop,
      hcondition.integers hplaced, Statement.integers_readsAll body _ hbody hts hnone]
    simp [numeralsAll]
  | .call location function arguments, _, ⟨tree, _, rfl, hcall⟩, hp => by
    obtain ⟨hnumerals, hnone⟩ := numerals_statement (by simp) hp
    rw [hnumerals, numeralsAll, numeralsAll_leaf hnone.tail, numeralsAll, List.append_nil,
      ← hcall.integers hp.2.1, Statement.integers_single rfl rfl]
  | .block body, _, ⟨_, _, rfl, hbody⟩, hp => by
    obtain ⟨hnumerals, hnone⟩ := numerals_block hp
    rw [hnumerals, Statement.integers_block, Statement.integers_readsAll body _ hbody hp.2.2 hnone]

theorem Otherwise.integers_reads : ∀ (o : Otherwise) (more : List Tree), o.Reads more →
    PlacedAll more → o.integers = (numeralsAll more).map Numeral.written
  | .nothing, _, rfl, _ => rfl
  | .block body, _, ⟨_, _, _, rfl, hbody⟩, hp => by
    obtain ⟨hnumerals, hword⟩ := numerals_statement (by simp) hp.1
    obtain ⟨hblock, hnone⟩ := numerals_block hp.1.2.2.1
    rw [Otherwise.integers_block, Statement.integers_readsAll body _ hbody hp.1.2.2.1.2.2 hnone, ← hblock,
      numeralsAll, hnumerals, numeralsAll_leaf hword]
    simp [numeralsAll]
  | .conditional condition body rest, _, ⟨_, _, _, _, _, _, _, _, rfl, hcondition, hbody, hrest⟩,
      hp => by
    obtain ⟨hnumerals, hword⟩ := numerals_statement (by simp) hp.1
    obtain ⟨hguarded, hplaced, hts, hnone, hmore⟩ := numerals_guarded (by simp) hp.1.2.2.1
    rw [Otherwise.integers_conditional, hcondition.integers hplaced,
      Statement.integers_readsAll body _ hbody hts hnone,
      Otherwise.integers_reads rest _ hrest hmore, ← List.map_append, ← List.map_append, ← hguarded,
      numeralsAll, hnumerals, numeralsAll_leaf hword]
    simp [numeralsAll]

theorem Statement.integers_readsAll : ∀ (ss : List Statement) (ts : List Tree),
    Statement.ReadsAll ts ss → PlacedAll ts → NoInts ts →
    Statement.integersAll ss = (numeralsAll ts).map Numeral.written
  | [], ts, h, _, hn => by
    rw [numeralsAll_passed h hn]
    rfl
  | s :: ss, _, ⟨before, inner, after, rfl, hbefore, _, hs, hss⟩, hp, hn => by
    obtain ⟨-, hstatement, hafter⟩ := placedAll_append.mp hp
    have hnone : NoInts before := fun t ht => hn t (List.mem_append_left _ ht)
    have hrest : NoInts after := fun t ht => hn t (by simp [ht])
    rw [numeralsAll_append, numeralsAll_passed hbefore hnone, numeralsAll,
      (numerals_statement (by simp) hstatement).1, numeralsAll, numeralsAll,
      Statement.integersAll_cons, Statement.integers_reads s inner hs hstatement.2.1,
      Statement.integers_readsAll ss after hss hafter hrest]
    simp

end

end Surface

open ImpC.Grammar

/-- The integers of a program are its numerals. -/
theorem integers_ofTree {tokens : List Token} {tree : Tree} (h : (parse tokens).tree = some tree) :
    Surface.Statement.integersAll (Surface.ofTree tree) = tree.numerals.map Numeral.written := by
  have hreads := Surface.parse_readsAll h
  obtain ⟨first, more, rfl, hd⟩ := parse_derives h
  have hending (t : Token) (ht : Parser.ending? tokens = some t) : t.kind = .eof := by
    simpa using List.find?_some ht
  have hplaced : Tree.PlacedAll (first :: more ++ (Parser.ending? tokens).toList.map .leaf) :=
    Tree.placedAll_append.mpr ⟨hd.placed, Tree.placedAll_leaves _⟩
  have hnone : Tree.NoInts (first :: more ++ (Parser.ending? tokens).toList.map .leaf) := by
    intro t ht
    rcases List.mem_append.mp ht with ht | ht
    · exact hd.noInts rfl t ht
    · obtain ⟨u, hu, heq⟩ := List.mem_map.mp ht
      cases heq
      rw [hending t (by simpa using hu)]
      decide
  rw [Tree.numerals_node (by simp) rfl]
  exact Surface.Statement.integers_readsAll _ _ hreads hplaced hnone

end ImpC
