import ImpC.Proofs.Surface.Written

/-!
# The names in a tree

Where the variables of a program are declared and used, and which declaration a use refers to: the
first one of its name among the statements before it in the innermost list of statements that has
one. A declaration comes after its own initial value. All of this is read off the tree.
-/
namespace ImpC

namespace Tree

def declared? : Tree → Option (Located Text)
  | .node .statement (.node .declaration _ (.leaf name :: _)) [] => some ⟨name.location, name.text⟩
  | _ => none

/-- The first declaration of `x` among statements: the statements before it, and its name. -/
def firstDeclaration? (x : Text) : List Tree → Option (List Tree × Located Text)
  | [] => none
  | t :: ts =>
    match t.declared?.filter (·.value = x) with
    | some name => some ([], name)
    | none => (firstDeclaration? x ts).map fun (before, name) => (t :: before, name)

/-- What a statement declares for the first time after the statements `before` it. -/
def firstDeclared (before : List Tree) (t : Tree) : List (Located Text) :=
  (t.declared?.filter fun name => (firstDeclaration? name.value before).isNone).toList

mutual

/-- The first declarations inside a tree, in order. They are the variables of the program. -/
def entries : Tree → List (Located Text)
  | .leaf _ => []
  | .node .block _ rest => entriesIn [] rest
  | .node _ first rest => first.entries ++ entriesAmong rest

def entriesAmong : List Tree → List (Located Text)
  | [] => []
  | t :: ts => t.entries ++ entriesAmong ts

/-- Those in a list of statements, after the statements `before`. -/
def entriesIn (before : List Tree) : List Tree → List (Located Text)
  | [] => []
  | t :: ts => firstDeclared before t ++ (t.entries ++ entriesIn (before ++ [t]) ts)

end

end Tree

/-- A list of statements around a place: the number of variables declared before it, and its
statements before the one that has the place in it. -/
structure Enclosure where
  earlier : Nat
  before : List Tree

namespace Enclosure

def declaration? (e : Enclosure) (x : Text) : Option (Located Text) :=
  (Tree.firstDeclaration? x e.before).map (·.2)

/-- The number of the variable that is declared there. -/
def index? (e : Enclosure) (x : Text) : Option Nat :=
  (Tree.firstDeclaration? x e.before).map fun found =>
    e.earlier + (Tree.entriesIn [] found.1).length

end Enclosure

/-- A use of a name, and the lists of statements around it, innermost first. -/
structure Occurrence where
  name : Located Text
  around : List Enclosure

namespace Occurrence

def declaration? (o : Occurrence) : Option (Located Text) :=
  o.around.findSome? (·.declaration? o.name.value)

def index? (o : Occurrence) : Option Nat := o.around.findSome? (·.index? o.name.value)

/-- A name has a place in the table if and only if it is declared. -/
theorem isSome_index? (o : Occurrence) : o.index?.isSome = o.declaration?.isSome := by
  obtain ⟨name, around⟩ := o
  rw [index?, declaration?]
  induction around with
  | nil => rfl
  | cons e around ih =>
    rw [List.findSome?_cons, List.findSome?_cons, Enclosure.index?, Enclosure.declaration?]
    cases Tree.firstDeclaration? name.value e.before with
    | some found => rfl
    | none => exact ih

end Occurrence

namespace Tree

mutual

/-- The uses of variables in a tree, in order: targets of assignments and names in expressions. Before
the tree `seen` variables are declared. -/
def occurrences (around : List Enclosure) (seen : Nat) : Tree → List Occurrence
  | .leaf _ => []
  | .node .primary (.leaf t) [] =>
    if t.kind = .ident then [⟨⟨t.location, t.text⟩, around⟩] else []
  | .node .assignment (.leaf t) rest =>
    ⟨⟨t.location, t.text⟩, around⟩ :: occurrencesAmong around seen rest
  | .node .block _ rest => occurrencesIn around seen [] rest
  | .node _ first rest =>
    first.occurrences around seen ++ occurrencesAmong around (seen + first.entries.length) rest

def occurrencesAmong (around : List Enclosure) (seen : Nat) : List Tree → List Occurrence
  | [] => []
  | t :: ts => t.occurrences around seen ++ occurrencesAmong around (seen + t.entries.length) ts

/-- Those in a list of statements, after the statements `before`. -/
def occurrencesIn (outer : List Enclosure) (earlier : Nat) (before : List Tree) :
    List Tree → List Occurrence
  | [] => []
  | t :: ts =>
    t.occurrences (⟨earlier, before⟩ :: outer)
        (earlier + (entriesIn [] before ++ firstDeclared before t).length) ++
      occurrencesIn outer earlier (before ++ [t]) ts

end

theorem firstDeclaration?_concat (x : Text) (ts : List Tree) (t : Tree) :
    firstDeclaration? x (ts ++ [t]) =
      (firstDeclaration? x ts).or ((t.declared?.filter (·.value = x)).map fun name => (ts, name)) := by
  induction ts with
  | nil =>
    rw [List.nil_append, firstDeclaration?, firstDeclaration?]
    cases t.declared?.filter (·.value = x) <;> rfl
  | cons first ts ih =>
    rw [List.cons_append, firstDeclaration?, firstDeclaration?, ih]
    cases first.declared?.filter (·.value = x) with
    | some name => rfl
    | none =>
      cases firstDeclaration? x ts with
      | some found => rfl
      | none => cases t.declared?.filter (·.value = x) <;> rfl

/-- What the first declaration of a name is: the name is not declared before it. -/
theorem firstDeclaration?_eq_some {x : Text} {ts before : List Tree} {name : Located Text}
    (h : firstDeclaration? x ts = some (before, name)) :
    ∃ t rest, ts = before ++ t :: rest ∧ t.declared? = some name ∧ name.value = x ∧
      firstDeclaration? x before = none := by
  induction ts generalizing before with
  | nil => cases h
  | cons first ts ih =>
    rw [firstDeclaration?] at h
    cases hfirst : first.declared?.filter (·.value = x) with
    | some found =>
      rw [hfirst] at h
      cases h
      obtain ⟨hdeclared, hvalue⟩ := Option.filter_eq_some_iff.mp hfirst
      exact ⟨first, ts, rfl, hdeclared, by simpa using hvalue, rfl⟩
    | none =>
      rw [hfirst] at h
      obtain ⟨⟨before', name'⟩, hfound, heq⟩ := Option.map_eq_some_iff.mp h
      cases heq
      obtain ⟨t, rest, rfl, hdeclared, hvalue, hnone⟩ := ih hfound
      refine ⟨t, rest, rfl, hdeclared, hvalue, ?_⟩
      rw [firstDeclaration?, hfirst, hnone]
      rfl

/-- Which declarations are the first of their names depends on the statements before them. -/
theorem entriesIn_append (before ts us : List Tree) :
    entriesIn before (ts ++ us) = entriesIn before ts ++ entriesIn (before ++ ts) us := by
  induction ts generalizing before with
  | nil => simp [entriesIn]
  | cons t ts ih => simp [entriesIn, ih]

theorem entriesIn_concat (before : List Tree) (t : Tree) :
    entriesIn [] (before ++ [t]) = entriesIn [] before ++ (firstDeclared before t ++ t.entries) := by
  rw [entriesIn_append, List.nil_append, entriesIn, entriesIn, List.append_nil]

@[simp] theorem entriesAmong_leaves (ts : List Token) : entriesAmong (ts.map .leaf) = [] := by
  induction ts with
  | nil => rfl
  | cons t ts ih => simpa [entriesAmong, entries] using ih

@[simp] theorem occurrencesAmong_leaves (around : List Enclosure) (seen : Nat) (ts : List Token) :
    occurrencesAmong around seen (ts.map .leaf) = [] := by
  induction ts generalizing seen with
  | nil => rfl
  | cons t ts ih => simpa [occurrencesAmong, occurrences] using ih _

end Tree

/-- What holds of a tree if it holds of its children holds of all trees. -/
@[elab_as_elim]
theorem Tree.children_induction {motive : Tree → Prop}
    (step : ∀ t, (∀ u ∈ t.children, motive u) → motive t) (t : Tree) : motive t := by
  apply step
  intro u hu
  exact children_induction step u
termination_by sizeOf t
decreasing_by
  cases t with
  | leaf t => cases hu
  | node r first rest =>
    rcases List.mem_cons.mp hu with rfl | hu
    · simp only [Tree.node.sizeOf_spec]
      omega
    · have := List.sizeOf_lt_of_mem hu
      simp only [Tree.node.sizeOf_spec]
      omega

/-- Among the variables `all` of a program these are the ones from number `seen` on. -/
def EntriesFrom (all : List (Located Text)) (seen : Nat) (own : List (Located Text)) : Prop :=
  ∃ pre, pre.length = seen ∧ pre ++ own <+: all

section Within

variable {all : List (Located Text)} {seen : Nat} {own more : List (Located Text)}

theorem EntriesFrom.left (h : EntriesFrom all seen (own ++ more)) : EntriesFrom all seen own := by
  obtain ⟨pre, hpre, hall⟩ := h
  refine ⟨pre, hpre, List.IsPrefix.trans ?_ hall⟩
  rw [← List.append_assoc]
  exact List.prefix_append _ _

theorem EntriesFrom.right (h : EntriesFrom all seen (own ++ more)) :
    EntriesFrom all (seen + own.length) more := by
  obtain ⟨pre, hpre, hall⟩ := h
  refine ⟨pre ++ own, by rw [List.length_append, hpre], ?_⟩
  rwa [List.append_assoc]

/-- The variables of the list are where they are counted. -/
def Enclosure.Within (all : List (Located Text)) (e : Enclosure) : Prop :=
  EntriesFrom all e.earlier (Tree.entriesIn [] e.before)

/-- The variable that a name stands for is its first declaration. -/
theorem Enclosure.Within.getElem? {e : Enclosure} (h : e.Within all) {x : Text} {i : Nat}
    (hi : e.index? x = some i) : all[i]? = e.declaration? x := by
  obtain ⟨pre, hpre, rest, hall⟩ := h
  obtain ⟨⟨before, name⟩, hfound, rfl⟩ := Option.map_eq_some_iff.mp hi
  obtain ⟨t, after, hbefore, hdeclared, hvalue, hnone⟩ := Tree.firstDeclaration?_eq_some hfound
  have hown : Tree.firstDeclared before t = [name] := by
    rw [Tree.firstDeclared, hdeclared, Option.filter_some, hvalue, hnone]
    rfl
  have hentries : Tree.entriesIn [] e.before =
      Tree.entriesIn [] before ++ name :: (t.entries ++ Tree.entriesIn (before ++ [t]) after) := by
    rw [hbefore, Tree.entriesIn_append, List.nil_append, Tree.entriesIn, hown]
    rfl
  rw [Enclosure.declaration?, hfound, ← hall, hentries, ← hpre]
  simp

/-- The variable that a use refers to is the first declaration in the innermost list that has one. -/
theorem Occurrence.getElem?_index? {o : Occurrence} (h : ∀ e ∈ o.around, e.Within all) {i : Nat}
    (hi : o.index? = some i) : all[i]? = o.declaration? := by
  obtain ⟨name, around⟩ := o
  rw [index?] at hi
  rw [declaration?]
  induction around with
  | nil => cases hi
  | cons e around ih =>
    rw [List.findSome?_cons] at hi ⊢
    cases hfound : e.index? name.value with
    | some j =>
      rw [hfound] at hi
      cases hi
      have hdeclared := (h e (by simp)).getElem? hfound
      obtain ⟨found, hfirst, -⟩ := Option.map_eq_some_iff.mp hfound
      rw [Enclosure.declaration?, hfirst] at hdeclared ⊢
      exact hdeclared
    | none =>
      rw [hfound] at hi
      have hnone : e.declaration? name.value = none := by
        rw [Enclosure.index?, Option.map_eq_none_iff] at hfound
        rw [Enclosure.declaration?, hfound]
        rfl
      rw [hnone]
      exact ih (fun e' he' => h e' (by simp [he'])) hi

/-- The lists of statements around some uses lie in the program. -/
def OccurWithin (all : List (Located Text)) (os : List Occurrence) : Prop :=
  ∀ o ∈ os, ∀ e ∈ o.around, e.Within all

theorem OccurWithin.append {os os' : List Occurrence} (h : OccurWithin all os)
    (h' : OccurWithin all os') : OccurWithin all (os ++ os') := by
  intro o ho
  rcases List.mem_append.mp ho with ho | ho
  · exact h o ho
  · exact h' o ho

theorem OccurWithin.cons {name : Located Text} {around : List Enclosure} {os : List Occurrence}
    (haround : ∀ e ∈ around, e.Within all) (h : OccurWithin all os) :
    OccurWithin all (⟨name, around⟩ :: os) := by
  intro o ho
  rcases List.mem_cons.mp ho with rfl | ho
  · exact haround
  · exact h o ho

theorem occurWithin_nil : OccurWithin all [] := by
  intro o ho
  cases ho

namespace Tree

mutual

/-- No enclosure of an occurrence goes beyond the program. -/
theorem occurrences_within (t : Tree) (around : List Enclosure) (seen : Nat)
    (haround : ∀ e ∈ around, e.Within all) (h : EntriesFrom all seen t.entries) :
    OccurWithin all (t.occurrences around seen) := by
  unfold occurrences
  split
  · exact occurWithin_nil
  · split
    · exact .cons haround occurWithin_nil
    · exact occurWithin_nil
  · rename_i target rest
    have hrest : EntriesFrom all seen (entriesAmong rest) := by
      simpa [entries] using h
    exact .cons haround (occurrencesAmong_within rest around seen haround hrest)
  · rename_i opening rest
    rw [entries] at h
    exact occurrencesIn_within rest around seen [] haround h
  · rename_i r first rest _ _ hblock
    have hboth : EntriesFrom all seen (first.entries ++ entriesAmong rest) := by
      rwa [entries] at h
      exact fun hr => hblock hr
    exact (occurrences_within first around seen haround hboth.left).append
      (occurrencesAmong_within rest around _ haround hboth.right)
termination_by sizeOf t

theorem occurrencesAmong_within (ts : List Tree) (around : List Enclosure) (seen : Nat)
    (haround : ∀ e ∈ around, e.Within all) (h : EntriesFrom all seen (entriesAmong ts)) :
    OccurWithin all (occurrencesAmong around seen ts) := by
  match ts with
  | [] => exact occurWithin_nil
  | t :: ts =>
    rw [entriesAmong] at h
    rw [occurrencesAmong]
    exact (occurrences_within t around seen haround h.left).append
      (occurrencesAmong_within ts around _ haround h.right)
termination_by sizeOf ts

theorem occurrencesIn_within (ts : List Tree) (outer : List Enclosure) (earlier : Nat)
    (before : List Tree) (houter : ∀ e ∈ outer, e.Within all)
    (h : EntriesFrom all earlier (entriesIn [] (before ++ ts))) :
    OccurWithin all (occurrencesIn outer earlier before ts) := by
  match ts with
  | [] => exact occurWithin_nil
  | t :: ts =>
    have hnext : EntriesFrom all earlier (entriesIn [] ((before ++ [t]) ++ ts)) := by
      rwa [← List.append_cons]
    have hown : EntriesFrom all earlier
        ((entriesIn [] before ++ firstDeclared before t) ++ t.entries) := by
      rw [entriesIn_append, entriesIn_concat, ← List.append_assoc] at hnext
      exact hnext.left
    have haround : ∀ e ∈ ⟨earlier, before⟩ :: outer, e.Within all := by
      intro e he
      rcases List.mem_cons.mp he with rfl | he
      · exact hown.left.left
      · exact houter e he
    rw [occurrencesIn]
    exact (occurrences_within t _ _ haround hown.right).append
      (occurrencesIn_within ts outer earlier (before ++ [t]) houter hnext)
termination_by sizeOf ts

end

end Tree

end Within

namespace Surface

open ImpC.Grammar ImpC.Parser

mutual

/-- The names of variables in an expression, in order. -/
def Expr.names : Expr → List (Located Text)
  | .literal _ _ => []
  | .name place word => [⟨place, word⟩]
  | .unary _ _ operand => operand.names
  | .binary _ _ left right => left.names ++ right.names
  | .call _ _ arguments => Expr.namesAll arguments

def Expr.namesAll : List Expr → List (Located Text)
  | [] => []
  | e :: es => e.names ++ Expr.namesAll es

end

/-- The tree is this expression: it declares nothing, and what it uses are the names in it. -/
structure Meant (t : Tree) (x : Expr) : Prop where
  ofTree? : Expr.ofTree? t = some x
  entries : t.entries = []
  occurrences : ∀ around seen, t.occurrences around seen = x.names.map (⟨·, around⟩)

/-- The trees declare nothing and use these names. -/
structure Uses (ts : List Tree) (names : List (Located Text)) : Prop where
  entries : Tree.entriesAmong ts = []
  occurrences : ∀ around seen, Tree.occurrencesAmong around seen ts = names.map (⟨·, around⟩)

theorem uses_nil : Uses [] [] := ⟨rfl, fun _ _ => rfl⟩

theorem Uses.leaf {ts : List Tree} {names : List (Located Text)} (h : Uses ts names) (t : Token) :
    Uses (.leaf t :: ts) names := by
  constructor
  · simpa [Tree.entriesAmong, Tree.entries] using h.entries
  · intro around seen
    simpa [Tree.occurrencesAmong, Tree.occurrences, Tree.entries] using h.occurrences around seen

theorem Uses.cons {ts : List Tree} {names : List (Located Text)} (h : Uses ts names) {t : Tree}
    {x : Expr} (ht : Meant t x) : Uses (t :: ts) (x.names ++ names) := by
  constructor
  · simp [Tree.entriesAmong, ht.entries, h.entries]
  · intro around seen
    simp [Tree.occurrencesAmong, ht.occurrences, h.occurrences]

section Nodes

variable {skips : List Token → Prop}

theorem binaryOf?_isSome {k : Nat} {t : Token} (ht : t.kind ∈ (levelOperators k).map .op) :
    (binaryOf? t).isSome = true := by
  obtain ⟨o, ho, hkind⟩ := List.mem_map.mp ht
  have hall : ∀ k < 6, ∀ o ∈ levelOperators k, (BinaryOp.ofOperator? o).isSome = true := by decide
  have hk : k < 6 := by
    rcases Nat.lt_or_ge k 6 with hk | hk
    · exact hk
    · rw [levelOperators, List.getElem?_eq_none hk] at ho
      cases ho
  rw [binaryOf?, ← hkind]
  exact hall k hk o ho

/-- Operands behind operators, grouped with what stands to their left. -/
theorem chain_meant {k : Nat} {item : Rule} {more : List Tree}
    (h : Tail skips ((levelOperators k).map .op) item more)
    (hitem : ∀ t ∈ more, IsA skips item t → ∃ x, Meant t x) (left : Expr) :
    ∃ x names, Expr.chain? left more = some x ∧ x.names = left.names ++ names ∧ Uses more names := by
  induction h generalizing left with
  | nil => exact ⟨left, [], rfl, (List.append_nil _).symm, uses_nil⟩
  | @cons t next more ht hnext _ ih =>
    obtain ⟨op, hop⟩ := Option.isSome_iff_exists.mp (binaryOf?_isSome ht)
    obtain ⟨y, hy⟩ := hitem next (by simp) hnext
    obtain ⟨x, names, hx, hnames, huses⟩ :=
      ih (fun u hu => hitem u (by simp [hu])) (.binary (left.location.through y.location) op left y)
    refine ⟨x, y.names ++ names, ?_, ?_, (huses.cons hy).leaf t⟩
    · rw [Expr.chain?, hop, hy.ofTree?]
      exact hx
    · rw [hnames, Expr.names, List.append_assoc]

/-- Every argument is an expression, and between them are commas. -/
theorem arguments_meant {more : List Tree} (h : Tail skips [.comma] .expression more)
    (hitem : ∀ t ∈ more, IsA skips .expression t → ∃ x, Meant t x) :
    ∃ xs, Expr.arguments? more = some xs ∧ Uses more (Expr.namesAll xs) := by
  induction h with
  | nil => exact ⟨[], rfl, uses_nil⟩
  | @cons t next more _ hnext _ ih =>
    obtain ⟨y, hy⟩ := hitem next (by simp) hnext
    obtain ⟨xs, hxs, huses⟩ := ih fun u hu => hitem u (by simp [hu])
    refine ⟨y :: xs, ?_, (huses.cons hy).leaf t⟩
    rw [Expr.arguments?, hy.ofTree?, hxs]
    rfl

/-- A node with one child that is a node itself. -/
theorem Meant.single {r s : Rule} (hr : r ≠ .block) {first : Tree} {rest : List Tree} {x : Expr}
    (h : Meant (.node s first rest) x) :
    Meant (.node r (.node s first rest) []) x := by
  constructor
  · rw [Expr.ofTree?]
    exact h.ofTree?
  · rw [Tree.entries, h.entries]
    · rfl
    · exact hr
  · intro around seen
    rw [Tree.occurrences, h.occurrences]
    · simp [Tree.occurrencesAmong]
    · intro t _ heq
      cases heq
    · intro t _ heq
      cases heq
    · exact hr

/-- Operands of one tightness are grouped from the left. -/
theorem level_meant {k : Nat} (hk : k < 6) {first : Tree} {more : List Tree} {x : Expr}
    (hfirst : Meant first x) (hmore : Tail skips ((levelOperators k).map .op) (levelRule (k + 1)) more)
    (hitem : ∀ t ∈ more, IsA skips (levelRule (k + 1)) t → ∃ x, Meant t x) :
    ∃ y, Meant (.node (levelRule k) first more) y := by
  obtain ⟨y, names, hy, hnames, huses⟩ := chain_meant hmore hitem x
  have hrule : levelRule k ≠ .block ∧ levelRule k ≠ .assignment ∧ levelRule k ≠ .primary := by
    have hall : ∀ k < 6, levelRule k ≠ .block ∧ levelRule k ≠ .assignment ∧
        levelRule k ≠ .primary := by decide
    exact hall k hk
  refine ⟨y, ?_, ?_, ?_⟩
  · rw [ofTree?_level hk, hfirst.ofTree?]
    exact hy
  · rw [Tree.entries, hfirst.entries, huses.entries]
    · rfl
    · exact hrule.1
  · intro around seen
    rw [Tree.occurrences, hfirst.occurrences, huses.occurrences, hnames, List.map_append]
    · intro t hr
      exact absurd hr hrule.2.2
    · intro t hr
      exact absurd hr hrule.2.1
    · exact hrule.1

theorem atom_meant {t : Token} (ht : isLiteral t.kind = true ∨ t.kind = .ident) :
    ∃ x, Meant (.node .primary (.leaf t) []) x := by
  have hatom : ∃ x, Expr.ofToken? t = some x ∧
      x.names = if t.kind = .ident then [⟨t.location, t.text⟩] else [] := by
    cases ht with
    | inr hident => exact ⟨.name t.location t.text, by simp [Expr.ofToken?, hident], by
        simp [Expr.names, hident]⟩
    | inl hliteral =>
      rw [← mem_literals] at hliteral
      simp only [List.mem_cons, List.not_mem_nil, or_false] at hliteral
      rcases hliteral with hkind | hkind | hkind | hkind | hkind <;>
        exact ⟨_, by simp only [Expr.ofToken?, hkind]; rfl, by simp [Expr.names, hkind]⟩
  obtain ⟨x, hx, hnames⟩ := hatom
  refine ⟨x, ?_, rfl, ?_⟩
  · rw [Expr.ofTree?, Expr.ofTree?]
    exact hx
  · intro around seen
    rw [Tree.occurrences, hnames]
    by_cases hident : t.kind = .ident
    · simp [hident]
    · simp [hident]

theorem ofTree?_of_intToken? {t : Tree} {u : Token} (h : intToken? t = some u) :
    Expr.ofTree? t = some (.literal u.location (.int u.text)) := by
  fun_induction intToken? t with
  | case1 t hkind =>
    cases h
    simp [Expr.ofTree?, Expr.ofToken?, hkind]
  | case2 => cases h
  | case3 r only ih =>
    rw [Expr.ofTree?]
    exact ih h
  | case4 => cases h

/-- A minus before a number is a part of the number. -/
theorem sign_meant {sign : Token} (hs : sign.kind = .op .minus ∨ sign.kind = .op .not)
    {operand : Tree} {x : Expr} (h : Meant operand x) :
    ∃ y, Meant (.node .unary (.leaf sign) [operand]) y := by
  have hentries : (Tree.node .unary (.leaf sign) [operand]).entries = [] := by
    simp [Tree.entries, Tree.entriesAmong, h.entries]
  have hoccurrences : ∀ around seen, (Tree.node .unary (.leaf sign) [operand]).occurrences around seen =
      x.names.map (⟨·, around⟩) := by
    intro around seen
    simp [Tree.occurrences, Tree.occurrencesAmong, h.occurrences]
  obtain ⟨op, hop⟩ : ∃ op, unaryOf? sign = some op := by
    cases hs with
    | inl hs => exact ⟨.negate, by simp [unaryOf?, hs, UnaryOp.ofOperator?]⟩
    | inr hs => exact ⟨.not, by simp [unaryOf?, hs, UnaryOp.ofOperator?]⟩
  have hplain : (op = .negate → intToken? operand = none) →
      Meant (.node .unary (.leaf sign) [operand])
        (.unary (sign.location.through operand.location) op x) := by
    intro hint
    exact ⟨ofTree?_signed hop hint h.ofTree?, hentries, hoccurrences⟩
  cases hint : intToken? operand with
  | none => exact ⟨_, hplain fun _ => hint⟩
  | some t =>
    cases op with
    | not =>
      refine ⟨_, hplain ?_⟩
      intro hnegate
      cases hnegate
    | negate =>
      -- the sign is a part of the literal, and a literal has no names
      have hx : x.names = [] := by
        have heq := h.ofTree?.symm.trans (ofTree?_of_intToken? hint)
        cases heq
        rfl
      refine ⟨_, ofTree?_negated hop hint, hentries, ?_⟩
      intro around seen
      rw [hoccurrences, hx]
      rfl

theorem parenthesized_meant (opening closing : Token) {inner : Tree} {x : Expr} (h : Meant inner x) :
    Meant (.node .primary (.leaf opening) [inner, .leaf closing]) x := by
  constructor
  · rw [Expr.ofTree?]
    exact h.ofTree?
  · simp [Tree.entries, Tree.entriesAmong, h.entries]
  · intro around seen
    simp [Tree.occurrences, Tree.occurrencesAmong, h.occurrences]

/-- What a derivation of a rule of expressions is. The arguments of a call are no expression, but
have expressions in them. -/
def ExpressionMeant (skips : List Token → Prop) (t : Tree) : Rule → Prop
  | .expression | .or | .and | .equality | .comparison | .additive | .multiplicative | .unary
  | .primary => ∃ x, Meant t x
  | .call => ∃ place function arguments, Meant t (.call place function arguments)
  | .arguments => ∀ first more, t = .node .arguments first more →
    (∃ x, Meant first x) ∧ ∀ next ∈ more, IsA skips .expression next → ∃ x, Meant next x
  | _ => True

theorem call_meant {t : Tree} (h : IsA skips .call t)
    (ih : ∀ u ∈ t.children, ∀ r, IsA skips r u → ExpressionMeant skips u r) :
    ∃ place function arguments, Meant t (.call place function arguments) := by
  obtain ⟨function, opening, closing, -, -, -, rfl | ⟨arguments, harguments, rfl⟩⟩ := isA_call.mp h
  · refine ⟨function.location.through closing.location, function.text, [], ?_, rfl, ?_⟩
    · rw [Expr.ofTree?]
    · intro around seen
      simp [Tree.occurrences, Tree.occurrencesAmong, Expr.names, Expr.namesAll]
  · obtain ⟨first, more, -, hmore, rfl⟩ := (isA_separated (by decide) rfl).mp harguments
    obtain ⟨⟨x, hx⟩, hrest⟩ := ih _ (by simp [Tree.children]) .arguments harguments first more rfl
    obtain ⟨xs, hxs, huses⟩ := arguments_meant hmore hrest
    refine ⟨function.location.through closing.location, function.text, x :: xs, ?_, ?_, ?_⟩
    · rw [Expr.ofTree?, hx.ofTree?, hxs]
      rfl
    · simp [Tree.entries, Tree.entriesAmong, hx.entries, huses.entries]
    · intro around seen
      simp [Tree.occurrences, Tree.occurrencesAmong, Tree.entries, Expr.names, Expr.namesAll,
        hx.occurrences, huses.occurrences]

theorem ExpressionMeant.level {k : Nat} (hk : k ≤ 6) {t : Tree}
    (h : ExpressionMeant skips t (levelRule k)) : ∃ x, Meant t x := by
  match k, hk with
  | 0, _ | 1, _ | 2, _ | 3, _ | 4, _ | 5, _ | 6, _ => exact h

theorem isA_level_meant {k : Nat} (hk : k < 6) {t : Tree} (h : IsA skips (levelRule k) t)
    (ih : ∀ u ∈ t.children, ∀ r, IsA skips r u → ExpressionMeant skips u r) : ∃ x, Meant t x := by
  obtain ⟨first, more, hfirst, hmore, rfl⟩ := (isA_level hk).mp h
  obtain ⟨x, hx⟩ := (ih first (by simp [Tree.children]) _ hfirst).level hk
  apply Surface.level_meant hk hx hmore
  intro u hu hisA
  exact (ih u (by simp [Tree.children, hu]) _ hisA).level hk

/-- One case for each rule of expressions, from the children of the node. -/
theorem expressionMeant_of_children {r : Rule} {t : Tree} (h : IsA skips r t)
    (ih : ∀ u ∈ t.children, ∀ r, IsA skips r u → ExpressionMeant skips u r) :
    ExpressionMeant skips t r := by
  cases r with
  | expression =>
    obtain ⟨inner, hinner, rfl⟩ := isA_expression.mp h
    obtain ⟨x, hx⟩ := ih inner (by simp [Tree.children]) _ hinner
    obtain ⟨first, more, -, -, rfl⟩ := (isA_level (k := 0) (by decide)).mp hinner
    exact ⟨x, hx.single (by decide)⟩
  | or => exact isA_level_meant (k := 0) (by decide) h ih
  | and => exact isA_level_meant (k := 1) (by decide) h ih
  | equality => exact isA_level_meant (k := 2) (by decide) h ih
  | comparison => exact isA_level_meant (k := 3) (by decide) h ih
  | additive => exact isA_level_meant (k := 4) (by decide) h ih
  | multiplicative => exact isA_level_meant (k := 5) (by decide) h ih
  | unary =>
    rcases isA_unary.mp h with ⟨sign, operand, hs, hoperand, rfl⟩ | ⟨inner, hinner, rfl⟩
    · obtain ⟨x, hx⟩ := ih operand (by simp [Tree.children]) _ hoperand
      exact sign_meant hs hx
    · obtain ⟨x, hx⟩ := ih inner (by simp [Tree.children]) _ hinner
      obtain ⟨first, rest, -, rfl⟩ := (isA_iff (by decide)).mp hinner
      exact ⟨x, hx.single (by decide)⟩
  | primary =>
    rcases isA_primary.mp h with ⟨atom, hatom, rfl⟩ | ⟨call, hcall, rfl⟩ |
      ⟨opening, inner, closing, -, hinner, -, rfl⟩
    · exact atom_meant hatom
    · obtain ⟨place, function, arguments, hx⟩ := ih call (by simp [Tree.children]) _ hcall
      obtain ⟨first, rest, -, rfl⟩ := (isA_iff (by decide)).mp hcall
      exact ⟨_, hx.single (by decide)⟩
    · obtain ⟨x, hx⟩ := ih inner (by simp [Tree.children]) _ hinner
      exact ⟨x, parenthesized_meant opening closing hx⟩
  | call => exact call_meant h ih
  | arguments =>
    intro first more heq
    subst heq
    obtain ⟨_, _, hfirst, -, heq⟩ := (isA_separated (by decide) rfl).mp h
    cases heq
    refine ⟨ih first (by simp [Tree.children]) _ hfirst, ?_⟩
    intro next hnext hisA
    exact ih next (by simp [Tree.children, hnext]) _ hisA
  | _ => trivial

/-- Every tree of the grammar that is to be an expression is one. -/
theorem isA_expressionMeant {r : Rule} {t : Tree} (h : IsA skips r t) : ExpressionMeant skips t r := by
  induction t using Tree.children_induction generalizing r with
  | step t ih => exact expressionMeant_of_children h fun u hu r hisA => ih u hu hisA

/-- Every derivation of an expression is one. -/
theorem isA_meant {t : Tree} (h : IsA skips .expression t) : ∃ x, Meant t x :=
  isA_expressionMeant h

end Nodes

end Surface

end ImpC
