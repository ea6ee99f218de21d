import ImpC.Token.Lexer
import ImpC.Surface
import ImpC.Proofs.Token.Accepted
import ImpC.Proofs.Grammar.Isolation
import ImpC.Proofs.Surface.Steps

/-!
# Names are words

An identifier that the lexer takes is a word. In a tree that follows the grammar all names are
identifiers, so every name of the program that it stands for is a word.
-/
namespace ImpC

open ImpC.C

namespace Lexer

/-- Only words are names. -/
theorem tokenize_ident (l : Lexer) :
    ∀ t ∈ l.tokenize.tokens, t.kind = .ident → isWord t.text = true :=
  fun t ht => tokens_ident l t (List.mem_filter.mp ht).1

/-- All tokens are the next ones, if enough of them are asked for. -/
theorem tokens_eq_advance {l : Lexer} {n : Nat} (h : l.remaining ≤ n) :
    l.tokens = (l.advance n).1 := by
  induction n generalizing l with
  | zero =>
    rw [tokens]
    split
    · rfl
    · rename_i t m hnext
      have := remaining_lt_of_next?_eq_some hnext
      omega
  | succ n ih =>
    rw [tokens, advance]
    split
    · rename_i hnext
      rw [hnext]
    · rename_i t m hnext
      have hlt := remaining_lt_of_next?_eq_some hnext
      have hmore : m.tokens = (m.advance n).1 := ih (by omega)
      simp only [hnext, hmore]

end Lexer

namespace Tree

/-- The token that names something in a node is a word: the function of a call, the target of an
assignment, the variable of a declaration. -/
def NamesWord : Rule → Tree → List Tree → Prop
  | .call, .leaf name, _ | .assignment, .leaf name, _ | .declaration, _, .leaf name :: _ =>
    isWord name.text = true
  | _, _, _ => True

mutual

def Named : Tree → Prop
  | .leaf t => t.kind = .ident → isWord t.text = true
  | .node r first rest => NamesWord r first rest ∧ Named first ∧ NamedAll rest

def NamedAll : List Tree → Prop
  | [] => True
  | t :: ts => Named t ∧ NamedAll ts

end

theorem namedAll_append {s t : List Tree} : NamedAll (s ++ t) ↔ NamedAll s ∧ NamedAll t := by
  induction s with
  | nil => simp [NamedAll]
  | cons a s ih => simp [NamedAll, ih, and_assoc]

theorem namedAll_leaves {ts : List Token} (h : ∀ t ∈ ts, t.kind = .ident → isWord t.text = true) :
    NamedAll (ts.map .leaf) := by
  induction ts with
  | nil => trivial
  | cons t ts ih =>
    rw [List.forall_mem_cons] at h
    exact ⟨h.1, ih h.2⟩

end Tree

namespace Grammar

variable {skips : List Token → Prop}

/-- Where a node takes the text of a token for a name, that token is an identifier. -/
theorem IsA.namesWord {r : Rule} {first : Tree} {rest : List Tree}
    (h : IsA skips r (.node r first rest)) (hfirst : first.Named) (hrest : Tree.NamedAll rest) :
    Tree.NamesWord r first rest := by
  cases r with
  | call =>
    obtain ⟨f, _, _, hf, -, -, heq | ⟨_, -, heq⟩⟩ := isA_call.mp h
    · cases heq
      exact hfirst hf
    · cases heq
      exact hfirst hf
  | assignment =>
    obtain ⟨target, _, _, _, ht, -, -, -, ⟨⟩⟩ := isA_assignment.mp h
    exact hfirst ht
  | declaration =>
    obtain ⟨_, name, _, _, _, -, hn, -, -, -, ⟨⟩⟩ := isA_declaration.mp h
    exact hrest.1 hn
  | _ => simp [Tree.NamesWord]

/-- If the identifiers among the leaves of a derivation are words, all its names are. -/
theorem Derives.named {p : Phrase} {trees : List Tree} (h : Derives skips p trees)
    (hleaves : ∀ t ∈ Tree.leavesAll trees, t.kind = .ident → isWord t.text = true) :
    Tree.NamedAll trees := by
  induction h with
  | @token _ t h => exact ⟨hleaves t (by simp [Tree.leavesAll, Tree.leaves]), trivial⟩
  | @node r first rest h ih =>
    have hchildren := ih (by simpa [Tree.leavesAll, Tree.leaves] using hleaves)
    exact ⟨⟨IsA.namesWord (.node h) hchildren.1 hchildren.2, hchildren⟩, trivial⟩
  | @skipped t ts h =>
    have hskipped : Tree.NamedAll ((t :: ts).map .leaf) :=
      Tree.namedAll_leaves (by simpa [Tree.leavesAll, Tree.leaves] using hleaves)
    exact ⟨⟨by simp [Tree.NamesWord], hskipped⟩, trivial⟩
  | empty | none => trivial
  | seq _ _ ih ih' | more _ _ ih ih' =>
    simp only [Tree.leavesAll_append, List.forall_mem_append] at hleaves
    exact Tree.namedAll_append.mpr ⟨ih hleaves.1, ih' hleaves.2⟩
  | first _ ih | second _ ih => exact ih hleaves

end Grammar

namespace Surface

mutual

def Expr.Words : Expr → Prop
  | .literal _ _ => True
  | .name _ n => isWord n = true
  | .unary _ _ operand => operand.Words
  | .binary _ _ left right => left.Words ∧ right.Words
  | .call _ function arguments => isWord function = true ∧ Expr.WordsAll arguments

def Expr.WordsAll : List Expr → Prop
  | [] => True
  | e :: es => e.Words ∧ Expr.WordsAll es

end

/-- All names of a statement and of its values are words. -/
def Statement.Words : Statement → Prop := Statement.All (fun n => isWord n.value = true) Expr.Words

def Otherwise.Words : Otherwise → Prop := Otherwise.All (fun n => isWord n.value = true) Expr.Words

def Statement.WordsAll : List Statement → Prop :=
  Statement.AllOf (fun n => isWord n.value = true) Expr.Words

theorem Expr.words_ofToken? {t : Token} {e : Expr} (h : (Tree.leaf t).Named)
    (he : Expr.ofToken? t = some e) : e.Words := by
  unfold Expr.ofToken? at he
  split at he
  case h_6 hkind =>
    cases he
    exact h hkind
  all_goals cases he <;> trivial

mutual

/-- All names in an expression are words. -/
theorem Expr.words_ofTree? (t : Tree) (e : Expr) (h : t.Named) (he : Expr.ofTree? t = some e) :
    e.Words := by
  unfold Expr.ofTree? at he
  split at he
  · exact Expr.words_ofToken? h he
  · exact Expr.words_ofTree? _ e h.2.1 he
  · rename_i sign operand
    obtain ⟨op, -, he⟩ := Option.bind_eq_some_iff.mp he
    dsimp only at he
    split at he
    · cases he
      trivial
    · obtain ⟨operand', hoperand, heq⟩ := Option.bind_eq_some_iff.mp he
      cases heq
      exact Expr.words_ofTree? operand operand' h.2.2.1 hoperand
  · exact Expr.words_ofTree? _ e h.2.2.1 he
  · cases he
    exact ⟨h.1, trivial⟩
  · rename_i function opening first more closing
    obtain ⟨first', hfirst, he⟩ := Option.bind_eq_some_iff.mp he
    obtain ⟨more', hmore, heq⟩ := Option.bind_eq_some_iff.mp he
    cases heq
    have harguments : (Tree.node .arguments first more).Named := h.2.2.2.1
    exact ⟨h.1, Expr.words_ofTree? first first' harguments.2.1 hfirst,
      Expr.words_arguments? more more' harguments.2.2 hmore⟩
  · rename_i first rest _ _ _ _ _
    obtain ⟨left, hleft, he⟩ := Option.bind_eq_some_iff.mp he
    exact Expr.words_chain? rest left e h.2.2 (Expr.words_ofTree? first left h.2.1 hleft) he
termination_by sizeOf t

theorem Expr.words_arguments? (ts : List Tree) (es : List Expr) (h : Tree.NamedAll ts)
    (he : Expr.arguments? ts = some es) : Expr.WordsAll es := by
  unfold Expr.arguments? at he
  split at he
  · cases he
    trivial
  · rename_i argument more
    obtain ⟨e, hargument, he⟩ := Option.bind_eq_some_iff.mp he
    obtain ⟨es', hmore, heq⟩ := Option.bind_eq_some_iff.mp he
    cases heq
    exact ⟨Expr.words_ofTree? argument e h.2.1 hargument,
      Expr.words_arguments? more es' h.2.2 hmore⟩
  · cases he
termination_by sizeOf ts

theorem Expr.words_chain? (ts : List Tree) (left e : Expr) (h : Tree.NamedAll ts)
    (hleft : left.Words) (he : Expr.chain? left ts = some e) : e.Words := by
  unfold Expr.chain? at he
  split at he
  · cases he
    exact hleft
  · rename_i sign operand more
    obtain ⟨op, -, he⟩ := Option.bind_eq_some_iff.mp he
    obtain ⟨right, hright, he⟩ := Option.bind_eq_some_iff.mp he
    have hboth : (Expr.binary (left.location.through right.location) op left right).Words :=
      ⟨hleft, Expr.words_ofTree? operand right h.2.1 hright⟩
    exact Expr.words_chain? more _ e h.2.2 hboth he
  · cases he
termination_by sizeOf ts

end

theorem Statement.words_declaration? {name : Token} {ts : List Tree} {s : Statement}
    (hname : isWord name.text = true) (h : Tree.NamedAll ts)
    (hs : Statement.declaration? name ts = some s) : s.Words := by
  unfold Statement.declaration? at hs
  split at hs
  · cases hs
    exact ⟨hname, nofun⟩
  · cases hs
    exact ⟨hname, nofun⟩
  · obtain ⟨value, hvalue, heq⟩ := Option.bind_eq_some_iff.mp hs
    cases heq
    refine ⟨hname, fun e he => ?_⟩
    cases he
    exact Expr.words_ofTree? _ value h.2.1 hvalue
  · obtain ⟨value, hvalue, heq⟩ := Option.bind_eq_some_iff.mp hs
    cases heq
    refine ⟨hname, fun e he => ?_⟩
    cases he
    exact Expr.words_ofTree? _ value h.2.2.1 hvalue
  · cases hs

mutual

/-- All names in a statement are words. -/
theorem Statement.words_ofTree? (t : Tree) (s : Statement) (h : t.Named)
    (hs : Statement.ofTree? t = some s) : s.Words := by
  unfold Statement.ofTree? at hs
  split at hs
  · exact Statement.words_inner? _ s h.2.1 hs
  · cases hs
termination_by sizeOf t

theorem Statement.words_inner? (t : Tree) (s : Statement) (h : t.Named)
    (hs : Statement.inner? t = some s) : s.Words := by
  unfold Statement.inner? at hs
  split at hs
  · exact Statement.words_declaration? h.1 h.2.2.2 hs
  · obtain ⟨value, hvalue, heq⟩ := Option.bind_eq_some_iff.mp hs
    cases heq
    exact ⟨h.1, Expr.words_ofTree? _ value h.2.2.2.1 hvalue⟩
  · split at hs
    · rename_i hcall
      cases hs
      exact Expr.words_ofTree? _ _ h.2.1 hcall
    · cases hs
  · rename_i rest
    cases hs
    exact Statement.words_body rest h.2.2
  · rename_i condition _ _ rest
    obtain ⟨condition', hcondition, heq⟩ := Option.bind_eq_some_iff.mp hs
    cases heq
    obtain ⟨-, -, -, hc, -, hblock, -⟩ := h
    exact ⟨Expr.words_ofTree? condition condition' hc hcondition,
      Statement.words_body rest hblock.2.2⟩
  · rename_i condition _ _ rest more
    obtain ⟨condition', hcondition, hs⟩ := Option.bind_eq_some_iff.mp hs
    obtain ⟨more', hmore, heq⟩ := Option.bind_eq_some_iff.mp hs
    cases heq
    obtain ⟨-, -, -, hc, -, hblock, hrest⟩ := h
    exact ⟨Expr.words_ofTree? condition condition' hc hcondition,
      Statement.words_body rest hblock.2.2, Statement.words_otherwise? more more' hrest hmore⟩
  · cases hs
termination_by sizeOf t

theorem Statement.words_otherwise? (ts : List Tree) (o : Otherwise) (h : Tree.NamedAll ts)
    (ho : Statement.otherwise? ts = some o) : o.Words := by
  unfold Statement.otherwise? at ho
  split at ho
  · cases ho
    trivial
  · rename_i rest
    cases ho
    obtain ⟨⟨-, -, hblock, -⟩, -⟩ := h
    exact Statement.words_body rest hblock.2.2
  · rename_i condition _ _ rest more
    obtain ⟨condition', hcondition, ho⟩ := Option.bind_eq_some_iff.mp ho
    obtain ⟨more', hmore, heq⟩ := Option.bind_eq_some_iff.mp ho
    cases heq
    obtain ⟨⟨-, -, ⟨-, -, -, hc, -, hblock, hrest⟩, -⟩, -⟩ := h
    exact ⟨Expr.words_ofTree? condition condition' hc hcondition,
      Statement.words_body rest hblock.2.2, Statement.words_otherwise? more more' hrest hmore⟩
  · cases ho
termination_by sizeOf ts

theorem Statement.words_body (ts : List Tree) (h : Tree.NamedAll ts) :
    Statement.WordsAll (Statement.body ts) := by
  cases ts with
  | nil => trivial
  | cons t ts =>
    have hmore := Statement.words_body ts h.2
    rw [Statement.body]
    cases hs : Statement.ofTree? t with
    | none => exact hmore
    | some s => exact ⟨Statement.words_ofTree? t s h.1 hs, hmore⟩
termination_by sizeOf ts

end

/-- If the identifiers that are parsed are words, the program has only words for names. -/
theorem words_of_parse {ts : List Token} {tree : Tree}
    (hts : ∀ t ∈ ts, t.kind = .ident → isWord t.text = true) (h : (parse ts).tree = some tree) :
    Statement.WordsAll (ofTree tree) := by
  obtain ⟨first, more, rfl, hleaves, hall⟩ := Grammar.parse_tree h
  rw [Grammar.ofTree_program]
  refine Statement.words_body _ ?_
  have hderives : Grammar.Derives (fun _ => True) (.oneOrMore (.rule .statement)) (first :: more) :=
    Grammar.derives_statements.mpr ⟨first, more, rfl, hall _ fun _ _ _ => trivial⟩
  refine hderives.named fun t ht => ?_
  rw [hleaves] at ht
  exact hts t (List.takeWhile_subset _ ht)

/-- The program of a parsed text has only words for names. -/
theorem words_ofTree {l : Lexer} {tree : Tree} (h : (parse l.tokenize.tokens).tree = some tree) :
    Statement.WordsAll (ofTree tree) :=
  words_of_parse (Lexer.tokenize_ident l) h

end Surface

end ImpC
