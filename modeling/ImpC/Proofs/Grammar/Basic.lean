import ImpC.Tree.Program

/-!
# The grammar

The rules of the language as extended regular expressions over kinds of tokens and other rules, the
lists of tokens that they describe, and the trees that derive such lists. Three groups of symbols
have nodes of their own in trees and so are rules: the type of a declaration, the part of a
conditional from `else` on, and the arguments of a call.
-/
namespace ImpC

theorem Tree.leaves_ne_nil (t : Tree) : t.leaves ≠ [] := by
  cases t with
  | leaf t => simp [leaves]
  | node rule first rest => simp [leaves, leaves_ne_nil first]

namespace Grammar

inductive Phrase where
  | oneOf (kinds : List Kind)
  | rule (rule : Rule)
  | empty
  | seq (first second : Phrase)
  | either (first second : Phrase)
  | many (item : Phrase)

namespace Phrase

def token (kind : Kind) : Phrase := .oneOf [kind]

def keyword (word : Keyword) : Phrase := .oneOf [.keyword word]

def all (parts : List Phrase) : Phrase := parts.foldr .seq .empty

def choice (parts : List Phrase) : Phrase := parts.foldr .either (.oneOf [])

def optional (part : Phrase) : Phrase := .either part .empty

def oneOrMore (part : Phrase) : Phrase := .seq part (.many part)

/-- One or more items of a rule with separators of the given kinds between them. -/
def separated (item : Rule) (separators : List Kind) : Phrase :=
  all [.rule item, .many (all [.oneOf separators, .rule item])]

/-- One or more operands of a rule with operators between them. -/
def operands (item : Rule) (operators : List Operator) : Phrase :=
  separated item (operators.map .op)

end Phrase

open Phrase in
/-- What the children of a node of each rule are. No rule describes skipped tokens. -/
def production : Rule → Phrase
  | .program => all [oneOrMore (.rule .statement), token .eof]
  | .statement =>
    choice [.rule .declaration, .rule .assignment, .rule .conditional, .rule .loop,
      .rule .callStatement, .rule .block]
  | .declaration =>
    all [keyword .var, token .ident, optional (.rule .typeClause),
      optional (all [token (.op .assign), .rule .expression]), token .semicolon]
  | .typeClause =>
    all [token .colon,
      .oneOf [.keyword .int, .keyword .float, .keyword .bool, .keyword .string, .ident]]
  | .assignment => all [token .ident, token (.op .assign), .rule .expression, token .semicolon]
  | .conditional =>
    all [keyword .if_, token .openParen, .rule .expression, token .closeParen, .rule .block,
      optional (.rule .alternative)]
  | .alternative => all [keyword .else_, choice [.rule .block, .rule .conditional]]
  | .loop =>
    all [keyword .while_, token .openParen, .rule .expression, token .closeParen, .rule .block]
  | .callStatement => all [.rule .call, token .semicolon]
  | .block => all [token .openCurly, .many (.rule .statement), token .closeCurly]
  | .expression => all [.rule .or]
  | .or => operands .and [.or]
  | .and => operands .equality [.and]
  | .equality => operands .comparison [.equal, .notEqual]
  | .comparison => operands .additive [.less, .lessOrEqual, .greater, .greaterOrEqual]
  | .additive => operands .multiplicative [.plus, .minus]
  | .multiplicative => operands .unary [.times, .divide, .modulo]
  | .unary => choice [all [.oneOf [.op .minus, .op .not], .rule .unary], .rule .primary]
  | .primary =>
    choice [.oneOf [.int, .float, .str, .keyword .true_, .keyword .false_], .rule .call,
      token .ident, all [token .openParen, .rule .expression, token .closeParen]]
  | .call =>
    all [token .ident, token .openParen, optional (.rule .arguments), token .closeParen]
  | .arguments => separated .expression [.comma]
  | .error => .oneOf []

/-- The token lists that a phrase describes. -/
inductive Sentence : Phrase → List Token → Prop
  | token {kinds : List Kind} {t : Token} (h : t.kind ∈ kinds) : Sentence (.oneOf kinds) [t]
  | rule {r : Rule} {ts : List Token} (h : Sentence (production r) ts) : Sentence (.rule r) ts
  | empty : Sentence .empty []
  | seq {a b : Phrase} {ts us : List Token} (h : Sentence a ts) (h' : Sentence b us) :
    Sentence (.seq a b) (ts ++ us)
  | first {a b : Phrase} {ts : List Token} (h : Sentence a ts) : Sentence (.either a b) ts
  | second {a b : Phrase} {ts : List Token} (h : Sentence b ts) : Sentence (.either a b) ts
  | none {a : Phrase} : Sentence (.many a) []
  | more {a : Phrase} {ts us : List Token} (h : Sentence a ts) (h' : Sentence (.many a) us) :
    Sentence (.many a) (ts ++ us)

/-- The lists of trees that stand for a phrase. The children of a node stand for the production of
its rule; in the place of a statement there may also be tokens that `skips` allows to skip. -/
inductive Derives (skips : List Token → Prop) : Phrase → List Tree → Prop
  | token {kinds : List Kind} {t : Token} (h : t.kind ∈ kinds) :
    Derives skips (.oneOf kinds) [.leaf t]
  | node {r : Rule} {first : Tree} {rest : List Tree}
    (h : Derives skips (production r) (first :: rest)) :
    Derives skips (.rule r) [.node r first rest]
  | skipped {t : Token} {ts : List Token} (h : skips (t :: ts)) :
    Derives skips (.rule .statement) [.node .error (.leaf t) (ts.map .leaf)]
  | empty : Derives skips .empty []
  | seq {a b : Phrase} {s t : List Tree} (h : Derives skips a s) (h' : Derives skips b t) :
    Derives skips (.seq a b) (s ++ t)
  | first {a b : Phrase} {s : List Tree} (h : Derives skips a s) : Derives skips (.either a b) s
  | second {a b : Phrase} {s : List Tree} (h : Derives skips b s) : Derives skips (.either a b) s
  | none {a : Phrase} : Derives skips (.many a) []
  | more {a : Phrase} {s t : List Tree} (h : Derives skips a s) (h' : Derives skips (.many a) t) :
    Derives skips (.many a) (s ++ t)

/-- Derivations without skipped tokens. -/
abbrev Derivation : Phrase → List Tree → Prop := Derives fun _ => False

variable {skips : List Token → Prop}

@[simp] theorem derives_oneOf {kinds : List Kind} {trees : List Tree} :
    Derives skips (.oneOf kinds) trees ↔ ∃ t, t.kind ∈ kinds ∧ trees = [.leaf t] := by
  constructor
  · intro h
    cases h with
    | token h => exact ⟨_, h, rfl⟩
  · rintro ⟨t, h, rfl⟩
    exact .token h

@[simp] theorem derives_empty {trees : List Tree} : Derives skips .empty trees ↔ trees = [] := by
  constructor
  · intro h
    cases h
    rfl
  · rintro rfl
    exact .empty

@[simp] theorem derives_seq {a b : Phrase} {trees : List Tree} :
    Derives skips (.seq a b) trees ↔
      ∃ s, Derives skips a s ∧ ∃ t, Derives skips b t ∧ trees = s ++ t := by
  constructor
  · intro h
    cases h with
    | seq h h' => exact ⟨_, h, _, h', rfl⟩
  · rintro ⟨s, h, t, h', rfl⟩
    exact .seq h h'

@[simp] theorem derives_either {a b : Phrase} {trees : List Tree} :
    Derives skips (.either a b) trees ↔ Derives skips a trees ∨ Derives skips b trees := by
  constructor
  · intro h
    cases h with
    | first h => exact .inl h
    | second h => exact .inr h
  · rintro (h | h)
    · exact .first h
    · exact .second h

/-- A repetition derives what its parts derive one after the other. -/
theorem derives_many {a : Phrase} {trees : List Tree} :
    Derives skips (.many a) trees ↔
      ∃ parts : List (List Tree), (∀ part ∈ parts, Derives skips a part) ∧ trees = parts.flatten := by
  constructor
  · intro h
    generalize hp : Phrase.many a = p at h
    induction h with
    | none => exact ⟨[], by simp, rfl⟩
    | more h _ _ ih =>
      cases hp
      obtain ⟨parts, hparts, rfl⟩ := ih rfl
      exact ⟨_ :: parts, by simpa using ⟨h, hparts⟩, rfl⟩
    | _ => cases hp
  · rintro ⟨parts, hparts, rfl⟩
    induction parts with
    | nil => exact .none
    | cons part parts ih =>
      exact .more (hparts part (by simp)) (ih fun p hp => hparts p (by simp [hp]))

/-- The phrase can stand for nothing at all. -/
def Phrase.nullable : Phrase → Bool
  | .oneOf _ | .rule _ => false
  | .empty | .many _ => true
  | .seq a b => a.nullable && b.nullable
  | .either a b => a.nullable || b.nullable

theorem Derives.nullable {p : Phrase} (h : Derives skips p []) : p.nullable = true := by
  generalize hs : ([] : List Tree) = s at h
  induction h with
  | token h | node h | skipped h => cases hs
  | empty | none | more => rfl
  | seq h h' ih ih' =>
    obtain ⟨ha, hb⟩ := List.append_eq_nil_iff.mp hs.symm
    simp [Phrase.nullable, ih ha.symm, ih' hb.symm]
  | first h ih => simp [Phrase.nullable, ih hs]
  | second h ih => simp [Phrase.nullable, ih hs]

/-- Every rule derives at least one token. -/
theorem production_not_nullable (r : Rule) : (production r).nullable = false := by
  cases r <;> rfl

/-- The leaves of a derivation are a sentence. -/
theorem Derives.sentence {p : Phrase} {trees : List Tree} (h : Derivation p trees) :
    Sentence p (Tree.leavesAll trees) := by
  induction h with
  | token h => exact .token h
  | node h ih => simpa [Tree.leavesAll, Tree.leaves] using Sentence.rule ih
  | skipped h => exact h.elim
  | empty => exact .empty
  | seq _ _ ih ih' => simpa using Sentence.seq ih ih'
  | first _ ih => exact .first ih
  | second _ ih => exact .second ih
  | none => exact .none
  | more _ _ ih ih' => simpa using Sentence.more ih ih'

/-- Every sentence has a derivation. -/
theorem Sentence.derivation {p : Phrase} {ts : List Token} (h : Sentence p ts) :
    ∃ trees, Derivation p trees ∧ Tree.leavesAll trees = ts := by
  induction h with
  | token h => exact ⟨_, .token h, rfl⟩
  | @rule r ts h ih =>
    obtain ⟨trees, htrees, rfl⟩ := ih
    cases trees with
    | nil =>
      have hn := htrees.nullable
      rw [production_not_nullable] at hn
      cases hn
    | cons first rest => exact ⟨_, .node htrees, by simp [Tree.leavesAll, Tree.leaves]⟩
  | empty => exact ⟨_, .empty, rfl⟩
  | seq _ _ ih ih' =>
    obtain ⟨s, hs, rfl⟩ := ih
    obtain ⟨t, ht, rfl⟩ := ih'
    exact ⟨s ++ t, .seq hs ht, by simp⟩
  | first _ ih =>
    obtain ⟨s, hs, rfl⟩ := ih
    exact ⟨s, .first hs, rfl⟩
  | second _ ih =>
    obtain ⟨s, hs, rfl⟩ := ih
    exact ⟨s, .second hs, rfl⟩
  | none => exact ⟨_, .none, rfl⟩
  | more _ _ ih ih' =>
    obtain ⟨s, hs, rfl⟩ := ih
    obtain ⟨t, ht, rfl⟩ := ih'
    exact ⟨s ++ t, .more hs ht, by simp⟩

/-- A sentence is what the leaves of some derivation are. -/
theorem sentence_iff {p : Phrase} {ts : List Token} :
    Sentence p ts ↔ ∃ trees, Derivation p trees ∧ Tree.leavesAll trees = ts := by
  constructor
  · exact Sentence.derivation
  · rintro ⟨trees, h, rfl⟩
    exact h.sentence

/-- A derivation stays one when more may be skipped. -/
theorem Derives.mono {skips' : List Token → Prop} (hskips : ∀ ts, skips ts → skips' ts)
    {p : Phrase} {trees : List Tree} (h : Derives skips p trees) : Derives skips' p trees := by
  induction h with
  | token h => exact .token h
  | node _ ih => exact .node ih
  | skipped h => exact .skipped (hskips _ h)
  | empty => exact .empty
  | seq _ _ ih ih' => exact .seq ih ih'
  | first _ ih => exact .first ih
  | second _ ih => exact .second ih
  | none => exact .none
  | more _ _ ih ih' => exact .more ih ih'

/-- All tokens of the phrase are of certain kinds and all its rules are certain ones. -/
def Phrase.within (kinds : Kind → Bool) (rules : Rule → Bool) : Phrase → Bool
  | .oneOf ks => ks.all kinds
  | .rule r => rules r
  | .empty => true
  | .seq a b | .either a b => a.within kinds rules && b.within kinds rules
  | .many a => a.within kinds rules

/-- The leaves below a class of rules that refer only to each other and to tokens of certain kinds
are of these kinds. -/
theorem Derives.leaves_within {kinds : Kind → Bool} {rules : Rule → Bool}
    (hrules : ∀ r, rules r = true → (production r).within kinds rules = true)
    (hskips : rules .statement = true → ∀ ts, skips ts → ∀ t ∈ ts, kinds t.kind = true)
    {p : Phrase} {trees : List Tree} (h : Derives skips p trees)
    (hp : p.within kinds rules = true) : ∀ t ∈ Tree.leavesAll trees, kinds t.kind = true := by
  induction h with
  | @token ks t h =>
    intro u hu
    obtain rfl : u = t := by simpa [Tree.leavesAll, Tree.leaves] using hu
    exact List.all_eq_true.mp hp _ h
  | @node r first rest _ ih =>
    intro u hu
    exact ih (hrules r hp) u (by simpa [Tree.leavesAll, Tree.leaves] using hu)
  | skipped h =>
    intro u hu
    exact hskips hp _ h u (by simpa [Tree.leavesAll, Tree.leaves] using hu)
  | empty | none => simp [Tree.leavesAll]
  | seq _ _ ih ih' =>
    simp only [Phrase.within, Bool.and_eq_true] at hp
    intro u hu
    rw [Tree.leavesAll_append, List.mem_append] at hu
    exact hu.elim (ih hp.1 u) (ih' hp.2 u)
  | first _ ih =>
    simp only [Phrase.within, Bool.and_eq_true] at hp
    exact ih hp.1
  | second _ ih =>
    simp only [Phrase.within, Bool.and_eq_true] at hp
    exact ih hp.2
  | more _ _ ih ih' =>
    intro u hu
    rw [Tree.leavesAll_append, List.mem_append] at hu
    exact hu.elim (ih hp u) (ih' hp u)

/-- The first token of the phrase is of certain kinds or the first one of certain rules. -/
def Phrase.startsWithin (kinds : Kind → Bool) (rules : Rule → Bool) : Phrase → Bool
  | .oneOf ks => ks.all kinds
  | .rule r => rules r
  | .empty => true
  | .seq a b => a.startsWithin kinds rules && (!a.nullable || b.startsWithin kinds rules)
  | .either a b => a.startsWithin kinds rules && b.startsWithin kinds rules
  | .many a => a.startsWithin kinds rules

/-- The first leaf below a class of rules that start with each other and with tokens of certain kinds
is of these kinds. -/
theorem Derives.head_within {kinds : Kind → Bool} {rules : Rule → Bool}
    (hrules : ∀ r, rules r = true → (production r).startsWithin kinds rules = true)
    (hskips : rules .statement = true → ∀ t ts, skips (t :: ts) → kinds t.kind = true)
    {p : Phrase} {trees : List Tree} (h : Derives skips p trees)
    (hp : p.startsWithin kinds rules = true) :
    ∀ t ∈ (Tree.leavesAll trees).head?, kinds t.kind = true := by
  induction h with
  | @token ks t h =>
    intro u hu
    obtain rfl : t = u := by simpa [Tree.leavesAll, Tree.leaves] using hu
    exact List.all_eq_true.mp hp _ h
  | @node r first rest _ ih =>
    intro u hu
    exact ih (hrules r hp) u (by simpa [Tree.leavesAll, Tree.leaves] using hu)
  | @skipped t ts h =>
    intro u hu
    obtain rfl : t = u := by simpa [Tree.leavesAll, Tree.leaves] using hu
    exact hskips hp t ts h
  | empty | none => simp [Tree.leavesAll]
  | @seq a b s t h _ ih ih' =>
    simp only [Phrase.startsWithin, Bool.and_eq_true, Bool.or_eq_true, Bool.not_eq_true'] at hp
    intro u hu
    rw [Tree.leavesAll_append, List.head?_append] at hu
    -- without trees of the first part the second one starts the phrase
    cases s with
    | nil =>
      have hb := hp.2.resolve_left (by rw [h.nullable]; simp)
      exact ih' hb u (by simpa [Tree.leavesAll] using hu)
    | cons first s =>
      refine ih hp.1 u ?_
      have hne : (Tree.leavesAll (first :: s)).head? ≠ Option.none := by
        simp [Tree.leavesAll, first.leaves_ne_nil]
      simpa [Option.or_of_isSome (Option.isSome_iff_ne_none.mpr hne)] using hu
  | first _ ih =>
    simp only [Phrase.startsWithin, Bool.and_eq_true] at hp
    exact ih hp.1
  | second _ ih =>
    simp only [Phrase.startsWithin, Bool.and_eq_true] at hp
    exact ih hp.2
  | @more a s t _ _ ih ih' =>
    intro u hu
    rw [Tree.leavesAll_append, List.head?_append] at hu
    cases hs : (Tree.leavesAll s).head? with
    | none => exact ih' hp u (by simpa [hs] using hu)
    | some v => exact ih hp u (by simpa [hs] using hu)

end Grammar

end ImpC
