import ImpC.Proofs.Grammar.Basic

/-!
# The shapes of trees

For each rule, what a tree that derives it looks like, child by child.
-/
namespace ImpC.Grammar

variable {skips : List Token → Prop}

/-- The tree `t` stands for the rule `r`. -/
def IsA (skips : List Token → Prop) (r : Rule) (t : Tree) : Prop := Derives skips (.rule r) [t]

@[simp] theorem derives_rule {r : Rule} {trees : List Tree} :
    Derives skips (.rule r) trees ↔ ∃ t, IsA skips r t ∧ trees = [t] := by
  constructor
  · intro h
    cases h with
    | node h => exact ⟨_, .node h, rfl⟩
    | skipped h => exact ⟨_, .skipped h, rfl⟩
  · rintro ⟨t, h, rfl⟩
    exact h

/-- More may be skipped. -/
theorem IsA.mono {skips' : List Token → Prop} (hskips : ∀ ts, skips ts → skips' ts) {r : Rule}
    {t : Tree} (h : IsA skips r t) : IsA skips' r t := Derives.mono hskips h

/-- A tree of a rule is a node with what the rule produces; only in place of statements there may be
others. -/
theorem isA_iff {r : Rule} (hr : r ≠ .statement) {t : Tree} :
    IsA skips r t ↔
      ∃ first rest, Derives skips (production r) (first :: rest) ∧ t = .node r first rest := by
  constructor
  · intro h
    unfold IsA at h
    cases h with
    | node h => exact ⟨_, _, h, rfl⟩
    | skipped h => exact absurd rfl hr
  · rintro ⟨first, rest, h, rfl⟩
    exact .node h

section Front

variable {a b c : Phrase} {trees : List Tree}

theorem derives_seq_oneOf {kinds : List Kind} :
    Derives skips (.seq (.oneOf kinds) b) trees ↔
      ∃ t, t.kind ∈ kinds ∧ ∃ rest, trees = .leaf t :: rest ∧ Derives skips b rest := by
  rw [derives_seq]
  constructor
  · rintro ⟨s, hs, rest, hrest, rfl⟩
    obtain ⟨t, ht, rfl⟩ := derives_oneOf.mp hs
    exact ⟨t, ht, rest, rfl, hrest⟩
  · rintro ⟨t, ht, rest, rfl, hrest⟩
    exact ⟨[.leaf t], .token ht, rest, hrest, rfl⟩

theorem derives_seq_rule {r : Rule} :
    Derives skips (.seq (.rule r) b) trees ↔
      ∃ t, IsA skips r t ∧ ∃ rest, trees = t :: rest ∧ Derives skips b rest := by
  rw [derives_seq]
  constructor
  · rintro ⟨s, hs, rest, hrest, rfl⟩
    obtain ⟨t, ht, rfl⟩ := derives_rule.mp hs
    exact ⟨t, ht, rest, rfl, hrest⟩
  · rintro ⟨t, ht, rest, rfl, hrest⟩
    exact ⟨[t], ht, rest, hrest, rfl⟩

theorem derives_optional :
    Derives skips (.optional a) trees ↔ Derives skips a trees ∨ trees = [] := by
  rw [Phrase.optional, derives_either, derives_empty]

theorem derives_many_rule {r : Rule} :
    Derives skips (.many (.rule r)) trees ↔ ∀ t ∈ trees, IsA skips r t := by
  rw [derives_many]
  constructor
  · rintro ⟨parts, hparts, rfl⟩ t ht
    obtain ⟨part, hpart, ht⟩ := List.mem_flatten.mp ht
    obtain ⟨u, hu, rfl⟩ := derives_rule.mp (hparts part hpart)
    obtain rfl := List.mem_singleton.mp ht
    exact hu
  · intro h
    refine ⟨trees.map ([·]), ?_, by rw [← List.flatMap_def, List.flatMap_singleton']⟩
    intro part hpart
    obtain ⟨t, ht, rfl⟩ := List.mem_map.mp hpart
    exact h t ht

end Front

/-- Items that each stand behind a separator. -/
inductive Tail (skips : List Token → Prop) (separators : List Kind) (item : Rule) :
    List Tree → Prop
  | nil : Tail skips separators item []
  | cons {t : Token} {next : Tree} {more : List Tree} (ht : t.kind ∈ separators)
    (hnext : IsA skips item next) (hmore : Tail skips separators item more) :
    Tail skips separators item (.leaf t :: next :: more)

/-- Items behind separators, in pairs. -/
theorem derives_tail {separators : List Kind} {item : Rule} {trees : List Tree} :
    Derives skips (.many (.all [.oneOf separators, .rule item])) trees ↔
      Tail skips separators item trees := by
  have hpair : ∀ s, Derives skips (.all [.oneOf separators, .rule item]) s ↔
      ∃ t, t.kind ∈ separators ∧ ∃ next, IsA skips item next ∧ s = [.leaf t, next] := by
    intro s
    simp only [Phrase.all, List.foldr, derives_seq_oneOf, derives_seq_rule, derives_empty]
    constructor
    · rintro ⟨t, ht, _, rfl, next, hnext, _, rfl, rfl⟩
      exact ⟨t, ht, next, hnext, rfl⟩
    · rintro ⟨t, ht, next, hnext, rfl⟩
      exact ⟨t, ht, _, rfl, next, hnext, _, rfl, rfl⟩
  constructor
  · intro h
    obtain ⟨parts, hparts, rfl⟩ := derives_many.mp h
    induction parts with
    | nil => exact .nil
    | cons part parts ih =>
      obtain ⟨t, ht, next, hnext, rfl⟩ := (hpair part).mp (hparts part (by simp))
      have hmore : ∀ p ∈ parts, Derives skips _ p := fun p hp => hparts p (by simp [hp])
      exact .cons ht hnext (ih hmore (derives_many.mpr ⟨parts, hmore, rfl⟩))
  · intro h
    induction h with
    | nil => exact .none
    | cons ht hnext _ ih => exact .more ((hpair _).mpr ⟨_, ht, _, hnext, rfl⟩) ih

theorem isA_separated {r item : Rule} {separators : List Kind} (hr : r ≠ .statement)
    (hp : production r = .separated item separators) {t : Tree} :
    IsA skips r t ↔ ∃ first more,
      IsA skips item first ∧ Tail skips separators item more ∧ t = .node r first more := by
  rw [isA_iff hr, hp, Phrase.separated]
  have hmore : ∀ trees, Derives skips
      (.all [.many (.all [.oneOf separators, .rule item])]) trees ↔
      Tail skips separators item trees := by
    intro trees
    rw [← derives_tail]
    simp [Phrase.all]
  rw [show Phrase.all [.rule item, .many (.all [.oneOf separators, .rule item])] =
    .seq (.rule item) (.all [.many (.all [.oneOf separators, .rule item])]) from rfl]
  simp only [derives_seq_rule, hmore, List.cons.injEq]
  constructor
  · rintro ⟨first, more, ⟨_, hfirst, _, ⟨rfl, rfl⟩, hmore⟩, rfl⟩
    exact ⟨first, more, hfirst, hmore, rfl⟩
  · rintro ⟨first, more, hfirst, hmore, rfl⟩
    exact ⟨_, _, ⟨first, hfirst, more, ⟨rfl, rfl⟩, hmore⟩, rfl⟩

theorem isA_expression {t : Tree} :
    IsA skips .expression t ↔ ∃ inner, IsA skips .or inner ∧ t = .node .expression inner [] := by
  rw [isA_iff (by decide)]
  simp only [production, Phrase.all, List.foldr, derives_seq_rule, derives_empty, List.cons.injEq]
  constructor
  · rintro ⟨_, _, ⟨inner, h, _, ⟨rfl, rfl⟩, rfl⟩, rfl⟩
    exact ⟨_, h, rfl⟩
  · rintro ⟨inner, h, rfl⟩
    exact ⟨_, _, ⟨inner, h, _, ⟨rfl, rfl⟩, rfl⟩, rfl⟩

/-- Signs stand before another operand, and a primary is an operand without one. -/
theorem isA_unary {t : Tree} :
    IsA skips .unary t ↔
      (∃ sign operand, (sign.kind = .op .minus ∨ sign.kind = .op .not) ∧
        IsA skips .unary operand ∧ t = .node .unary (.leaf sign) [operand]) ∨
      ∃ inner, IsA skips .primary inner ∧ t = .node .unary inner [] := by
  rw [isA_iff (by decide)]
  simp only [production, Phrase.choice, Phrase.all, List.foldr, derives_either, derives_seq_oneOf,
    derives_seq_rule, derives_empty, derives_rule, derives_oneOf, List.cons.injEq, List.mem_cons,
    List.not_mem_nil, or_false, false_and, exists_false]
  constructor
  · rintro ⟨_, _, ⟨sign, hs, _, ⟨rfl, rfl⟩, operand, ho, _, rfl, rfl⟩ | ⟨inner, hi, rfl, rfl⟩, rfl⟩
    · exact .inl ⟨sign, operand, hs, ho, rfl⟩
    · exact .inr ⟨_, hi, rfl⟩
  · rintro (⟨sign, operand, hs, ho, rfl⟩ | ⟨inner, hi, rfl⟩)
    · exact ⟨_, _, .inl ⟨sign, hs, _, ⟨rfl, rfl⟩, operand, ho, _, rfl, rfl⟩, rfl⟩
    · exact ⟨_, _, .inr ⟨inner, hi, rfl, rfl⟩, rfl⟩

theorem mem_literals {k : Kind} :
    k ∈ [.int, .float, .str, .keyword .true_, .keyword .false_] ↔ Parser.isLiteral k = true := by
  cases k with
  | keyword word => cases word <;> simp [Parser.isLiteral]
  | _ => simp [Parser.isLiteral]

/-- A primary is an atom, a call or an expression between parentheses. -/
theorem isA_primary {t : Tree} :
    IsA skips .primary t ↔
      (∃ atom, (Parser.isLiteral atom.kind = true ∨ atom.kind = .ident) ∧
        t = .node .primary (.leaf atom) []) ∨
      (∃ call, IsA skips .call call ∧ t = .node .primary call []) ∨
      ∃ opening inner closing, opening.kind = .openParen ∧ IsA skips .expression inner ∧
        closing.kind = .closeParen ∧ t = .node .primary (.leaf opening) [inner, .leaf closing] := by
  rw [isA_iff (by decide)]
  simp only [production, Phrase.choice, Phrase.all, Phrase.token, List.foldr, derives_either,
    derives_seq_oneOf, derives_seq_rule, derives_empty, derives_rule, derives_oneOf, mem_literals,
    List.cons.injEq, List.mem_singleton, List.not_mem_nil, false_and, exists_false, or_false]
  constructor
  · rintro ⟨_, _, ⟨atom, h, rfl, rfl⟩ | ⟨call, h, rfl, rfl⟩ | ⟨name, h, rfl, rfl⟩ |
      ⟨opening, ho, _, ⟨rfl, rfl⟩, inner, hi, _, rfl, closing, hc, _, rfl, rfl⟩, rfl⟩
    · exact .inl ⟨atom, .inl h, rfl⟩
    · exact .inr (.inl ⟨_, h, rfl⟩)
    · exact .inl ⟨name, .inr h, rfl⟩
    · exact .inr (.inr ⟨opening, inner, closing, ho, hi, hc, rfl⟩)
  · rintro (⟨atom, h | h, rfl⟩ | ⟨call, h, rfl⟩ | ⟨opening, inner, closing, ho, hi, hc, rfl⟩)
    · exact ⟨_, _, .inl ⟨atom, h, rfl, rfl⟩, rfl⟩
    · exact ⟨_, _, .inr (.inr (.inl ⟨atom, h, rfl, rfl⟩)), rfl⟩
    · exact ⟨_, _, .inr (.inl ⟨call, h, rfl, rfl⟩), rfl⟩
    · exact ⟨_, _, .inr (.inr (.inr ⟨opening, ho, _, ⟨rfl, rfl⟩, inner, hi, _, rfl, closing, hc, _,
        rfl, rfl⟩)), rfl⟩

theorem isA_call {t : Tree} :
    IsA skips .call t ↔ ∃ function opening closing,
      function.kind = .ident ∧ opening.kind = .openParen ∧ closing.kind = .closeParen ∧
      (t = .node .call (.leaf function) [.leaf opening, .leaf closing] ∨
        ∃ arguments, IsA skips .arguments arguments ∧
          t = .node .call (.leaf function) [.leaf opening, arguments, .leaf closing]) := by
  rw [isA_iff (by decide)]
  simp only [production, Phrase.all, Phrase.token, List.foldr, derives_seq_oneOf, List.mem_singleton,
    List.cons.injEq]
  constructor
  · rintro ⟨_, _, ⟨function, hf, _, ⟨rfl, rfl⟩, opening, ho, rest, rfl, hrest⟩, rfl⟩
    obtain ⟨arguments, ha, last, hlast, rfl⟩ := derives_seq.mp hrest
    obtain ⟨closing, hc, _, rfl, he⟩ := derives_seq_oneOf.mp hlast
    obtain rfl := derives_empty.mp he
    refine ⟨function, opening, closing, hf, ho, List.mem_singleton.mp hc, ?_⟩
    rcases derives_optional.mp ha with ha | rfl
    · obtain ⟨arguments, ha, rfl⟩ := derives_rule.mp ha
      exact .inr ⟨arguments, ha, rfl⟩
    · exact .inl rfl
  · rintro ⟨function, opening, closing, hf, ho, hc, h⟩
    have hlast : Derives skips (.all [.token .closeParen]) [.leaf closing] :=
      .seq (.token (by simpa using hc)) .empty
    rcases h with rfl | ⟨arguments, ha, rfl⟩
    · exact ⟨_, _, ⟨function, hf, _, ⟨rfl, rfl⟩, opening, ho, _, rfl,
        derives_seq.mpr ⟨[], .second .empty, _, hlast, rfl⟩⟩, rfl⟩
    · exact ⟨_, _, ⟨function, hf, _, ⟨rfl, rfl⟩, opening, ho, _, rfl,
        derives_seq.mpr ⟨[arguments], .first ha, _, hlast, rfl⟩⟩, rfl⟩

theorem mem_typeNames {k : Kind} :
    k ∈ [.keyword .int, .keyword .float, .keyword .bool, .keyword .string, .ident] ↔
      Parser.isTypeName k = true := by
  cases k with
  | keyword word => cases word <;> simp [Parser.isTypeName]
  | _ => simp [Parser.isTypeName]

theorem isA_typeClause {t : Tree} :
    IsA skips .typeClause t ↔ ∃ colon type, colon.kind = .colon ∧
      Parser.isTypeName type.kind = true ∧ t = .node .typeClause (.leaf colon) [.leaf type] := by
  rw [isA_iff (by decide)]
  simp only [production, Phrase.all, Phrase.token, List.foldr, derives_seq_oneOf, derives_empty,
    mem_typeNames, List.mem_singleton, List.cons.injEq]
  constructor
  · rintro ⟨_, _, ⟨colon, hc, _, ⟨rfl, rfl⟩, type, ht, _, rfl, rfl⟩, rfl⟩
    exact ⟨colon, type, hc, ht, rfl⟩
  · rintro ⟨colon, type, hc, ht, rfl⟩
    exact ⟨_, _, ⟨colon, hc, _, ⟨rfl, rfl⟩, type, ht, _, rfl, rfl⟩, rfl⟩

/-- The initial value of a declaration with its sign. -/
def Initial (skips : List Token → Prop) (trees : List Tree) : Prop :=
  ∃ sign value, sign.kind = .op .assign ∧ IsA skips .expression value ∧ trees = [.leaf sign, value]

theorem derives_initial {trees : List Tree} :
    Derives skips (.all [.token (.op .assign), .rule .expression]) trees ↔ Initial skips trees := by
  simp only [Phrase.all, Phrase.token, List.foldr, derives_seq_oneOf, derives_seq_rule,
    derives_empty, List.mem_singleton, Initial]
  constructor
  · rintro ⟨sign, hs, _, rfl, value, hv, _, rfl, rfl⟩
    exact ⟨sign, value, hs, hv, rfl⟩
  · rintro ⟨sign, value, hs, hv, rfl⟩
    exact ⟨sign, hs, _, rfl, value, hv, _, rfl, rfl⟩

/-- The type and the value of a declaration may be missing. -/
theorem isA_declaration {t : Tree} :
    IsA skips .declaration t ↔ ∃ word name type value stop,
      word.kind = .keyword .var ∧ name.kind = .ident ∧
      ((∃ clause, IsA skips .typeClause clause ∧ type = [clause]) ∨ type = []) ∧
      (Initial skips value ∨ value = []) ∧ stop.kind = .semicolon ∧
      t = .node .declaration (.leaf word) (.leaf name :: type ++ value ++ [.leaf stop]) := by
  have hproduction : production .declaration = .seq (.oneOf [.keyword .var]) (.seq (.oneOf [.ident])
      (.seq (.optional (.rule .typeClause))
        (.seq (.optional (.all [.token (.op .assign), .rule .expression]))
          (.seq (.oneOf [.semicolon]) .empty)))) := rfl
  rw [isA_iff (by decide), hproduction]
  simp only [derives_seq_oneOf, List.mem_singleton, List.cons.injEq]
  constructor
  · rintro ⟨_, _, ⟨word, hw, _, ⟨rfl, rfl⟩, name, hn, rest, rfl, hrest⟩, rfl⟩
    obtain ⟨type, ht, _, hvalue, rfl⟩ := derives_seq.mp hrest
    obtain ⟨value, hv, _, hstop, rfl⟩ := derives_seq.mp hvalue
    obtain ⟨stop, hs, _, rfl, hend⟩ := derives_seq_oneOf.mp hstop
    obtain rfl := derives_empty.mp hend
    rw [derives_optional, derives_rule] at ht
    rw [derives_optional, derives_initial] at hv
    exact ⟨word, name, type, value, stop, hw, hn, ht, hv, List.mem_singleton.mp hs, by simp⟩
  · rintro ⟨word, name, type, value, stop, hw, hn, ht, hv, hs, rfl⟩
    rw [← derives_rule, ← derives_optional] at ht
    rw [← derives_initial, ← derives_optional] at hv
    have hlast : Derives skips (.seq (.oneOf [.semicolon]) .empty) [.leaf stop] :=
      .seq (.token (by simpa using hs)) .empty
    exact ⟨_, _, ⟨word, hw, _, ⟨rfl, rfl⟩, name, hn, type ++ (value ++ [.leaf stop]), by simp,
      .seq ht (.seq hv hlast)⟩, rfl⟩

theorem isA_assignment {t : Tree} :
    IsA skips .assignment t ↔ ∃ target sign value stop,
      target.kind = .ident ∧ sign.kind = .op .assign ∧ IsA skips .expression value ∧
      stop.kind = .semicolon ∧
      t = .node .assignment (.leaf target) [.leaf sign, value, .leaf stop] := by
  rw [isA_iff (by decide)]
  simp only [production, Phrase.all, Phrase.token, List.foldr, derives_seq_oneOf, derives_seq_rule,
    derives_empty, List.mem_singleton, List.cons.injEq]
  constructor
  · rintro ⟨_, _, ⟨target, ht, _, ⟨rfl, rfl⟩, sign, hs, _, rfl, value, hv, _, rfl, stop, hp, _, rfl,
      rfl⟩, rfl⟩
    exact ⟨target, sign, value, stop, ht, hs, hv, hp, rfl⟩
  · rintro ⟨target, sign, value, stop, ht, hs, hv, hp, rfl⟩
    exact ⟨_, _, ⟨target, ht, _, ⟨rfl, rfl⟩, sign, hs, _, rfl, value, hv, _, rfl, stop, hp, _, rfl,
      rfl⟩, rfl⟩

theorem isA_callStatement {t : Tree} :
    IsA skips .callStatement t ↔ ∃ call stop, IsA skips .call call ∧ stop.kind = .semicolon ∧
      t = .node .callStatement call [.leaf stop] := by
  rw [isA_iff (by decide)]
  simp only [production, Phrase.all, Phrase.token, List.foldr, derives_seq_oneOf, derives_seq_rule,
    derives_empty, List.mem_singleton, List.cons.injEq]
  constructor
  · rintro ⟨_, _, ⟨call, hc, _, ⟨rfl, rfl⟩, stop, hs, _, rfl, rfl⟩, rfl⟩
    exact ⟨_, stop, hc, hs, rfl⟩
  · rintro ⟨call, stop, hc, hs, rfl⟩
    exact ⟨_, _, ⟨call, hc, _, ⟨rfl, rfl⟩, stop, hs, _, rfl, rfl⟩, rfl⟩

theorem isA_block {t : Tree} :
    IsA skips .block t ↔ ∃ opening body closing, opening.kind = .openCurly ∧
      (∀ s ∈ body, IsA skips .statement s) ∧ closing.kind = .closeCurly ∧
      t = .node .block (.leaf opening) (body ++ [.leaf closing]) := by
  rw [isA_iff (by decide)]
  simp only [production, Phrase.all, Phrase.token, List.foldr, derives_seq_oneOf, List.mem_singleton,
    List.cons.injEq]
  constructor
  · rintro ⟨_, _, ⟨opening, ho, rest, ⟨rfl, rfl⟩, hrest⟩, rfl⟩
    obtain ⟨body, hb, last, hlast, rfl⟩ := derives_seq.mp hrest
    obtain ⟨closing, hc, _, rfl, he⟩ := derives_seq_oneOf.mp hlast
    obtain rfl := derives_empty.mp he
    exact ⟨opening, body, closing, ho, derives_many_rule.mp hb, List.mem_singleton.mp hc, rfl⟩
  · rintro ⟨opening, body, closing, ho, hb, hc, rfl⟩
    exact ⟨_, _, ⟨opening, ho, _, ⟨rfl, rfl⟩, .seq (derives_many_rule.mpr hb)
      (.seq (.token (by simpa using hc)) .empty)⟩, rfl⟩

/-- A keyword, a condition between parentheses and a block. -/
def Guarded (skips : List Token → Prop) (word : Keyword) (first : Tree) (parts : List Tree) :
    Prop :=
  ∃ start opening condition closing body,
    start.kind = .keyword word ∧ opening.kind = .openParen ∧ IsA skips .expression condition ∧
    closing.kind = .closeParen ∧ IsA skips .block body ∧ first = .leaf start ∧
    parts = [.leaf opening, condition, .leaf closing, body]

theorem isA_loop {t : Tree} :
    IsA skips .loop t ↔ ∃ word parts, Guarded skips .while_ word parts ∧
      t = .node .loop word parts := by
  rw [isA_iff (by decide)]
  simp only [production, Phrase.all, Phrase.token, Phrase.keyword, List.foldr, derives_seq_oneOf,
    derives_seq_rule, derives_empty, List.mem_singleton, List.cons.injEq]
  constructor
  · rintro ⟨_, _, ⟨word, hw, _, ⟨rfl, rfl⟩, opening, ho, _, rfl, condition, hd, _, rfl, closing, hc, _,
      rfl, body, hb, _, rfl, rfl⟩, rfl⟩
    exact ⟨_, _, ⟨word, opening, condition, closing, body, hw, ho, hd, hc, hb, rfl, rfl⟩, rfl⟩
  · rintro ⟨_, _, ⟨word, opening, condition, closing, body, hw, ho, hd, hc, hb, rfl, rfl⟩, rfl⟩
    exact ⟨_, _, ⟨word, hw, _, ⟨rfl, rfl⟩, opening, ho, _, rfl, condition, hd, _, rfl, closing, hc, _,
      rfl, body, hb, _, rfl, rfl⟩, rfl⟩

theorem isA_alternative {t : Tree} :
    IsA skips .alternative t ↔ ∃ word body, word.kind = .keyword .else_ ∧
      (IsA skips .block body ∨ IsA skips .conditional body) ∧
      t = .node .alternative (.leaf word) [body] := by
  rw [isA_iff (by decide)]
  have hbody : ∀ trees, Derives skips (.all [.choice [.rule .block, .rule .conditional]]) trees ↔
      ∃ body, (IsA skips .block body ∨ IsA skips .conditional body) ∧ trees = [body] := by
    intro trees
    simp only [Phrase.all, Phrase.choice, List.foldr, derives_seq, derives_either, derives_rule,
      derives_oneOf, derives_empty, List.not_mem_nil, false_and, exists_false, or_false]
    constructor
    · rintro ⟨_, ⟨body, hb, rfl⟩ | ⟨body, hb, rfl⟩, _, rfl, rfl⟩
      · exact ⟨body, .inl hb, rfl⟩
      · exact ⟨body, .inr hb, rfl⟩
    · rintro ⟨body, hb | hb, rfl⟩
      · exact ⟨[body], .inl ⟨body, hb, rfl⟩, [], rfl, rfl⟩
      · exact ⟨[body], .inr ⟨body, hb, rfl⟩, [], rfl, rfl⟩
  rw [show production .alternative = .seq (.oneOf [.keyword .else_])
    (.all [.choice [.rule .block, .rule .conditional]]) from rfl]
  simp only [derives_seq_oneOf, hbody, List.mem_singleton, List.cons.injEq]
  constructor
  · rintro ⟨_, _, ⟨word, hw, _, ⟨rfl, rfl⟩, body, hb, rfl⟩, rfl⟩
    exact ⟨word, body, hw, hb, rfl⟩
  · rintro ⟨word, body, hw, hb, rfl⟩
    exact ⟨_, _, ⟨word, hw, _, ⟨rfl, rfl⟩, body, hb, rfl⟩, rfl⟩

/-- A conditional has at most one alternative, which may be a conditional again. -/
theorem isA_conditional {t : Tree} :
    IsA skips .conditional t ↔ ∃ word parts, Guarded skips .if_ word parts ∧
      (t = .node .conditional word parts ∨
        ∃ other, IsA skips .alternative other ∧ t = .node .conditional word (parts ++ [other])) := by
  rw [isA_iff (by decide)]
  simp only [production, Phrase.all, Phrase.token, Phrase.keyword, List.foldr, derives_seq_oneOf,
    derives_seq_rule, List.mem_singleton, List.cons.injEq]
  constructor
  · rintro ⟨_, _, ⟨word, hw, _, ⟨rfl, rfl⟩, opening, ho, _, rfl, condition, hd, _, rfl, closing, hc, _,
      rfl, body, hb, rest, rfl, hrest⟩, rfl⟩
    obtain ⟨other, hother, _, he, rfl⟩ := derives_seq.mp hrest
    obtain rfl := derives_empty.mp he
    refine ⟨_, _, ⟨word, opening, condition, closing, body, hw, ho, hd, hc, hb, rfl, rfl⟩, ?_⟩
    rcases derives_optional.mp hother with hother | rfl
    · obtain ⟨other, hother, rfl⟩ := derives_rule.mp hother
      exact .inr ⟨other, hother, rfl⟩
    · exact .inl rfl
  · rintro ⟨_, _, ⟨word, opening, condition, closing, body, hw, ho, hd, hc, hb, rfl, rfl⟩, h⟩
    rcases h with rfl | ⟨other, hother, rfl⟩
    · exact ⟨_, _, ⟨word, hw, _, ⟨rfl, rfl⟩, opening, ho, _, rfl, condition, hd, _, rfl, closing, hc,
        _, rfl, body, hb, _, rfl, .seq (.second .empty) .empty⟩, rfl⟩
    · exact ⟨_, _, ⟨word, hw, _, ⟨rfl, rfl⟩, opening, ho, _, rfl, condition, hd, _, rfl, closing, hc,
        _, rfl, body, hb, _, rfl, .seq (.first hother) .empty⟩, rfl⟩

/-- No rule derives skipped tokens by itself. -/
theorem not_isA_error {t : Tree} : ¬ IsA skips .error t := by
  intro h
  obtain ⟨_, _, hd, -⟩ := (isA_iff (by decide)).mp h
  obtain ⟨u, hu, -⟩ := derives_oneOf.mp hd
  cases hu

/-- The tree of tokens that were skipped. -/
def skippedTree (t : Token) (ts : List Token) : Tree := .node .error (.leaf t) (ts.map .leaf)

/-- A statement is one of six kinds, or some tokens that may be skipped. -/
theorem isA_statement {t : Tree} :
    IsA skips .statement t ↔
      (∃ inner, (IsA skips .declaration inner ∨ IsA skips .assignment inner ∨
        IsA skips .conditional inner ∨ IsA skips .loop inner ∨ IsA skips .callStatement inner ∨
        IsA skips .block inner) ∧ t = .node .statement inner []) ∨
      ∃ u us, skips (u :: us) ∧ t = skippedTree u us := by
  have hchoice : ∀ trees, Derives skips (production .statement) trees ↔
      ∃ inner, (IsA skips .declaration inner ∨ IsA skips .assignment inner ∨
        IsA skips .conditional inner ∨ IsA skips .loop inner ∨ IsA skips .callStatement inner ∨
        IsA skips .block inner) ∧ trees = [inner] := by
    intro trees
    simp only [production, Phrase.choice, List.foldr, derives_either, derives_rule, derives_oneOf,
      List.not_mem_nil, false_and, exists_false, or_false, or_and_right, exists_or]
  constructor
  · intro h
    unfold IsA at h
    cases h with
    | node h =>
      obtain ⟨inner, hi, he⟩ := (hchoice _).mp h
      obtain ⟨rfl, rfl⟩ := List.cons.inj he
      exact .inl ⟨_, hi, rfl⟩
    | skipped h => exact .inr ⟨_, _, h, rfl⟩
  · rintro (⟨inner, hi, rfl⟩ | ⟨u, us, h, rfl⟩)
    · exact .node ((hchoice _).mpr ⟨inner, hi, rfl⟩)
    · exact .skipped h

end ImpC.Grammar
