import ImpC.Proofs.Grammar.Recovery

/-!
# Trees are read back

The leaves of a tree are read back as that tree, whatever follows them that could not continue it.
A bound above the number of leaves is enough, since every nested part and every further item of a
sequence takes a token.
-/
namespace ImpC.Grammar

open ImpC.Parser

variable {skips : List Token → Prop}

/-- The reader `p` gives back every tree of the rule `r` with fewer than `n` leaves, if what follows
its leaves `ends` it. -/
def Rereads (skips : List Token → Prop) (r : Rule) (n : Nat) (ends : List Token → Prop)
    (p : Parser Tree) : Prop :=
  ∀ t rest, IsA skips r t → t.leaves.length < n → ends rest → p (t.leaves ++ rest) = .ok (t, rest)

theorem ok_bind {α β : Type} (a : α) (f : α → Except Stuck β) : (Except.ok a >>= f) = f a := rfl

theorem token_cons {expected : Expected} {p : Kind → Bool} {t : Token} (h : p t.kind = true)
    (ts : List Token) : token expected p (t :: ts) = .ok (.leaf t, ts) := by
  simp [token, h]

theorem exactly_cons {t : Token} {kind : Kind} (h : t.kind = kind) (ts : List Token) :
    exactly kind (t :: ts) = .ok (.leaf t, ts) :=
  token_cons (by simpa using h) ts

theorem identifier_cons {t : Token} (h : t.kind = .ident) (ts : List Token) :
    identifier (t :: ts) = .ok (.leaf t, ts) :=
  token_cons (by simpa using h) ts

/-- The first token of a part of an expression is the first one of an operand. -/
theorem IsA.head_operand {r : Rule} (hr : (isPlainRule r && r != .typeClause) = true) {t : Tree}
    (h : IsA skips r t) : ∀ u ∈ t.leaves.head?, u.kind ≠ .closeParen := by
  let kinds : Kind → Bool := (· ≠ .closeParen)
  let rules : Rule → Bool := fun r => isPlainRule r && r != .typeClause
  have hrules : ∀ r, rules r = true → (production r).startsWithin kinds rules = true := by
    intro r hr
    cases r with
    | program | statement | declaration | typeClause | assignment | conditional | alternative
    | loop | callStatement | block | error => cases hr
    | _ => rfl
  intro u hu
  have hw := Derives.head_within hrules (fun h => by cases h) h hr u (by simpa [Tree.leavesAll] using hu)
  simpa [kinds] using hw

/-- All items are taken, since a separator follows each but the last. -/
theorem separated_rereads {isSeparator : Kind → Bool} {separators : List Kind}
    (hkinds : ∀ k, isSeparator k = true ↔ k ∈ separators) {item : Rule} {n : Nat}
    {ends : List Token → Prop} (hends : ∀ t ts, isSeparator t.kind = true → ends (t :: ts))
    {p : Parser Tree} (hp : Rereads skips item n ends p) {trees : List Tree}
    (htrees : Tail skips separators item trees) (bound : Nat)
    (hbound : (Tree.leavesAll trees).length ≤ bound) (hn : (Tree.leavesAll trees).length ≤ n)
    {rest : List Token} (hrest : ends rest)
    (hstop : ∀ t ∈ rest.head?, isSeparator t.kind = false) :
    separated isSeparator p bound (Tree.leavesAll trees ++ rest) = .ok (trees, rest) := by
  induction htrees generalizing bound with
  | nil =>
    cases bound with
    | zero => rfl
    | succ bound =>
      cases rest with
      | nil => rfl
      | cons t rest => simp [separated, Tree.leavesAll, hstop t rfl]
  | @cons t next more ht hnext hmore ih =>
    simp only [Tree.leavesAll, Tree.leaves, List.singleton_append, List.length_cons,
      List.length_append] at hbound hn
    obtain ⟨bound, rfl⟩ : ∃ b, bound = b + 1 := ⟨bound - 1, by omega⟩
    have hfollow : ends (Tree.leavesAll more ++ rest) := by
      cases hmore with
      | nil => exact hrest
      | cons hu _ _ => exact hends _ _ ((hkinds _).mpr hu)
    have hread := hp next (Tree.leavesAll more ++ rest) hnext (by omega) hfollow
    have hseparator := (hkinds t.kind).mpr ht
    simp only [Tree.leavesAll, Tree.leaves, List.cons_append, List.nil_append, List.append_assoc,
      separated, hseparator, if_true, hread, ok_bind, ih bound (by omega) (by omega)]
    rfl

theorem sequence_rereads {isSeparator : Kind → Bool} {separators : List Kind}
    (hkinds : ∀ k, isSeparator k = true ↔ k ∈ separators) {r item : Rule} (hr : r ≠ .statement)
    (hproduction : production r = .separated item separators) {n : Nat}
    {ends : List Token → Prop} (hends : ∀ t ts, isSeparator t.kind = true → ends (t :: ts))
    {p : Parser Tree} (hp : Rereads skips item n ends p) :
    Rereads skips r n (fun rest => ends rest ∧ ∀ t ∈ rest.head?, isSeparator t.kind = false)
      (sequence r isSeparator p n) := by
  rintro t rest ht hlen ⟨hrest, hstop⟩
  obtain ⟨first, more, hfirst, hmore, rfl⟩ := (isA_separated hr hproduction).mp ht
  rw [Tree.leaves, List.length_append] at hlen
  have hfollow : ends (Tree.leavesAll more ++ rest) := by
    cases hmore with
    | nil => exact hrest
    | cons hu _ _ => exact hends _ _ ((hkinds _).mpr hu)
  have hread := hp first (Tree.leavesAll more ++ rest) hfirst (by omega) hfollow
  have htail := separated_rereads hkinds hends hp hmore n (by omega) (by omega) hrest hstop
  simp only [Tree.leaves, List.append_assoc, Parser.sequence, hread, ok_bind, htail]
  rfl

/-- What follows continues no expression of the given levels and no name to a call. -/
def Ends (ls : List Level) (rest : List Token) : Prop :=
  ∀ t ∈ rest.head?, t.kind ≠ .openParen ∧ ∀ level ∈ ls, isOneOf level.operators t.kind = false

/-- Each level goes on as long as its operators come and no longer. -/
theorem tower_rereads {n : Nat} {operand : Parser Tree}
    (ho : Rereads skips .unary n (Ends []) operand) {ls : List Level} (hls : Stacked ls) :
    Rereads skips (ruleOf ls) n (Ends ls) (tower n operand ls) := by
  induction ls with
  | nil => exact ho
  | cons level tighter ih =>
    obtain ⟨hin, hproduction, hdisjoint, htighter⟩ := hls
    have hr : level.rule ≠ .statement := by
      intro h
      rw [h] at hin
      cases hin
    have hends : ∀ t ts, isOneOf level.operators t.kind = true → Ends tighter (t :: ts) := by
      intro t ts ht u hu
      obtain rfl : t = u := by simpa using hu
      refine ⟨fun h => ?_, hdisjoint t.kind ht⟩
      rw [h] at ht
      cases ht
    have hsequence := sequence_rereads (fun k => isOneOf_iff) hr hproduction hends (ih htighter)
    intro t rest ht hlen hrest
    refine hsequence t rest ht hlen ⟨fun u hu => ⟨(hrest u hu).1, ?_⟩, fun u hu => ?_⟩
    · exact fun other hother => (hrest u hu).2 other (by simp [hother])
    · exact (hrest u hu).2 level (by simp)

theorem expressionOver_rereads {n : Nat} {operand : Parser Tree}
    (ho : Rereads skips .unary n (Ends []) operand) :
    Rereads skips .expression n (Ends levels) (expressionOver n operand) := by
  intro t rest ht hlen hrest
  obtain ⟨inner, hinner, rfl⟩ := isA_expression.mp ht
  simp only [Tree.leaves, Tree.leavesAll, List.append_nil] at hlen ⊢
  have hread : tower n operand levels (inner.leaves ++ rest) = .ok (inner, rest) :=
    tower_rereads ho stacked_levels inner rest hinner hlen hrest
  simp only [expressionOver, wrap, hread, ok_bind]
  rfl

/-- The tokens that follow an expression end it. -/
theorem ends_cons {t : Token} (h : t.kind = .semicolon ∨ t.kind = .closeParen ∨ t.kind = .comma)
    (ls : List Level) (ts : List Token) : Ends ls (t :: ts) := by
  intro u hu
  obtain rfl : t = u := by simpa using hu
  rcases h with h | h | h <;> rw [h] <;> exact ⟨by simp, fun _ _ => rfl⟩

theorem startsWith_append {kind : Kind} {ts : List Token} (hne : ts ≠ [])
    (h : ∀ t ∈ ts.head?, t.kind ≠ kind) (rest : List Token) :
    startsWith kind (ts ++ rest) = false := by
  cases ts with
  | nil => exact absurd rfl hne
  | cons t ts => simpa [startsWith] using h t rfl

/-- A call is told from a name by its parenthesis, and empty arguments by the closing one. -/
theorem call_rereads {n : Nat} {p : Parser Tree} (hp : Rereads skips .expression n (Ends levels) p) :
    Rereads skips .call (n + 1) (fun _ => True) (call n p) := by
  intro t rest ht hlen _
  obtain ⟨f, o, c, hf, ho, hc, rfl | ⟨arguments, ha, rfl⟩⟩ := isA_call.mp ht
  · simp only [Tree.leaves, Tree.leavesAll, List.cons_append, List.nil_append, call,
      identifier_cons hf, exactly_cons ho, exactly_cons hc, ok_bind, startsWith, hc, decide_true,
      if_true]
    rfl
  · simp only [Tree.leaves, Tree.leavesAll, List.length_cons, List.length_append, List.length_nil]
      at hlen
    have hsequence : Rereads skips .arguments n
        (fun rest => Ends levels rest ∧ ∀ t ∈ rest.head?, decide (t.kind = .comma) = false)
        (sequence .arguments (· = .comma) p n) := by
      have hproduction : production .arguments = .separated .expression [.comma] := rfl
      have hkinds : ∀ k : Kind, decide (k = .comma) = true ↔ k ∈ [.comma] := by simp
      refine sequence_rereads hkinds (by decide) hproduction (fun t ts ht => ?_) hp
      exact ends_cons (.inr (.inr (of_decide_eq_true ht))) levels ts
    have hread := hsequence arguments (c :: rest) ha (by omega)
      ⟨ends_cons (.inr (.inl hc)) levels rest, by simp [hc]⟩
    have hstart : startsWith .closeParen (arguments.leaves ++ c :: rest) = false :=
      startsWith_append arguments.leaves_ne_nil (ha.head_operand rfl) _
    simp only [Tree.leaves, Tree.leavesAll, List.cons_append, List.nil_append, List.append_assoc,
      call, identifier_cons hf, exactly_cons ho, exactly_cons hc, ok_bind, hstart, hread]
    rfl

theorem parenthesized_rereads {n : Nat} {p : Parser Tree}
    (hp : Rereads skips .expression n (Ends levels) p) {o c : Token} (ho : o.kind = .openParen)
    (hc : c.kind = .closeParen) {inner : Tree} (hi : IsA skips .expression inner)
    (hlen : inner.leaves.length < n) (rest : List Token) :
    parenthesized p (o :: (inner.leaves ++ c :: rest)) = .ok ((.leaf o, inner, .leaf c), rest) := by
  have hread := hp inner (c :: rest) hi hlen (ends_cons (.inr (.inl hc)) levels rest)
  simp only [parenthesized, exactly_cons ho, hread, exactly_cons hc, ok_bind]
  rfl

theorem primary_rereads {n : Nat} {p : Parser Tree}
    (hp : Rereads skips .expression n (Ends levels) p) :
    Rereads skips .primary (n + 1) (Ends []) (primary n p) := by
  intro t rest ht hlen hrest
  rcases isA_primary.mp ht with ⟨atom, ha, rfl⟩ | ⟨inner, hc, rfl⟩ | ⟨o, inner, c, ho, hi, hc, rfl⟩
  · have hnotCall : startsWith .openParen rest = false := by
      cases rest with
      | nil => rfl
      | cons u rest => simpa [startsWith] using (hrest u rfl).1
    simp only [Tree.leaves, Tree.leavesAll, List.append_nil, List.cons_append, List.nil_append,
      primary]
    rcases ha with ha | ha
    · rw [if_pos ha]
    · simp [ha, isLiteral, hnotCall]
  · simp only [Tree.leaves, Tree.leavesAll, List.append_nil] at hlen ⊢
    have hread := call_rereads hp inner rest hc hlen trivial
    obtain ⟨f, o, c, hf, ho, -, hshape⟩ := isA_call.mp hc
    obtain ⟨more, hleaves⟩ : ∃ more, inner.leaves = f :: o :: more := by
      rcases hshape with rfl | ⟨arguments, -, rfl⟩ <;> exact ⟨_, rfl⟩
    rw [hleaves] at hread ⊢
    simp only [List.cons_append] at hread ⊢
    simp only [primary, hf, isLiteral, startsWith, ho, decide_true, if_true, wrap, hread, ok_bind]
    rfl
  · simp only [Tree.leaves, Tree.leavesAll, List.cons_append, List.nil_append, List.length_cons,
      List.length_append, List.length_nil] at hlen
    have hread := parenthesized_rereads hp ho hc hi (by omega) rest
    simp only [Tree.leaves, Tree.leavesAll, List.cons_append, List.nil_append, List.append_assoc,
      primary, ho, isLiteral, hread, ok_bind]
    rfl

/-- A primary does not start with a sign, so signs are read as such. -/
theorem isSign_false_of_head {t : Tree} (h : IsA skips .primary t) :
    ∀ u ∈ t.leaves.head?, isSign u.kind = false := by
  intro u hu
  rcases isA_primary.mp h with ⟨atom, ha, rfl⟩ | ⟨inner, hc, rfl⟩ | ⟨o, inner, c, ho, hi, hc, rfl⟩
  · obtain rfl : atom = u := by simpa [Tree.leaves] using hu
    rcases ha with ha | ha
    · rw [← mem_literals] at ha
      simp only [List.mem_cons, List.not_mem_nil, or_false] at ha
      rcases ha with ha | ha | ha | ha | ha <;> rw [ha] <;> rfl
    · rw [ha]
      rfl
  · obtain ⟨f, o, c, hf, -, -, hshape⟩ := isA_call.mp hc
    obtain rfl : f = u := by
      rcases hshape with rfl | ⟨arguments, -, rfl⟩ <;> simpa [Tree.leaves] using hu
    rw [hf]
    rfl
  · obtain rfl : o = u := by simpa [Tree.leaves] using hu
    rw [ho]
    rfl

theorem unary_rereads (n : Nat) : Rereads skips .unary n (Ends []) (unary n) := by
  induction n with
  | zero => exact fun t rest _ hlen => absurd hlen (Nat.not_lt_zero _)
  | succ n ih =>
    intro t rest ht hlen hrest
    rcases isA_unary.mp ht with ⟨sign, operand, hs, ho, rfl⟩ | ⟨inner, hi, rfl⟩
    · simp only [Tree.leaves, Tree.leavesAll, List.append_nil, List.singleton_append,
        List.length_cons] at hlen ⊢
      have hread := ih operand rest ho (by omega) hrest
      simp only [List.cons_append, unary, isSign_iff.mpr hs, if_true, hread, ok_bind]
      rfl
    · simp only [Tree.leaves, Tree.leavesAll, List.append_nil] at hlen ⊢
      have hread := primary_rereads (expressionOver_rereads ih) inner rest hi hlen hrest
      have hsign := isSign_false_of_head hi
      obtain ⟨u, us, hleaves⟩ := List.exists_cons_of_ne_nil inner.leaves_ne_nil
      rw [hleaves] at hread hsign ⊢
      simp only [List.cons_append] at hread ⊢
      simp only [unary, hsign u rfl, wrap, hread, ok_bind]
      rfl

/-- A derived expression is read back if no operator follows it. -/
theorem expression_rereads (n : Nat) : Rereads skips .expression n (Ends levels) (expression n) :=
  expressionOver_rereads (unary_rereads n)

theorem optional_skip {kind : Kind} {p : Parser (List Tree)} {ts : List Token}
    (h : startsWith kind ts = false) : Parser.optional kind p ts = .ok ([], ts) := by
  simp [Parser.optional, h]

/-- A type is there if and only if a colon is. -/
theorem typePart_rereads {type : List Tree}
    (htype : (∃ clause, IsA skips .typeClause clause ∧ type = [clause]) ∨ type = [])
    {rest : List Token} (hrest : startsWith .colon rest = false) :
    Parser.optional .colon (fun ts => do let (type, ts) ← typeClause ts; return ([type], ts))
      (Tree.leavesAll type ++ rest) = .ok (type, rest) := by
  rcases htype with ⟨clause, hclause, rfl⟩ | rfl
  · obtain ⟨colon, name, hc, hn, rfl⟩ := isA_typeClause.mp hclause
    simp only [Tree.leavesAll, Tree.leaves, List.append_nil, List.cons_append, List.nil_append,
      Parser.optional, startsWith, hc, decide_true, if_true, typeClause, exactly_cons hc,
      token_cons hn, ok_bind]
    rfl
  · simpa only [Tree.leavesAll, List.nil_append] using optional_skip hrest

theorem valuePart_rereads {n : Nat} {p : Parser Tree}
    (hp : Rereads skips .expression n (Ends levels) p) {value : List Tree}
    (hvalue : Initial skips value ∨ value = []) (hlen : (Tree.leavesAll value).length ≤ n)
    {stop : Token} (hstop : stop.kind = .semicolon) (rest : List Token) :
    Parser.optional (.op .assign) (initializer p) (Tree.leavesAll value ++ stop :: rest) =
      .ok (value, stop :: rest) := by
  rcases hvalue with ⟨sign, inner, hs, hi, rfl⟩ | rfl
  · simp only [Tree.leavesAll, Tree.leaves, List.append_nil, List.singleton_append,
      List.length_cons] at hlen ⊢
    have hread := hp inner (stop :: rest) hi (by omega) (ends_cons (.inl hstop) levels rest)
    simp only [List.cons_append, Parser.optional, startsWith, hs, decide_true, if_true, initializer,
      exactly_cons hs, hread, ok_bind]
    rfl
  · simp only [Tree.leavesAll, List.nil_append]
    exact optional_skip (by simp [startsWith, hstop])

/-- A derived declaration is read back, whatever follows it. -/
theorem declaration_rereads {n : Nat} {p : Parser Tree}
    (hp : Rereads skips .expression n (Ends levels) p) :
    Rereads skips .declaration (n + 1) (fun _ => True) (declaration p) := by
  intro t rest ht hlen _
  obtain ⟨word, name, type, value, stop, hw, hn, htype, hvalue, hs, rfl⟩ := isA_declaration.mp ht
  simp only [Tree.leaves, Tree.leavesAll, Tree.leavesAll_append, List.cons_append, List.nil_append,
    List.append_nil, List.length_cons, List.length_append] at hlen
  have hcolon : startsWith .colon (Tree.leavesAll value ++ stop :: rest) = false := by
    rcases hvalue with ⟨sign, inner, hsign, -, rfl⟩ | rfl
    · simp [Tree.leavesAll, Tree.leaves, startsWith, hsign]
    · simp [Tree.leavesAll, startsWith, hs]
  have hread := typePart_rereads htype hcolon
  have hread' := valuePart_rereads hp hvalue (by omega) hs rest
  simp only [Tree.leaves, Tree.leavesAll, Tree.leavesAll_append, List.cons_append, List.nil_append,
    List.append_nil, List.append_assoc, declaration, exactly_cons hw, identifier_cons hn, hread,
    hread', exactly_cons hs, ok_bind]
  rfl

theorem assignment_rereads {n : Nat} {p : Parser Tree}
    (hp : Rereads skips .expression n (Ends levels) p) :
    Rereads skips .assignment (n + 1) (fun _ => True) (assignment p) := by
  intro t rest ht hlen _
  obtain ⟨target, sign, value, stop, hname, hs, hv, hstop, rfl⟩ := isA_assignment.mp ht
  simp only [Tree.leaves, Tree.leavesAll, List.cons_append, List.nil_append, List.append_nil,
    List.length_cons, List.length_append] at hlen
  have hread := hp value (stop :: rest) hv (by omega) (ends_cons (.inl hstop) levels rest)
  simp only [Tree.leaves, Tree.leavesAll, List.cons_append, List.nil_append, List.append_nil,
    List.append_assoc, assignment, identifier_cons hname, exactly_cons hs, hread, exactly_cons hstop,
    ok_bind]
  rfl

theorem callStatement_rereads {n : Nat} {p : Parser Tree}
    (hp : Rereads skips .expression n (Ends levels) p) :
    Rereads skips .callStatement (n + 1) (fun _ => True) (callStatement n p) := by
  intro t rest ht hlen _
  obtain ⟨inner, stop, hc, hs, rfl⟩ := isA_callStatement.mp ht
  simp only [Tree.leaves, Tree.leavesAll, List.append_nil, List.length_append] at hlen
  have hread := call_rereads hp inner (stop :: rest) hc (by omega) trivial
  simp only [Tree.leaves, Tree.leavesAll, List.append_nil, List.append_assoc, List.cons_append,
    List.nil_append, callStatement, hread, exactly_cons hs, ok_bind]
  rfl

end ImpC.Grammar
