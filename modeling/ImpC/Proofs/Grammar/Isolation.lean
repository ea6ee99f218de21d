import ImpC.Compilation
import ImpC.Proofs.Grammar.Acceptance

/-!
# A malformed statement does not disturb its neighbours

The tokens of a malformed statement are put among the statements of a program or of a block in it.
The tree is then that of the program without them with one more node, and everything made from the
tree stays the same.
-/
namespace ImpC.Grammar

open ImpC.Parser

/-- `e` is put among the statements of a block somewhere in the first tree, which gives the second. -/
inductive Inserted (e : Tree) : Tree → Tree → Prop
  | between (opening : Tree) (before after : List Tree) (closing : Tree) :
    Inserted e (.node .block opening (before ++ after ++ [closing]))
      (.node .block opening (before ++ e :: after ++ [closing]))
  | first {r : Rule} {t t' : Tree} (rest : List Tree) (h : Inserted e t t') :
    Inserted e (.node r t rest) (.node r t' rest)
  | rest {r : Rule} (first : Tree) (before : List Tree) {t t' : Tree} (after : List Tree)
    (h : Inserted e t t') :
    Inserted e (.node r first (before ++ t :: after)) (.node r first (before ++ t' :: after))

/-- `e` is put among the statements of a body or of a block in one of them. -/
inductive InsertedAmong (e : Tree) : List Tree → List Tree → Prop
  | between (before after : List Tree) : InsertedAmong e (before ++ after) (before ++ e :: after)
  | within (before : List Tree) {t t' : Tree} (after : List Tree) (h : Inserted e t t') :
    InsertedAmong e (before ++ t :: after) (before ++ t' :: after)

variable {skips : List Token → Prop} {e t t' : Tree}

/-- There is one node of skipped tokens after the insertion if there was none before. -/
theorem Inserted.errorNodes (he : e.errorNodes = [e]) (h : Inserted e t t')
    (ht : t.errorNodes = []) : t'.errorNodes = [e] := by
  induction h with
  | between opening before after closing =>
    simp only [Tree.errorNodes, Tree.errorNodesAll, Tree.errorNodesAll_append,
      List.append_eq_nil_iff] at ht ⊢
    simp [ht, he]
  | @first r t t' rest h ih =>
    have hr : r ≠ .error := by
      rintro rfl
      simp [Tree.errorNodes] at ht
    rw [Tree.errorNodes_node hr, List.append_eq_nil_iff] at ht
    simp [Tree.errorNodes_node hr, ih ht.1, ht.2]
  | @rest r first before t t' after h ih =>
    have hr : r ≠ .error := by
      rintro rfl
      simp [Tree.errorNodes] at ht
    simp only [Tree.errorNodes_node hr, Tree.errorNodesAll, Tree.errorNodesAll_append,
      List.append_eq_nil_iff] at ht ⊢
    simp [ih ht.2.2.1, ht]

theorem InsertedAmong.errorNodes (he : e.errorNodes = [e]) {trees trees' : List Tree}
    (h : InsertedAmong e trees trees') (ht : Tree.errorNodesAll trees = []) :
    Tree.errorNodesAll trees' = [e] := by
  cases h with
  | between before after =>
    simp only [Tree.errorNodesAll_append, List.append_eq_nil_iff] at ht
    simp [Tree.errorNodesAll, he, ht]
  | within before after h =>
    simp only [Tree.errorNodesAll_append, Tree.errorNodesAll, List.append_eq_nil_iff] at ht
    simp [Tree.errorNodesAll, h.errorNodes he ht.2.1, ht]

/-- There is no block below the rules of expressions and of simple statements. -/
theorem Derives.not_inserted {p : Phrase} {trees : List Tree} (h : Derives skips p trees)
    (hp : p.within (fun _ => true) isFlat = true) : ∀ t ∈ trees, ∀ t', ¬ Inserted e t t' := by
  induction h with
  | token h =>
    intro t ht t' hinserted
    obtain rfl := List.mem_singleton.mp ht
    cases hinserted
  | @node r first rest _ ih =>
    intro t ht t' hinserted
    obtain rfl := List.mem_singleton.mp ht
    have hchild := ih (production_flat hp)
    cases hinserted with
    | between => cases hp
    | first _ h => exact hchild first (by simp) _ h
    | @rest _ _ before child _ after h => exact hchild child (by simp) _ h
  | skipped h => cases hp
  | empty | none => simp
  | seq _ _ ih ih' =>
    simp only [Phrase.within, Bool.and_eq_true] at hp
    intro t ht
    exact (List.mem_append.mp ht).elim (ih hp.1 t) (ih' hp.2 t)
  | first _ ih =>
    simp only [Phrase.within, Bool.and_eq_true] at hp
    exact ih hp.1
  | second _ ih =>
    simp only [Phrase.within, Bool.and_eq_true] at hp
    exact ih hp.2
  | more _ _ ih ih' =>
    intro t ht
    exact (List.mem_append.mp ht).elim (ih hp t) (ih' hp t)

/-- Nothing is inserted into expressions and statements without blocks. -/
theorem IsA.not_inserted {r : Rule} (hr : isFlat r = true) (h : IsA skips r t) :
    ¬ Inserted e t t' := Derives.not_inserted h hr t (by simp) t'

theorem not_inserted_leaf {u : Token} : ¬ Inserted e (.leaf u) t' := nofun

/-- Two trees of one rule mean the same. -/
def SameMeaning : Rule → Tree → Tree → Prop
  | .statement, t, t' => Surface.Statement.ofTree? t' = Surface.Statement.ofTree? t
  | .loop, t, t' => Surface.Statement.inner? t' = Surface.Statement.inner? t
  | .alternative, t, t' => Surface.Statement.otherwise? [t'] = Surface.Statement.otherwise? [t]
  | .block, t, t' => ∃ o rest rest', t = .node .block (.leaf o) rest ∧
    t' = .node .block (.leaf o) rest' ∧ Surface.Statement.body rest' = Surface.Statement.body rest
  | .conditional, t, t' => ∃ w o condition c b rest rest' more more',
    t = .node .conditional (.leaf w)
      (.leaf o :: condition :: .leaf c :: .node .block (.leaf b) rest :: more) ∧
    t' = .node .conditional (.leaf w)
      (.leaf o :: condition :: .leaf c :: .node .block (.leaf b) rest' :: more') ∧
    Surface.Statement.body rest' = Surface.Statement.body rest ∧
    Surface.Statement.otherwise? more' = Surface.Statement.otherwise? more
  | _, _, _ => True

@[simp] theorem body_append (s t : List Tree) :
    Surface.Statement.body (s ++ t) = Surface.Statement.body s ++ Surface.Statement.body t := by
  induction s with
  | nil => simp [Surface.Statement.body]
  | cons a s ih => simp [Surface.Statement.body, ih]

/-- A statement with the inserted node in it means the same. -/
theorem SameMeaning.inner {r : Rule} (h : SameMeaning r t t')
    (hr : r = .conditional ∨ r = .loop ∨ r = .block) :
    Surface.Statement.inner? t' = Surface.Statement.inner? t := by
  rcases hr with rfl | rfl | rfl
  · obtain ⟨w, o, condition, c, b, rest, rest', more, more', rfl, rfl, hbody, hmore⟩ := h
    simp [Surface.Statement.inner?, hbody, hmore]
  · exact h
  · obtain ⟨o, rest, rest', rfl, rfl, hbody⟩ := h
    simp [Surface.Statement.inner?, hbody]

theorem SameMeaning.alternative {r : Rule} (h : SameMeaning r t t')
    (hr : r = .block ∨ r = .conditional) (word : Token) :
    SameMeaning .alternative (.node .alternative (.leaf word) [t])
      (.node .alternative (.leaf word) [t']) := by
  rcases hr with rfl | rfl
  · obtain ⟨o, rest, rest', rfl, rfl, hbody⟩ := h
    simp [SameMeaning, Surface.Statement.otherwise?, hbody]
  · obtain ⟨w, o, condition, c, b, rest, rest', more, more', rfl, rfl, hbody, hmore⟩ := h
    simp [SameMeaning, Surface.Statement.otherwise?, hbody, hmore]

/-- Where nothing may be skipped, a tree of a rule is a node of that rule. -/
theorem IsA.rule_eq {r r' : Rule} {first : Tree} {rest : List Tree}
    (h : IsA (fun _ => False) r (.node r' first rest)) : r' = r := by
  unfold IsA at h
  cases h with
  | node => rfl
  | skipped h => exact h.elim

/-- The second tree is one of the same rule, with malformed statements, and means the same. -/
def Isolates (t t' : Tree) : Prop :=
  ∀ r, r ≠ .program → IsA (fun _ => False) r t → IsA Malformed r t' ∧ SameMeaning r t t'

theorem IsA.tolerant {r : Rule} (h : IsA (fun _ => False) r t) : IsA Malformed r t :=
  h.mono fun _ => False.elim

theorem forall_mem_middle {p : Tree → Prop} {before after : List Tree} :
    (∀ s ∈ before ++ t :: after, p s) ↔ (∀ s ∈ before ++ after, p s) ∧ p t := by
  simp only [List.forall_mem_append, List.forall_mem_cons]
  exact ⟨fun ⟨h, ht, h'⟩ => ⟨⟨h, h'⟩, ht⟩, fun ⟨⟨h, h'⟩, ht⟩ => ⟨h, ht, h'⟩⟩

/-- Between the statements of a block the node stands for one more, which means nothing. -/
theorem isolates_between {u : Token} {us : List Token} (hm : Malformed (u :: us)) (opening : Tree)
    (before after : List Tree) (closing : Tree) :
    Isolates (.node .block opening (before ++ after ++ [closing]))
      (.node .block opening (before ++ skippedTree u us :: after ++ [closing])) := by
  intro r _ ht
  obtain rfl := ht.rule_eq
  obtain ⟨o, body, c, ho, hbody, hc, heq⟩ := isA_block.mp ht
  obtain ⟨rfl, hchildren⟩ := (Tree.node.injEq ..).mp heq |>.2
  obtain ⟨rfl, hlast⟩ := List.append_inj' hchildren rfl
  obtain ⟨rfl, -⟩ := List.cons.inj hlast
  refine ⟨isA_block.mpr ⟨o, _, c, ho, forall_mem_middle.mpr ⟨?_, ?_⟩, hc, rfl⟩,
    o, _, _, rfl, rfl, ?_⟩
  · exact fun t ht => (hbody t ht).tolerant
  · exact isA_statement.mpr (.inr ⟨u, us, hm, rfl⟩)
  · simp [Surface.Statement.body, Surface.Statement.ofTree?, skippedTree]

/-- The first part of a node with blocks is a token, so nothing is inserted there. -/
theorem IsA.first_leaf {r : Rule} {first : Tree} {rest : List Tree}
    (h : IsA (fun _ => False) r (.node r first rest))
    (hr : r = .block ∨ r = .loop ∨ r = .conditional ∨ r = .alternative) :
    ∃ u, first = .leaf u := by
  rcases hr with rfl | rfl | rfl | rfl
  · obtain ⟨o, body, c, -, -, -, heq⟩ := isA_block.mp h
    exact ⟨o, ((Tree.node.injEq ..).mp heq).2.1⟩
  · obtain ⟨_, _, ⟨w, _, _, _, _, -, -, -, -, -, rfl, -⟩, heq⟩ := isA_loop.mp h
    exact ⟨w, ((Tree.node.injEq ..).mp heq).2.1⟩
  · obtain ⟨_, _, ⟨w, _, _, _, _, -, -, -, -, -, rfl, -⟩, heq | ⟨_, -, heq⟩⟩ := isA_conditional.mp h
    · exact ⟨w, ((Tree.node.injEq ..).mp heq).2.1⟩
    · exact ⟨w, ((Tree.node.injEq ..).mp heq).2.1⟩
  · obtain ⟨w, body, -, -, heq⟩ := isA_alternative.mp h
    exact ⟨w, ((Tree.node.injEq ..).mp heq).2.1⟩

theorem isolates_first (hinserted : Inserted e t t') (ih : Isolates t t') (r : Rule)
    (rest : List Tree) : Isolates (.node r t rest) (.node r t' rest) := by
  intro r' hr ht
  obtain rfl := ht.rule_eq
  cases r with
  | program => exact absurd rfl hr
  | statement =>
    obtain ⟨inner, hinner, heq⟩ | ⟨_, _, hskips, -⟩ := isA_statement.mp ht
    · obtain ⟨rfl, rfl⟩ := (Tree.node.injEq ..).mp heq |>.2
      have hcompound : ∀ r, r = .conditional ∨ r = .loop ∨ r = .block → IsA (fun _ => False) r t →
          (IsA Malformed r t' → IsA Malformed .statement (.node .statement t' [])) →
          IsA Malformed .statement (.node .statement t' []) ∧
            SameMeaning .statement (.node .statement t []) (.node .statement t' []) := by
        intro r hr hi hstatement
        obtain ⟨hi', hsame⟩ := ih r (by rcases hr with rfl | rfl | rfl <;> simp) hi
        exact ⟨hstatement hi', by simpa [SameMeaning, Surface.Statement.ofTree?] using hsame.inner hr⟩
      rcases hinner with hi | hi | hi | hi | hi | hi
      · exact absurd hinserted (hi.not_inserted rfl)
      · exact absurd hinserted (hi.not_inserted rfl)
      · exact hcompound _ (.inl rfl) hi
          fun h => isA_statement.mpr (.inl ⟨_, .inr (.inr (.inl h)), rfl⟩)
      · exact hcompound _ (.inr (.inl rfl)) hi
          fun h => isA_statement.mpr (.inl ⟨_, .inr (.inr (.inr (.inl h))), rfl⟩)
      · exact absurd hinserted (hi.not_inserted rfl)
      · exact hcompound _ (.inr (.inr rfl)) hi
          fun h => isA_statement.mpr (.inl ⟨_, .inr (.inr (.inr (.inr (.inr h)))), rfl⟩)
    · exact hskips.elim
  | block | loop | conditional | alternative =>
    obtain ⟨u, rfl⟩ := ht.first_leaf (by simp)
    exact absurd hinserted not_inserted_leaf
  | error => exact absurd ht not_isA_error
  | _ => exact absurd (.first rest hinserted) (@IsA.not_inserted _ e _ _ _ rfl ht)

theorem append_cons_eq_singleton {before after : List Tree} :
    before ++ t :: after = [t'] ↔ before = [] ∧ t = t' ∧ after = [] := by
  cases before <;> simp

/-- The changed part of a guarded statement is its block, or stands behind it. -/
theorem Guarded.isolates {word : Keyword} {first : Tree} {parts more before after : List Tree}
    (h : Guarded (fun _ => False) word first parts) (hparts : before ++ t :: after = parts ++ more)
    (hinserted : Inserted e t t') (ih : Isolates t t') :
    (∃ w o condition c b rest rest', first = .leaf w ∧
        parts = [.leaf o, condition, .leaf c, .node .block (.leaf b) rest] ∧
        before ++ t' :: after = .leaf o :: condition :: .leaf c :: .node .block (.leaf b) rest' :: more ∧
        Guarded Malformed word first [.leaf o, condition, .leaf c, .node .block (.leaf b) rest'] ∧
        Surface.Statement.body rest' = Surface.Statement.body rest) ∨
      ∃ before', before = parts ++ before' ∧ before' ++ t :: after = more := by
  obtain ⟨w, o, condition, c, body, hw, ho, hcondition, hc, hbody, rfl, rfl⟩ := h
  rcases before with _ | ⟨a, _ | ⟨b, _ | ⟨d, _ | ⟨f, before⟩⟩⟩⟩
  · simp only [List.nil_append, List.cons_append, List.cons.injEq] at hparts
    exact absurd (hparts.1 ▸ hinserted) not_inserted_leaf
  · simp only [List.nil_append, List.cons_append, List.cons.injEq] at hparts
    exact absurd (hparts.2.1 ▸ hinserted) (hcondition.not_inserted rfl)
  · simp only [List.nil_append, List.cons_append, List.cons.injEq] at hparts
    exact absurd (hparts.2.2.1 ▸ hinserted) not_inserted_leaf
  · simp only [List.nil_append, List.cons_append, List.cons.injEq] at hparts
    obtain ⟨rfl, rfl, rfl, rfl, rfl⟩ := hparts
    obtain ⟨hbody', b, rest, rest', rfl, rfl, hsame⟩ := ih .block (by simp) hbody
    exact .inl ⟨w, o, _, c, b, rest, rest', rfl, rfl, rfl,
      ⟨w, o, _, c, _, hw, ho, hcondition.tolerant, hc, hbody', rfl, rfl⟩, hsame⟩
  · simp only [List.nil_append, List.cons_append, List.cons.injEq] at hparts
    obtain ⟨rfl, rfl, rfl, rfl, hmore⟩ := hparts
    exact .inr ⟨before, rfl, hmore⟩

theorem Guarded.tolerant {word : Keyword} {first : Tree} {parts : List Tree}
    (h : Guarded (fun _ => False) word first parts) : Guarded Malformed word first parts := by
  obtain ⟨w, o, condition, c, body, hw, ho, hcondition, hc, hbody, rfl, rfl⟩ := h
  exact ⟨w, o, condition, c, body, hw, ho, hcondition.tolerant, hc, hbody.tolerant, rfl, rfl⟩

theorem isolates_rest (hinserted : Inserted e t t') (ih : Isolates t t') (r : Rule)
    (first : Tree) (before after : List Tree) :
    Isolates (.node r first (before ++ t :: after)) (.node r first (before ++ t' :: after)) := by
  intro r' hr ht
  obtain rfl := ht.rule_eq
  cases r with
  | program => exact absurd rfl hr
  | statement =>
    obtain ⟨inner, -, heq⟩ | ⟨_, _, hskips, -⟩ := isA_statement.mp ht
    · simp at heq
    · exact hskips.elim
  | block =>
    obtain ⟨o, body, c, ho, hbody, hc, heq⟩ := isA_block.mp ht
    obtain ⟨rfl, hchildren⟩ := (Tree.node.injEq ..).mp heq |>.2
    -- what was changed is not the closing brace
    obtain rfl | ⟨after, last, rfl⟩ := List.eq_nil_or_concat after
    · obtain ⟨-, hlast⟩ := List.append_inj' hchildren rfl
      obtain ⟨rfl, -⟩ := List.cons.inj hlast
      exact absurd hinserted not_inserted_leaf
    · rw [List.concat_eq_append, ← List.cons_append, ← List.append_assoc] at hchildren
      obtain ⟨rfl, hlast⟩ := List.append_inj' hchildren rfl
      obtain ⟨rfl, -⟩ := List.cons.inj hlast
      obtain ⟨hothers, ht⟩ := forall_mem_middle.mp hbody
      obtain ⟨ht', hsame⟩ := ih .statement (by simp) ht
      refine ⟨isA_block.mpr ⟨o, before ++ t' :: after, c, ho, forall_mem_middle.mpr ⟨?_, ht'⟩, hc,
        by simp⟩, o, _, _, rfl, rfl, ?_⟩
      · exact fun s hs => (hothers s hs).tolerant
      · have heq : Surface.Statement.ofTree? t' = Surface.Statement.ofTree? t := hsame
        simp [Surface.Statement.body, heq]
  | loop =>
    obtain ⟨word, parts, hparts, heq⟩ := isA_loop.mp ht
    obtain ⟨rfl, hchildren⟩ := (Tree.node.injEq ..).mp heq |>.2
    rw [← List.append_nil parts] at hchildren
    obtain ⟨w, o, condition, c, b, rest, rest', rfl, rfl, hchanged, hguarded, hsame⟩ |
        ⟨_, -, hempty⟩ := hparts.isolates hchildren hinserted ih
    · rw [hchildren, hchanged]
      exact ⟨isA_loop.mpr ⟨_, _, hguarded, rfl⟩,
        by simp [SameMeaning, Surface.Statement.inner?, hsame]⟩
    · simp at hempty
  | conditional =>
    obtain ⟨word, parts, hparts, heq | ⟨other, hother, heq⟩⟩ := isA_conditional.mp ht
    · obtain ⟨rfl, hchildren⟩ := (Tree.node.injEq ..).mp heq |>.2
      rw [← List.append_nil parts] at hchildren
      obtain ⟨w, o, condition, c, b, rest, rest', rfl, rfl, hchanged, hguarded, hsame⟩ |
          ⟨_, -, hempty⟩ := hparts.isolates hchildren hinserted ih
      · rw [hchildren, hchanged]
        exact ⟨isA_conditional.mpr ⟨_, _, hguarded, .inl rfl⟩,
          w, o, condition, c, b, rest, rest', [], [], rfl, rfl, hsame, rfl⟩
      · simp at hempty
    · obtain ⟨rfl, hchildren⟩ := (Tree.node.injEq ..).mp heq |>.2
      obtain ⟨w, o, condition, c, b, rest, rest', rfl, rfl, hchanged, hguarded, hsame⟩ |
          ⟨before', rfl, hlast⟩ := hparts.isolates hchildren hinserted ih
      · rw [hchildren, hchanged]
        exact ⟨isA_conditional.mpr ⟨_, _, hguarded, .inr ⟨other, hother.tolerant, rfl⟩⟩,
          w, o, condition, c, b, rest, rest', [other], [other], rfl, rfl, hsame, rfl⟩
      · obtain ⟨rfl, rfl, rfl⟩ := append_cons_eq_singleton.mp hlast
        obtain ⟨hother', hsame⟩ := ih .alternative (by simp) hother
        refine ⟨isA_conditional.mpr ⟨_, _, hparts.tolerant, .inr ⟨t', hother', by simp⟩⟩, ?_⟩
        obtain ⟨w, o, condition, c, body, -, -, -, -, hbody, rfl, rfl⟩ := hparts
        obtain ⟨b, body, close, -, -, -, rfl⟩ := isA_block.mp hbody
        exact ⟨w, o, condition, c, b, _, _, [t], [t'], rfl, rfl, rfl, hsame⟩
  | alternative =>
    obtain ⟨word, body, hw, hbody, heq⟩ := isA_alternative.mp ht
    obtain ⟨rfl, hchildren⟩ := (Tree.node.injEq ..).mp heq |>.2
    obtain ⟨rfl, rfl, rfl⟩ := append_cons_eq_singleton.mp hchildren
    rcases hbody with hbody | hbody
    · obtain ⟨hbody', hsame⟩ := ih .block (by simp) hbody
      exact ⟨isA_alternative.mpr ⟨word, t', hw, .inl hbody', rfl⟩, hsame.alternative (.inl rfl) word⟩
    · obtain ⟨hbody', hsame⟩ := ih .conditional (by simp) hbody
      exact ⟨isA_alternative.mpr ⟨word, t', hw, .inr hbody', rfl⟩, hsame.alternative (.inr rfl) word⟩
  | error => exact absurd ht not_isA_error
  | _ => exact absurd (.rest first before after hinserted) (@IsA.not_inserted _ e _ _ _ rfl ht)

/-- Wherever the node is inserted, the tree stays one of its rule and means the same. -/
theorem Inserted.isolates {u : Token} {us : List Token} (hm : Malformed (u :: us))
    (h : Inserted (skippedTree u us) t t') : Isolates t t' := by
  induction h with
  | between opening before after closing => exact isolates_between hm opening before after closing
  | first rest h ih => exact isolates_first h ih _ rest
  | rest first before after h ih => exact isolates_rest h ih _ first before after

theorem InsertedAmong.isolates {u : Token} {us : List Token} (hm : Malformed (u :: us))
    {trees trees' : List Tree} (h : InsertedAmong (skippedTree u us) trees trees')
    (htrees : ∀ t ∈ trees, IsA (fun _ => False) .statement t) :
    (∀ t ∈ trees', IsA Malformed .statement t) ∧
      Surface.Statement.body trees' = Surface.Statement.body trees := by
  cases h with
  | between before after =>
    refine ⟨forall_mem_middle.mpr ⟨fun t ht => (htrees t ht).tolerant, ?_⟩, ?_⟩
    · exact isA_statement.mpr (.inr ⟨u, us, hm, rfl⟩)
    · simp [Surface.Statement.body, Surface.Statement.ofTree?, skippedTree]
  | @within before s s' after h =>
    obtain ⟨hothers, hs⟩ := forall_mem_middle.mp htrees
    obtain ⟨hs', hsame⟩ := h.isolates hm .statement (by simp) hs
    refine ⟨forall_mem_middle.mpr ⟨fun t ht => (hothers t ht).tolerant, hs'⟩, ?_⟩
    have heq : Surface.Statement.ofTree? s' = Surface.Statement.ofTree? s := hsame
    simp [Surface.Statement.body, heq]

theorem IsA.leaves_not_end (h : IsA Malformed .statement t) : ∀ u ∈ t.leaves, u.kind ≠ .eof := by
  have hrules : ∀ r, (r ≠ Rule.program : Bool) = true →
      (production r).within (fun k => k ≠ .eof) (fun r => r ≠ .program) = true := by
    intro r hr
    cases r with
    | program => cases hr
    | _ => rfl
  have hskips : ∀ ts, Malformed ts → ∀ u ∈ ts, decide (u.kind ≠ .eof) = true :=
    fun ts hm u hu => decide_eq_true (hm.no_end u hu)
  intro u hu
  have hw := Derives.leaves_within hrules (fun _ => hskips) h rfl u
    (by simpa [Tree.leavesAll] using hu)
  exact of_decide_eq_true hw

theorem leavesAll_not_end {trees : List Tree} (h : ∀ t ∈ trees, IsA Malformed .statement t) :
    ∀ u ∈ Tree.leavesAll trees, u.kind ≠ .eof := by
  induction trees with
  | nil => simp [Tree.leavesAll]
  | cons t trees ih =>
    rw [List.forall_mem_cons] at h
    intro u hu
    rw [Tree.leavesAll, List.mem_append] at hu
    exact hu.elim (h.1.leaves_not_end u) (ih h.2 u)

/-- Tokens without an end, and then nothing or the end and anything behind it. -/
theorem body_ending_append {ts tail : List Token} (hts : ∀ u ∈ ts, u.kind ≠ .eof)
    (htail : ∀ u ∈ tail.head?, u.kind = .eof) :
    body (ts ++ tail) = ts ∧ ending? (ts ++ tail) = tail.head? := by
  have hbody : body tail = [] ∧ ending? tail = tail.head? := by
    cases tail with
    | nil => exact ⟨rfl, rfl⟩
    | cons u tail => simp [body, ending?, htail u rfl]
  constructor
  · rw [body, List.takeWhile_append_of_pos (by simpa using hts)]
    exact (congrArg (ts ++ ·) hbody.1).trans (List.append_nil ts)
  · rw [ending?, List.find?_append, List.find?_eq_none.mpr (by simpa using hts)]
    exact hbody.2

/-- The location of a mistake in a tree is that of one of its tokens. -/
theorem Within.location {s : Stuck} (h : Within s t) (ending : Location) :
    ∃ u ∈ t.leaves, (s.error ending).location = u.location := by
  obtain ⟨u, hu, hs⟩ := h
  obtain ⟨rest, hrest⟩ := List.head?_eq_some_iff.mp hs
  exact ⟨u, hu, by simp [Stuck.error, hrest]⟩

theorem ofTree_program (first : Tree) (more : List Tree) (ending : Option Token) :
    Surface.ofTree (.node .program first (more ++ ending.toList.map .leaf)) =
      Surface.Statement.body (first :: more) := by
  cases ending with
  | none => simp [Surface.ofTree, Tree.children]
  | some e =>
    simp [Surface.ofTree, Tree.children, Surface.Statement.body, Surface.Statement.ofTree?]

/-- What a tree means, and the C emitted for it. -/
def compiled (tree : Tree) : Resolved × Target.Generated :=
  let r := resolve (Surface.ofTree tree)
  (r, Target.generate r.program r.table)

/-- A malformed statement put among the statements of a program, or of a block in it, is one error at
one of its tokens and one more node in the tree; the meaning of the program and the emitted C stay
the same, with all their messages. -/
theorem malformed_isolated {u : Token} {us : List Token} (hm : Malformed (u :: us))
    {statements statements' : List Tree}
    (hgrammatical : Derivation (.oneOrMore (.rule .statement)) statements)
    (hinserted : InsertedAmong (skippedTree u us) statements statements') {tail : List Token}
    (htail : ∀ t ∈ tail.head?, t.kind = .eof) :
    ∃ first rest first' rest' error,
      parse (Tree.leavesAll statements ++ tail) = ⟨some (.node .program first rest), []⟩ ∧
      parse (Tree.leavesAll statements' ++ tail) = ⟨some (.node .program first' rest'), [error]⟩ ∧
      first :: rest = statements ++ tail.head?.toList.map .leaf ∧
      first' :: rest' = statements' ++ tail.head?.toList.map .leaf ∧
      (∃ v ∈ u :: us, error.location = v.location) ∧
      compiled (.node .program first' rest') = compiled (.node .program first rest) := by
  obtain ⟨first, more, rfl, hstatements⟩ := derives_statements.mp hgrammatical
  have herrors : Tree.errorNodesAll statements' = [skippedTree u us] :=
    hinserted.errorNodes (by simp [skippedTree, Tree.errorNodes])
      (Derivation.errorNodes rfl hgrammatical)
  obtain ⟨hstatements', hmeaning⟩ := hinserted.isolates hm hstatements
  obtain ⟨first', more', rfl⟩ : ∃ first' more', statements' = first' :: more' := by
    cases statements' with
    | nil => simp [Tree.errorNodesAll] at herrors
    | cons first' more' => exact ⟨first', more', rfl⟩
  obtain ⟨hbody, hending⟩ := body_ending_append
    (leavesAll_not_end fun t ht => (hstatements t ht).tolerant) htail
  obtain ⟨hbody', hending'⟩ := body_ending_append (leavesAll_not_end hstatements') htail
  have hparse := parse_of_derivation hgrammatical hbody.symm
  obtain ⟨ms, hparse', hms⟩ := parse_reread hstatements' hbody'
  rw [herrors] at hms
  obtain ⟨s, _, hwithin, hnil, rfl⟩ := List.forall₂_cons_right_iff.mp hms
  rw [List.forall₂_nil_right_iff] at hnil
  subst hnil
  rw [hending] at hparse
  rw [hending'] at hparse'
  refine ⟨_, _, _, _, _, hparse, hparse', rfl, rfl, ?_, ?_⟩
  · simpa [skippedTree, Tree.leaves] using hwithin.location _
  · rw [compiled, compiled, ofTree_program, ofTree_program, hmeaning]

/-- A declaration whose value is missing. -/
theorem malformed_declaration :
    Malformed [blank (.keyword .var), blank .ident, blank (.op .assign), blank .semicolon] := by
  refine ⟨⟨[blank (.keyword .var), blank .ident, blank (.op .assign)], blank .semicolon, rfl, rfl,
    by decide⟩, by decide, by decide, by decide, by decide, fun h => ?_⟩
  -- were it a statement, it would be accepted
  obtain ⟨trees, hd, hleaves⟩ := sentence_iff.mp h
  obtain ⟨t, ht, rfl⟩ := derives_rule.mp hd
  have hderivation := derives_statements.mpr ⟨t, [], rfl, by simpa using ht⟩
  have hparse := @parse_of_derivation
    [blank (.keyword .var), blank .ident, blank (.op .assign), blank .semicolon] t [] hderivation
    hleaves
  have herrors : (parse [blank (.keyword .var), blank .ident, blank (.op .assign),
    blank .semicolon]).errors ≠ [] := by decide
  exact herrors (by rw [hparse])

/-- A block with two calls, and something between them. -/
def calls (between : List Tree) : Tree :=
  let call : Tree := .node .statement (.node .callStatement
    (.node .call (.leaf (blank .ident)) [.leaf (blank .openParen), .leaf (blank .closeParen)])
    [.leaf (blank .semicolon)]) []
  .node .statement (.node .block (.leaf (blank .openCurly))
    ([call] ++ between ++ [call] ++ [.leaf (blank .closeCurly)])) []

theorem calls_derivation : Derivation (.oneOrMore (.rule .statement)) [calls []] := by
  have hparse : parse (Tree.leavesAll [calls []]) = ⟨some (.node .program (calls []) []), []⟩ := rfl
  obtain ⟨first, more, htree, hd, -⟩ := isDerivationOf_of_parse hparse
  simp only [Tree.node.injEq, true_and] at htree
  obtain ⟨rfl, hmore⟩ := htree
  obtain ⟨rfl, -⟩ := List.append_eq_nil_iff.mp hmore.symm
  exact hd

theorem malformed_isolated_between_calls :
    ∃ first rest first' rest' error,
      parse (Tree.leavesAll [calls []] ++ [blank .eof]) =
        ⟨some (.node .program first rest), []⟩ ∧
      parse (Tree.leavesAll [calls [skippedTree (blank (.keyword .var))
          [blank .ident, blank (.op .assign), blank .semicolon]]] ++ [blank .eof]) =
        ⟨some (.node .program first' rest'), [error]⟩ ∧
      compiled (.node .program first' rest') = compiled (.node .program first rest) := by
  obtain ⟨first, rest, first', rest', error, hparse, hparse', -, -, -, hcompiled⟩ :=
    malformed_isolated malformed_declaration calls_derivation
      (.within [] [] (.first [] (.between _ [_] [_] _)))
      (by decide : ∀ t ∈ [blank .eof].head?, t.kind = .eof)
  exact ⟨first, rest, first', rest', error, hparse, hparse', hcompiled⟩

end ImpC.Grammar
