import ImpC.Proofs.Token.Stretch
import ImpC.Proofs.Program.Places
import ImpC.Proofs.Program.Lexical
import ImpC.Proofs.Program.RoundTrip
import ImpC.Proofs.Surface.Unplaced

/-!
# Expressions on their own

The text that the location of an expression covers is read on its own as the same expression if and
only if its parentheses come in pairs. They always do, except for an operation on two operands: its
location goes from one operand to the other without the parentheses around them, so those at the ends
are left out.
-/
namespace ImpC

def Expr.isBinary : Expr → Bool
  | .binary _ _ _ _ => true
  | _ => false

namespace Surface

/-- The significant tokens of a text, without its end. -/
def words (source : Source) : List Token := Parser.body (Lexer.start source).tokenize.tokens

/-- A text that is an expression as a whole. -/
def Expr.ofText? (source : Source) : Option Expr :=
  match Parser.expression ((words source).length + 1) (words source) with
  | .ok (tree, []) => Expr.ofTree? tree
  | _ => none

/-- Pairing looks at the kinds of tokens only. -/
theorem paired_congr {ts us : List Token}
    (h : ts.map Token.unplaced = us.map Token.unplaced) : Paired ts ↔ Paired us := by
  have hdepth (ts : List Token) (d : Nat) : depth? d (ts.map Token.unplaced) = depth? d ts := by
    induction ts generalizing d with
    | nil => rfl
    | cons t ts ih =>
      have ht : deepen d t.unplaced = deepen d t := rfl
      simp only [List.map_cons, depth?_cons, ht, ih]
  rw [Paired, Paired, ← hdepth ts, h, hdepth us]

theorem Expr.ofText?_eq_some {source : Source} {x : Expr} :
    Expr.ofText? source = some x ↔ ∃ tree,
      Parser.expression ((words source).length + 1) (words source) = .ok (tree, []) ∧
        Expr.ofTree? tree = some x := by
  rw [Expr.ofText?]
  split
  · rename_i tree hread
    simp [hread]
  · rename_i hread
    simp only [reduceCtorEq, false_iff]
    rintro ⟨tree, htree, -⟩
    exact hread tree htree

/-- Whatever is accepted has its parentheses in pairs. -/
theorem paired_of_ofText? {source : Source} {x : Expr} (h : Expr.ofText? source = some x) :
    Paired (words source) := by
  obtain ⟨tree, htree, hx⟩ := Expr.ofText?_eq_some.mp h
  have hread := @Grammar.expression_reads (fun _ => True) ((words source).length + 1) (words source)
  rw [htree] at hread
  obtain ⟨hisA, hleaves⟩ := hread
  have hspelling : IsSpelling (fun _ => True) tree := isA_ruleSpelling hisA
  rw [hleaves, List.append_nil]
  exact (hspelling x hx).paired

/-- Tokens that spell an expression are accepted wherever they are. -/
theorem ofText?_of_spelt {source : Source} {ts : List Token} {x : Expr}
    {skips : List Token → Prop} (h : Spelt skips ts x)
    (hwords : (words source).map Token.unplaced = ts.map Token.unplaced) :
    ∃ y, Expr.ofText? source = some y ∧ y.unplaced = x.unplaced := by
  obtain ⟨tree, hisA, rfl, hx⟩ := h
  have hlength : (words source).length = tree.leaves.length := by
    simpa using congrArg List.length hwords
  have hends : Grammar.Ends Parser.levels [] := by simp [Grammar.Ends]
  have hread := Grammar.expression_rereads ((words source).length + 1) tree [] hisA
    (by omega) hends
  have hnatural := Parser.expression_natural (f := Token.unplaced) (fun _ => rfl)
    ((words source).length + 1)
  rw [List.append_nil] at hread
  have hmapped := hnatural (words source)
  rw [hwords, hnatural, hread, Parser.mapped_ok] at hmapped
  cases hown : Parser.expression ((words source).length + 1) (words source) with
  | error stuck =>
    rw [hown] at hmapped
    cases hmapped
  | ok p =>
    obtain ⟨own, rest⟩ := p
    rw [hown, Parser.mapped_ok, Except.ok.injEq, Prod.mk.injEq] at hmapped
    obtain ⟨htree, hrest⟩ := hmapped
    obtain rfl : rest = [] := List.map_eq_nil_iff.mp hrest.symm
    have hmeaning : (Expr.ofTree? own).map Expr.unplaced = some x.unplaced := by
      rw [← Expr.ofTree?_unplaced, ← htree, Expr.ofTree?_unplaced, hx, Option.map_some]
    obtain ⟨y, hy, hyx⟩ := Option.map_eq_some_iff.mp hmeaning
    exact ⟨y, Expr.ofText?_eq_some.mpr ⟨own, hown, hy⟩, hyx⟩

/-- The tokens of a run are those of its text alone, apart from their places. -/
theorem words_of_run {source : Source} {ts earlier run : List Token}
    (h : Lexer.Run source ts earlier run) (hne : ts ≠ []) (hkind : ∀ t ∈ ts, t.kind ≠ .eof)
    (name : Text) :
    (words ⟨name, run.flatMap (·.text)⟩).map Token.unplaced = ts.map Token.unplaced := by
  have hrun : run ≠ [] := by
    rintro rfl
    exact hne h.significant.symm
  have hall : ∀ t ∈ run, t.kind ≠ .eof := by
    intro t ht heof
    refine hkind t ?_ heof
    rw [← h.significant]
    exact List.mem_filter.mpr ⟨ht, by simp [heof, Kind.isIgnorable]⟩
  obtain ⟨own, last, htokens, hown, hlast⟩ :=
    List.map_eq_append_iff.mp (h.tokenize_alone hrun hall name)
  have hfactor (us : List Token) : us.map Token.unplaced =
      (us.map fun t => (t.kind, t.text)).map fun p => ⟨p.1, p.2, nowhere⟩ := by
    rw [List.map_map]
    rfl
  obtain ⟨stop, more, hmore, hstop, -⟩ := List.map_eq_cons_iff.mp hlast
  have hbody : words ⟨name, run.flatMap (·.text)⟩ = own := by
    rw [words, htokens]
    refine (Grammar.body_ending_append (fun t ht heof => ?_) fun t ht => ?_).1
    · have hmem : (t.kind, t.text) ∈ ts.map fun t => (t.kind, t.text) :=
        hown ▸ List.mem_map_of_mem ht
      obtain ⟨u, hu, heq⟩ := List.mem_map.mp hmem
      exact hkind u hu ((Prod.mk.inj heq).1.trans heof)
    · rw [hmore, List.head?_cons, Option.mem_some_iff] at ht
      rw [← ht]
      exact (Prod.mk.inj hstop).1
  rw [hbody, hfactor, hown, ← hfactor]

end Surface

namespace Resolver

variable {scopes scopes' : List Scope}

theorem isBinary_expression (x : Surface.Expr) :
    (expression scopes x).1.isBinary = x.isBinary := by
  cases x <;> rfl

mutual

theorem uses_lookup : ∀ x : Surface.Expr, ∀ u ∈ (expression scopes x).1.uses,
    lookup scopes u.value.name = u.value.referent
  | .literal _ _ => by simp [expression, Expr.uses]
  | .name _ _ => by simp [expression, Expr.uses, reference_eq]
  | .unary _ _ operand => uses_lookup operand
  | .binary _ _ left right => by
    simp only [expression, Expr.uses, List.forall_mem_append]
    exact ⟨uses_lookup left, uses_lookup right⟩
  | .call _ _ arguments => usesAll_lookup arguments

theorem usesAll_lookup : ∀ xs : List Surface.Expr, ∀ u ∈ Expr.usesAll (expressions scopes xs).1,
    lookup scopes u.value.name = u.value.referent
  | [] => by simp [expressions, Expr.usesAll]
  | x :: xs => by
    simp only [expressions, Expr.usesAll, List.forall_mem_append]
    exact ⟨uses_lookup x, usesAll_lookup xs⟩

end

mutual

/-- Where the names of an expression stand for the same, it is resolved to the same. -/
theorem expression_of_lookup : ∀ x : Surface.Expr,
    (∀ u ∈ (expression scopes x).1.uses, lookup scopes' u.value.name = u.value.referent) →
      (expression scopes' x).1 = (expression scopes x).1
  | .literal _ _, _ => rfl
  | .name place name, h => by
    simp only [expression, Expr.uses, reference_eq, List.forall_mem_singleton] at h ⊢
    rw [h]
  | .unary _ _ operand, h => by
    simp only [expression, expression_of_lookup operand h]
  | .binary _ _ left right, h => by
    simp only [expression, Expr.uses, List.forall_mem_append] at h
    simp only [expression, expression_of_lookup left h.1, expression_of_lookup right h.2]
  | .call _ _ arguments, h => by
    simp only [expression, expressions_of_lookup arguments h]

theorem expressions_of_lookup : ∀ xs : List Surface.Expr,
    (∀ u ∈ Expr.usesAll (expressions scopes xs).1, lookup scopes' u.value.name = u.value.referent) →
      (expressions scopes' xs).1 = (expressions scopes xs).1
  | [], _ => rfl
  | x :: xs, h => by
    simp only [expressions, Expr.usesAll, List.forall_mem_append] at h
    simp only [expressions, expression_of_lookup x h.1, expressions_of_lookup xs h.2]

end

end Resolver

/-- Every expression of a program is one that tokens of its text spell, with its names resolved. -/
theorem expressions_faithful {source : Source} {tree : Tree} {e : Expr}
    (h : (parse (Lexer.start source).tokenize.tokens).tree = some tree)
    (he : e ∈ (resolve (Surface.ofTree tree)).program.expressions) :
    ∃ y scopes ts, e = (Resolver.expression scopes y).1 ∧
      ts <:+: Parser.body (Lexer.start source).tokenize.tokens ∧
      Surface.Faithful (fun _ => True) ts y := by
  let V (x : Surface.Expr) : Prop := ∀ y ∈ x.parts, ∃ ts,
    ts <:+: Parser.body (Lexer.start source).tokenize.tokens ∧
      Surface.Faithful (fun _ => True) ts y
  have hassures : Surface.Assures (fun _ => True) V
      (Parser.body (Lexer.start source).tokenize.tokens) := by
    refine ⟨fun _ _ => trivial, fun us x hin hx y hy => ?_⟩
    obtain ⟨ts, hts, hfaithful⟩ := hx.parts y hy
    exact ⟨ts, hts.trans hin, hfaithful⟩
  obtain ⟨hexpressions, -⟩ := resolve_keeps (P := fun _ => True) (fun _ _ _ _ => trivial)
    (Surface.parse_all h hassures)
  obtain ⟨x, y, scopes, hx, hy, heq⟩ := hexpressions e he
  obtain ⟨ts, hin, hfaithful⟩ := hx y hy
  exact ⟨y, scopes, ts, heq, hin, hfaithful⟩

/-- The location of an expression covers the expression if the parentheses that it covers come in
pairs, as they do unless it is an operation on two operands. -/
theorem location_covers_expression {source : Source} {tree : Tree} {e : Expr}
    (h : (parse (Lexer.start source).tokenize.tokens).tree = some tree)
    (he : e ∈ (resolve (Surface.ofTree tree)).program.expressions) :
    ∃ covered, e.location.text? = some covered ∧
      let alone : Source := ⟨source.name, covered⟩
      (e.isBinary = false → Surface.Paired (Surface.words alone)) ∧
      (Surface.Paired (Surface.words alone) ↔ (Surface.Expr.ofText? alone).isSome = true) ∧
      (∀ x, Surface.Expr.ofText? alone = some x → ∀ scopes,
        (∀ u ∈ e.uses, Resolver.lookup scopes u.value.name = u.value.referent) →
          (Resolver.expression scopes x).1.unplaced = e.unplaced) ∧
      ∃ scopes, ∀ u ∈ e.uses, Resolver.lookup scopes u.value.name = u.value.referent := by
  obtain ⟨y, scopes, ts, rfl, hin, hfaithful⟩ := expressions_faithful h he
  obtain ⟨t, u, ht, hu, hspans⟩ := hfaithful.spans
  have hne : ts ≠ [] := by
    intro hnil
    rw [hnil] at ht
    cases ht
  obtain ⟨earlier, run, hrun, hts⟩ := Lexer.exists_body_run hin hne
  have hcovers := hrun.covers ht hu (hts u (List.mem_of_getLast? hu)).2.2
  rw [← hspans] at hcovers
  have hwords := Surface.words_of_run hrun hne (fun v hv => (hts v hv).2.1) source.name
  -- the covered text has the tokens of the expression, and is read as it if parentheses pair up
  have hread (hp : Surface.Paired (Surface.words ⟨source.name, run.flatMap (·.text)⟩)) :
      ∃ z, Surface.Expr.ofText? ⟨source.name, run.flatMap (·.text)⟩ = some z ∧
        z.unplaced = y.unplaced :=
    Surface.ofText?_of_spelt (hfaithful.spelt ((Surface.paired_congr hwords).mp hp)) hwords
  refine ⟨run.flatMap (·.text), ?_, ?_, ⟨fun hp => ?_, fun hsome => ?_⟩, ?_, scopes,
    Resolver.uses_lookup y⟩
  · rw [location_expression]
    exact hcovers.text?
  · intro hbinary
    rw [Resolver.isBinary_expression] at hbinary
    exact (Surface.paired_congr hwords).mpr (hfaithful.paired hbinary)
  · obtain ⟨z, hz, -⟩ := hread hp
    rw [hz]
    rfl
  · obtain ⟨z, hz⟩ := Option.isSome_iff_exists.mp hsome
    exact Surface.paired_of_ofText? hz
  · intro z hz scopes' hscopes
    obtain ⟨z', hz', hunplaced⟩ := hread (Surface.paired_of_ofText? hz)
    obtain rfl : z' = z := Option.some.inj (hz'.symm.trans hz)
    rw [(Resolver.expression_unplaced scopes' z').1, hunplaced,
      ← (Resolver.expression_unplaced scopes' y).1, Resolver.expression_of_lookup y hscopes]

/-- The product is covered without the parenthesis that opens before its left operand. -/
theorem location_covers_expression_product :
    let source : Source := ⟨[], "var y = (1 + 2) * 3;".toList⟩
    let product : Source := ⟨[], "1 + 2) * 3".toList⟩
    ∃ tree, (parse (Lexer.start source).tokenize.tokens).tree = some tree ∧
      ∃ e ∈ (resolve (Surface.ofTree tree)).program.expressions,
        e.location.text? = some product.text ∧ Surface.Expr.ofText? product = none := by
  intro source product
  have htokens : (Lexer.start source).tokens = ((Lexer.start source).advance 30).1 :=
    Lexer.tokens_eq_advance (by decide)
  have halone : (Lexer.start product).tokens = ((Lexer.start product).advance 30).1 :=
    Lexer.tokens_eq_advance (by decide)
  have hrun : (parse (Lexer.start source).tokenize.tokens).tree.map (fun tree =>
      (resolve (Surface.ofTree tree)).program.expressions.map (·.location.text?)) =
        some [some product.text, some "1 + 2".toList, some ['1'], some ['2'], some ['3']] := by
    rw [Lexer.tokenize, htokens]
    decide +kernel
  obtain ⟨tree, htree, hexpressions⟩ := Option.map_eq_some_iff.mp hrun
  obtain ⟨e, more, he, htext, -⟩ := List.map_eq_cons_iff.mp hexpressions
  have hmem : e ∈ (resolve (Surface.ofTree tree)).program.expressions := by simp [he]
  refine ⟨tree, htree, e, hmem, htext, ?_⟩
  obtain ⟨covered, hcovered, -, haccepted, -⟩ := location_covers_expression htree hmem
  obtain rfl : covered = product.text := Option.some.inj (hcovered.symm.trans htext)
  have hunpaired : ¬ Surface.Paired (Surface.words product) := by
    rw [Surface.words, Lexer.tokenize, halone]
    decide +kernel
  rw [← Option.not_isSome_iff_eq_none]
  exact fun hsome => hunpaired (haccepted.mpr hsome)

end ImpC
