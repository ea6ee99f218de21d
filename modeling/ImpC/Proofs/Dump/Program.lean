import ImpC.Proofs.Dump.Reading
import ImpC.Proofs.Program.Alone
import ImpC.Proofs.Surface.Numeral

/-!
# The lines of a program dump

The entries of a program are those of a tree, the node of every statement and expression above the
nodes of its parts. Names and operators are written in one piece, and so are literals, with one
exception: the layout between the sign and the digits of a negative integer belongs to the literal, and
may have line breaks in it. Apart from these literals every node has one line.
-/
namespace ImpC

/-- A literal is at a token, or goes from a minus sign to the integer right behind it. -/
inductive LiteralPlace (ts : List Token) : Location → Prop
  | single {t : Token} (ht : t ∈ ts) : LiteralPlace ts t.location
  | negative {sign digits : Token} (h : [sign, digits] <:+: ts) (hsign : sign.kind = .op .minus)
    (hdigits : digits.kind = .int) : LiteralPlace ts (sign.location.through digits.location)

theorem LiteralPlace.within {ts us : List Token} {a : Location} (h : LiteralPlace us a)
    (hin : us <:+: ts) : LiteralPlace ts a := by
  cases h with
  | single ht => exact .single (hin.subset ht)
  | negative h hsign hdigits => exact .negative (h.trans hin) hsign hdigits

section Denoted

variable {place : Location} {value : Literal}

/-- Operators and operands behind an expression make it an operation. -/
theorem DenotesChain.left_of_literal : ∀ {ts : List Tree} {left : Expr},
    DenotesChain left ts (.literal place value) → left = .literal place value
  | [], _, .nil => rfl
  | _ :: _ :: _, _, .cons _ _ h => by cases h.left_of_literal

theorem Denotes.literalPlace {t : Tree} (h : Denotes t (.literal place value)) :
    LiteralPlace t.leaves place := by
  induction t using Tree.children_induction with
  | step t ih =>
    generalize he : Expr.literal place value = e at h
    cases h with
    | literal =>
      cases he
      exact .single (List.mem_singleton.mpr rfl)
    | negative hsign hdigits =>
      obtain ⟨hleaves, hlocation, hkind⟩ := Surface.intToken?_eq_some hdigits
      cases he
      rw [hlocation]
      refine .negative ?_ hsign hkind
      simp [Tree.leaves, Tree.leavesAll, hleaves]
    | only h => exact (ih _ List.mem_cons_self (he ▸ h)).within (Surface.child_within List.mem_cons_self)
    | @parenthesized opening closing inner _ h =>
      have hin : inner ∈ [.leaf opening, inner, .leaf closing] := by simp
      exact (ih inner hin (he ▸ h)).within (Surface.child_within hin)
    | chain h h' =>
      rw [← he] at h'
      have hfirst := ih _ List.mem_cons_self (h'.left_of_literal ▸ h)
      exact hfirst.within (Surface.child_within List.mem_cons_self)
    | name | signed | call | callWith => cases he

end Denoted

/-- The text is a negative integer with a line break between its sign and its digits. -/
def Spread (source : Source) (text : Text) : Prop :=
  ∃ sign layout digits, sign :: (layout ++ [digits]) <:+: (Lexer.start source).tokens ∧
    sign.kind = .op .minus ∧ digits.kind = .int ∧ (∀ t ∈ layout, t.kind.isIgnorable = true) ∧
    text = (sign :: (layout ++ [digits])).flatMap (·.text) ∧ '\n' ∈ layout.flatMap (·.text)

/-- The layout between the sign and the digits goes over the end of a line. -/
theorem Spread.newline_mem {source : Source} {text : Text} (h : Spread source text) :
    '\n' ∈ text := by
  obtain ⟨sign, layout, digits, -, -, -, -, rfl, hnewline⟩ := h
  rw [List.flatMap_cons, List.flatMap_append]
  exact List.mem_append_right _ (List.mem_append_left _ hnewline)

/-- A run of two tokens has layout between them. -/
theorem Lexer.Run.pair {source : Source} {earlier run : List Token} {t u : Token}
    (h : Run source [t, u] earlier run) :
    ∃ layout, run = t :: (layout ++ [u]) ∧ ∀ v ∈ layout, v.kind.isIgnorable = true := by
  have hkept (v : Token) (hv : v ∈ [t, u]) : (!v.kind.isIgnorable) = true := by
    rw [← h.significant] at hv
    exact (List.mem_filter.mp hv).2
  have ht := hkept t (by simp)
  have hu := hkept u (by simp)
  obtain ⟨rest, hrest⟩ := List.head?_eq_some_iff.mp h.head
  have hlast : run.getLast? = some u := h.last
  obtain ⟨init, hinit⟩ := List.getLast?_eq_some_iff.mp hlast
  have hsignificant := h.significant
  have hend : [u].filter (!·.kind.isIgnorable) = [u] := List.filter_cons_of_pos hu
  rw [hinit, List.filter_append, hend] at hsignificant
  cases init with
  | nil => cases hsignificant
  | cons v layout =>
    obtain ⟨rfl, rfl⟩ := List.cons.inj (hrest.symm.trans hinit)
    have hstart : (t :: layout).filter (!·.kind.isIgnorable) =
        t :: layout.filter (!·.kind.isIgnorable) := List.filter_cons_of_pos ht
    rw [hstart, List.cons_append] at hsignificant
    have hnone : layout.filter (!·.kind.isIgnorable) = [] :=
      List.append_cancel_right ((List.cons.inj hsignificant).2.trans (List.nil_append [u]).symm)
    refine ⟨layout, hrest, fun v hv => ?_⟩
    simpa using List.filter_eq_nil_iff.mp hnone v hv

/-- A literal is written as one token, or has a sign and digits. -/
theorem LiteralPlace.text? {source : Source} {a : Location}
    (h : LiteralPlace (Parser.body (Lexer.start source).tokenize.tokens) a) :
    ∃ text, a.text? = some text ∧ ('\n' ∈ text → Spread source text) := by
  cases h with
  | @single t ht =>
    have hmem : t ∈ (Lexer.start source).tokenize.tokens := List.takeWhile_subset _ ht
    obtain ⟨earlier, later, hsplit⟩ := List.append_of_mem (List.mem_filter.mp hmem).1
    exact ⟨t.text, (Lexer.covers_of_split hsplit).text?,
      fun hnewline => absurd hnewline (Lexer.newline_not_mem hmem)⟩
  | @negative sign digits hpair hsign hdigits =>
    obtain ⟨earlier, run, hrun, hts⟩ := Lexer.exists_body_run hpair (by simp)
    obtain ⟨layout, rfl, hlayout⟩ := hrun.pair
    have hcovers := hrun.covers rfl rfl (hts digits (by simp)).2.2
    refine ⟨_, hcovers.text?, fun hnewline => ⟨sign, layout, digits, ?_, hsign, hdigits, hlayout, rfl, ?_⟩⟩
    · exact (List.suffix_append _ _).isInfix.trans hrun.tokens.isInfix
    · rw [List.flatMap_cons, List.flatMap_append, List.flatMap_singleton, List.mem_append,
        List.mem_append] at hnewline
      rcases hnewline with hnewline | hnewline | hnewline
      · exact absurd hnewline (Lexer.newline_not_mem (hts sign (by simp)).1)
      · exact hnewline
      · exact absurd hnewline (Lexer.newline_not_mem (hts digits (by simp)).1)

/-- The literals of a program, as its text has them. -/
theorem literal_text? {source : Source} {tree : Tree} {place : Location} {value : Literal}
    (h : (parse (Lexer.start source).tokenize.tokens).tree = some tree)
    (hliteral : .literal place value ∈ (resolve (Surface.ofTree tree)).program.expressions) :
    ∃ text, place.text? = some text ∧ ('\n' ∈ text → Spread source text) := by
  obtain ⟨y, scopes, ts, hy, hin, hfaithful⟩ := expressions_faithful h hliteral
  have hplain : y.isBinary = false := by
    rw [← Resolver.isBinary_expression, ← hy]
    rfl
  obtain ⟨t, -, hleaves, hmeans⟩ := hfaithful.spelt (hfaithful.paired hplain)
  have hdenotes := denotes_ofTree? scopes t y hmeans
  rw [← hy] at hdenotes
  exact (hdenotes.literalPlace.within (hleaves ▸ hin)).text?

namespace Dump

open ImpC.C

section Labels

variable {P : Text → Prop} {table : List Variable}

/-- A literal is as its text has it, and if that goes past a line break it is as asserted. -/
def Shows (P : Text → Prop) : Expr → Prop
  | .literal place _ => ∃ text, place.text? = some text ∧ ('\n' ∈ text → P text)
  | _ => True

/-- Only a literal has a line break in its label, and then the label is as asserted. -/
def Legible (P : Text → Prop) (e : Entry) : Prop :=
  isName e.kind = true ∧ ('\n' ∈ e.label → e.kind = NodeKind.literal.name ∧ P e.label)

theorem isName_node (k : NodeKind) : isName k.name = true := by cases k <;> rfl

theorem Legible.plain {depth : Nat} {label : Text} {kind : NodeKind} (h : '\n' ∉ label) :
    Legible P (node depth label kind) :=
  ⟨isName_node kind, fun hnewline => absurd hnewline h⟩

theorem Legible.word {depth : Nat} {label : Text} {kind : NodeKind} (h : isWord label = true) :
    Legible P (node depth label kind) :=
  .plain fun hnewline => absurd (Lexical.isSolid_word h _ hnewline) (by decide)

theorem newline_not_mem_unary (op : UnaryOp) : '\n' ∉ op.symbol := by cases op <;> decide

theorem newline_not_mem_binary (op : BinaryOp) : '\n' ∉ op.symbol := by cases op <;> decide

def Node.Legible (P : Text → Prop) (n : Node) : Prop :=
  ∀ depth, ∀ e ∈ n.entries depth, Dump.Legible P e

/-- A node is legible if its own entry is and all nodes below it are. -/
theorem Node.Legible.mk {label : Text} {kind : NodeKind} {below : List Node}
    (h : Dump.Legible P (node 0 label kind)) (hbelow : ∀ n ∈ below, n.Legible P) :
    (Node.mk label kind below).Legible P := by
  intro depth
  have hall : ∀ {ns : List Node}, (∀ n ∈ ns, n.Legible P) →
      ∀ e ∈ Node.entriesAll (depth + 1) ns, Dump.Legible P e := by
    intro ns
    induction ns with
    | nil => exact fun _ => nofun
    | cons n ns ih =>
      intro hns
      rw [List.forall_mem_cons] at hns
      exact List.forall_mem_append.mpr ⟨hns.1 _, ih hns.2⟩
  exact List.forall_mem_cons.mpr ⟨h, hall hbelow⟩

mutual

theorem expression_legible {path : List Nat} : ∀ e : Expr, e.Scoped table path →
    (∀ x ∈ e.parts, Shows P x) → (Node.ofExpr e).Legible P
  | .literal _ _, _, h => by
    obtain ⟨text, htext, hspread⟩ := h _ (List.mem_singleton.mpr rfl)
    rw [Node.ofExpr, htext]
    exact .mk ⟨isName_node .literal, fun h => ⟨rfl, hspread h⟩⟩ nofun
  | .reference _ _, hs, _ => .mk (.word hs.word) nofun
  | .unary _ op operand, hs, h => by
    rw [Expr.parts, List.forall_mem_cons] at h
    exact .mk (.plain (newline_not_mem_unary op))
      (List.forall_mem_singleton.mpr (expression_legible operand hs h.2))
  | .binary _ op left right, hs, h => by
    rw [Expr.parts, List.forall_mem_cons, List.forall_mem_append] at h
    refine .mk (.plain (newline_not_mem_binary op)) ?_
    rw [List.forall_mem_cons, List.forall_mem_singleton]
    exact ⟨expression_legible left hs.1 h.2.1, expression_legible right hs.2 h.2.2⟩
  | .call _ _ arguments, hs, h => by
    rw [Expr.parts, List.forall_mem_cons] at h
    exact .mk (.word hs.1) (expressions_legible arguments hs.2 h.2)

theorem expressions_legible {path : List Nat} : ∀ es : List Expr, Expr.ScopedAll table path es →
    (∀ x ∈ Expr.partsAll es, Shows P x) → ∀ n ∈ Node.ofExprs es, n.Legible P
  | [], _, _ => nofun
  | e :: es, hs, h => by
    rw [Expr.partsAll, List.forall_mem_append] at h
    exact List.forall_mem_cons.mpr ⟨expression_legible e hs.1 h.1, expressions_legible es hs.2 h.2⟩

end

/-- What a step evaluates and assigns to is legible. -/
structure Clear (P : Text → Prop) (s : Step) : Prop where
  target : ∀ t ∈ s.target?, isWord t.value.name = true
  value : ∀ e ∈ s.value?, (Node.ofExpr e).Legible P

theorem assignment_legible {a : Assignment} (h : Clear P (.assignment a)) :
    (Node.ofAssignment a).Legible P := by
  refine .mk (.plain (by decide)) ?_
  rw [List.forall_mem_cons, List.forall_mem_singleton]
  exact ⟨.mk (.word (h.target _ rfl)) nofun, h.value _ rfl⟩

/-- Variables are called by words, and one that is missing from the table by a question mark. -/
theorem declared_legible (htable : ∀ v ∈ table, isWord v.name = true) (i : Nat) :
    Legible P (node 0 (declared table i) .declaration) := by
  cases hv : table[i]? with
  | none =>
    rw [declared, hv]
    exact .plain (by decide)
  | some v =>
    rw [declared, hv]
    exact .word (htable v (List.mem_of_getElem? hv))

mutual

/-- A statement is legible if what its steps evaluate and assign to is. -/
theorem statement_legible (htable : ∀ v ∈ table, isWord v.name = true) :
    ∀ s : Statement, (∀ step ∈ s.steps, Clear P step) → (Node.ofStatement table s).Legible P
  | .declaration i none, _ => .mk (declared_legible htable i) nofun
  | .declaration i (some a), h => by
    obtain ⟨htarget, hvalue⟩ := h _ (List.mem_singleton.mpr rfl)
    exact .mk (declared_legible htable i)
      (List.forall_mem_singleton.mpr (assignment_legible ⟨htarget, hvalue⟩))
  | .assignment a, h => assignment_legible (h _ (List.mem_singleton.mpr rfl))
  | .conditional condition body rest, h => by
    rw [Statement.steps, List.forall_mem_append] at h
    obtain ⟨hcondition, hbody⟩ := block_legible htable body h.1
    refine .mk (.plain (by decide)) ?_
    rw [List.forall_mem_cons, List.forall_mem_cons]
    exact ⟨hcondition condition rfl, hbody, otherwise_legible htable rest h.2⟩
  | .loop condition body, h => by
    rw [Statement.steps, List.forall_mem_append] at h
    obtain ⟨hcondition, hbody⟩ := block_legible htable body h.1
    refine .mk (.plain (by decide)) ?_
    rw [List.forall_mem_cons, List.forall_mem_singleton]
    exact ⟨hcondition condition rfl, hbody⟩
  | .call location function arguments, h =>
    (h _ (List.mem_singleton.mpr rfl)).value (.call location function arguments) rfl
  | .block body, h => (block_legible htable body (List.forall_mem_append.mp h).1).2

theorem otherwise_legible (htable : ∀ v ∈ table, isWord v.name = true) :
    ∀ o : Otherwise, (∀ step ∈ o.steps, Clear P step) →
      ∀ n ∈ Node.ofOtherwise table o, n.Legible P
  | .nothing, _ => nofun
  | .block body, h => by
    rw [Otherwise.steps, List.forall_mem_append] at h
    rw [Node.ofOtherwise, List.forall_mem_singleton]
    exact .mk (.plain (by decide)) (List.forall_mem_singleton.mpr (block_legible htable body h.1).2)
  | .conditional condition body rest, h => by
    rw [Otherwise.steps, List.forall_mem_append] at h
    obtain ⟨hcondition, hbody⟩ := block_legible htable body h.1
    rw [Node.ofOtherwise, List.forall_mem_singleton]
    refine .mk (.plain (by decide)) (List.forall_mem_singleton.mpr (.mk (.plain (by decide)) ?_))
    rw [List.forall_mem_cons, List.forall_mem_cons]
    exact ⟨hcondition condition rfl, hbody, otherwise_legible htable rest h.2⟩

theorem block_legible (htable : ∀ v ∈ table, isWord v.name = true) {opening : Opening Expr} :
    ∀ b : Block, (∀ step ∈ b.steps opening, Clear P step) →
      (∀ e ∈ opening.condition?, (Node.ofExpr e).Legible P) ∧ (Node.ofBlock table b).Legible P
  | .mk scope statements, h => by
    rw [Block.steps, List.forall_mem_cons] at h
    exact ⟨h.1.value, .mk (.plain (by decide)) (statements_legible htable statements h.2)⟩

theorem statements_legible (htable : ∀ v ∈ table, isWord v.name = true) :
    ∀ ss : List Statement, (∀ step ∈ Statement.stepsAll ss, Clear P step) →
      ∀ n ∈ Node.ofStatements table ss, n.Legible P
  | [], _ => nofun
  | s :: ss, h => by
    rw [Statement.stepsAll, List.forall_mem_append] at h
    exact List.forall_mem_cons.mpr ⟨statement_legible htable s h.1, statements_legible htable ss h.2⟩

end

theorem program_legible (htable : ∀ v ∈ table, isWord v.name = true) {body : Block}
    (hs : body.Scoped table) (h : ∀ x ∈ body.expressions, Shows P x) :
    (Node.ofProgram body table).Legible P := by
  have hclear : ∀ step ∈ body.steps .main, Clear P step := by
    intro step hstep
    have hparts : ∀ e ∈ step.value?, ∀ x ∈ e.parts, Shows P x := fun e he x hx =>
      h x (List.mem_flatMap.mpr ⟨e, List.mem_filterMap.mpr ⟨step, hstep, he⟩, hx⟩)
    rw [← Step.map_placed [] (body.steps .main)] at hstep
    obtain ⟨⟨path, step⟩, hp, rfl⟩ := List.mem_map.mp hstep
    exact ⟨fun t ht => ((hs _ hp).target t ht).word,
      fun e he => expression_legible e ((hs _ hp).value e he) (hparts e he)⟩
  cases body with
  | mk scope statements =>
    rw [Block.steps, List.forall_mem_cons] at hclear
    exact .mk (.plain (by decide)) (statements_legible htable statements hclear.2)

/-- There is a line for every node if and only if no literal is as asserted. -/
theorem lines_program {body : Block} (hP : ∀ text, P text → '\n' ∈ text)
    (h : ∀ e ∈ (Node.ofProgram body table).entries 1, Legible P e) :
    Text.lines (program body table).flatten =
        ((Node.ofProgram body table).entries 1).map Entry.shown ↔
      ∀ e ∈ (Node.ofProgram body table).entries 1, ¬P e.label := by
  rw [program_eq_listing]
  constructor
  · intro hlines e he hlabel
    have hflat := Text.newline_not_mem_lines (listing ((Node.ofProgram body table).entries 1))
    rw [hlines] at hflat
    exact hflat e.shown (List.mem_map_of_mem he) (by simp [Entry.shown, hP _ hlabel])
  · intro hall
    refine lines_listing fun e he => ⟨fun hnewline => ?_, (h e he).1⟩
    exact hall e he ((h e he).2 hnewline).2

end Labels

end Dump

/-- The dump of a program is the listing of its nodes from the root down. Only literals have line breaks
in their labels, where a minus sign is on another line than the integer that it belongs to. There is
exactly one line for every node if and only if no literal is spread like that. -/
theorem program_dump_lines {source : Source} {tree : Tree}
    (h : (parse (Lexer.start source).tokenize.tokens).tree = some tree) :
    let resolved := resolve (Surface.ofTree tree)
    let nodes := (Dump.Node.ofProgram resolved.program resolved.table).entries 1
    (Dump.program resolved.program resolved.table).flatten = Dump.listing nodes ∧
    (∀ e ∈ nodes, '\n' ∈ e.label → e.kind = NodeKind.literal.name ∧ Spread source e.label) ∧
    (Text.lines (Dump.program resolved.program resolved.table).flatten =
        nodes.map Dump.Entry.shown ↔
      ∀ e ∈ nodes, ¬Spread source e.label) := by
  intro resolved nodes
  obtain ⟨hscoped, hwords⟩ := resolve_scoped (Surface.words_ofTree h)
  have hshows : ∀ x ∈ resolved.program.expressions, Dump.Shows (Spread source) x := by
    intro x hx
    cases x with
    | literal place value => exact literal_text? h hx
    | _ => trivial
  have hlegible : ∀ e ∈ nodes, Dump.Legible (Spread source) e :=
    Dump.program_legible hwords hscoped hshows 1
  exact ⟨Dump.program_eq_listing resolved.program resolved.table, fun e he => (hlegible e he).2,
    Dump.lines_program (fun _ => Spread.newline_mem) hlegible⟩

/-- The value of the variable takes two of the six lines. -/
theorem program_dump_lines_spread :
    let source : Source := ⟨[], "var x = -\n1;".toList⟩
    ∃ tree, (parse (Lexer.start source).tokenize.tokens).tree = some tree ∧
      (Dump.program (resolve (Surface.ofTree tree)).program
          (resolve (Surface.ofTree tree)).table).flatten =
        ("> PROGRAM | PROGRAM\n>> x | DECLARATION\n>>> = | ASSIGNMENT\n>>>> x | REFERENCE\n" ++
          ">>>> -\n1 | LITERAL\n").toList ∧
      Spread source "-\n1".toList := by
  intro source
  have htokens : (Lexer.start source).tokens = ((Lexer.start source).advance 13).1 :=
    Lexer.tokens_eq_advance (by decide)
  have hentries : (parse (Lexer.start source).tokenize.tokens).tree.map (fun tree =>
      (Dump.Node.ofProgram (resolve (Surface.ofTree tree)).program
        (resolve (Surface.ofTree tree)).table).entries 1) =
      some [⟨1, "PROGRAM".toList, "PROGRAM".toList⟩, ⟨2, "x".toList, "DECLARATION".toList⟩,
        ⟨3, "=".toList, "ASSIGNMENT".toList⟩, ⟨4, "x".toList, "REFERENCE".toList⟩,
        ⟨4, "-\n1".toList, "LITERAL".toList⟩] := by
    rw [Lexer.tokenize, htokens]
    decide +kernel
  obtain ⟨tree, htree, hnodes⟩ := Option.map_eq_some_iff.mp hentries
  obtain ⟨hdump, hspread, -⟩ := program_dump_lines htree
  rw [hnodes] at hdump hspread
  refine ⟨tree, htree, ?_, ?_⟩
  · rw [hdump]
    decide +kernel
  · exact (hspread ⟨4, "-\n1".toList, "LITERAL".toList⟩ (by simp) (by decide)).2

end ImpC
