import ImpC.Proofs.Grammar.Places
import ImpC.Proofs.Token.Stretch
import ImpC.Proofs.Text.Lines
import ImpC.Proofs.Dump.Writing

/-!
# Dumps read back

The marks of a line end at its first space, and the name of the kind has no bar in it, so it begins
behind the last separator whatever stands in the label. A listing from the root down gives the nesting
back by the depths alone: read from its end, an entry is put above all that is deeper. No significant
token is spread over lines, so the dump of a text can be taken apart line by line.
-/
namespace ImpC

namespace Dump

section Lines

/-- What stands before and behind the last separator of a line. -/
def cut? : Text → Option (Text × Text)
  | [] => none
  | c :: t =>
    match cut? t with
    | some (label, kind) => some (c :: label, kind)
    | none => if " | ".toList.isPrefixOf (c :: t) then some ([], (c :: t).drop 3) else none

theorem cut?_eq_none {t : Text} (h : '|' ∉ t) : cut? t = none := by
  induction t with
  | nil => rfl
  | cons c t ih =>
    have hbar : " | ".toList.isPrefixOf (c :: t) = false := by
      rw [Bool.eq_false_iff]
      intro hstart
      have hmem := (List.isPrefixOf_iff_prefix.mp hstart).subset (show '|' ∈ " | ".toList by decide)
      exact h hmem
    rw [cut?, ih fun ht => h (List.mem_cons_of_mem c ht)]
    simp only [hbar, Bool.false_eq_true, if_false]

/-- The last separator of a line is the one before the kind, even if the label has one in it. -/
theorem cut?_label (label : Text) {kind : Text} (h : '|' ∉ kind) :
    cut? (label ++ " | ".toList ++ kind) = some (label, kind) := by
  induction label with
  | nil =>
    -- The bar of the separator is in the way of the lemma above: behind it there is none.
    have hbehind : cut? ('|' :: ' ' :: kind) = none := by
      rw [cut?, cut?_eq_none (by simpa using h)]
      rfl
    show cut? (' ' :: '|' :: ' ' :: kind) = _
    rw [cut?, hbehind]
    rfl
  | cons c label ih => rw [List.cons_append, List.cons_append, cut?, ih]

/-- Reads a line as marks, a space, a label and the name of a kind. -/
def entryOf? (line : Text) : Option Entry :=
  match line.dropWhile (· == '>') with
  | ' ' :: t =>
    (cut? t).map fun (label, kind) => ⟨(line.takeWhile (· == '>')).length, label, kind⟩
  | _ => none

/-- The marks end at the first blank, whatever the label starts with. -/
theorem entryOf?_shown {e : Entry} (h : '|' ∉ e.kind) : entryOf? e.shown = some e := by
  have hshown : e.shown = List.replicate e.depth '>' ++ (' ' :: (e.label ++ " | ".toList ++ e.kind)) := by
    simp [Entry.shown]
  have hmarks : ∀ c ∈ List.replicate e.depth '>', (c == '>') = true := by
    intro c hc
    rw [List.eq_of_mem_replicate hc]
    rfl
  rw [entryOf?, hshown, List.dropWhile_append_of_pos hmarks, List.takeWhile_append_of_pos hmarks]
  show (cut? _).map _ = _
  rw [cut?_label e.label h]
  simp [List.takeWhile]

/-- The names of kinds and rules are made of letters and underscores. -/
def isName (t : Text) : Bool := t.all fun c => c.isAlpha || c == '_'

theorem not_mem_of_isName {t : Text} {c : Char} (h : isName t = true)
    (hc : (c.isAlpha || c == '_') = false) : c ∉ t := by
  intro hmem
  rw [List.all_eq_true.mp h c hmem] at hc
  cases hc

theorem isName_kind (k : Kind) : isName k.name = true := by cases k <;> rfl

theorem isName_rule (r : Rule) : isName r.name = true := by cases r <;> rfl

/-- A line ends with the name of a kind, and stays one line if what is before it does. -/
theorem line_of_isName {t kind : Text} (ht : '\n' ∉ t) (hkind : isName kind = true) :
    '\n' ∉ t ++ " | ".toList ++ kind ∧ (t ++ " | ".toList ++ kind).getLast? ≠ some '\r' := by
  have hnewline : '\n' ∉ " | ".toList ++ kind := by
    rw [List.mem_append, not_or]
    exact ⟨by decide, not_mem_of_isName hkind rfl⟩
  have hreturn : '\r' ∉ " | ".toList ++ kind := by
    rw [List.mem_append, not_or]
    exact ⟨by decide, not_mem_of_isName hkind rfl⟩
  have hnonempty : " | ".toList ++ kind ≠ [] := List.append_ne_nil_of_left_ne_nil (by decide) kind
  rw [List.append_assoc]
  refine ⟨?_, fun hlast => hreturn (List.mem_of_getLast? ?_)⟩
  · rw [List.mem_append, not_or]
    exact ⟨ht, hnewline⟩
  · rwa [List.getLast?_append_of_ne_nil _ hnonempty] at hlast

/-- A listing has a line for every entry if no label goes past the end of one. -/
theorem lines_listing {es : List Entry} (h : ∀ e ∈ es, '\n' ∉ e.label ∧ isName e.kind = true) :
    (listing es).lines = es.map Entry.shown := by
  rw [← show (es.map Entry.shown).flatMap (· ++ ['\n']) = listing es from List.flatMap_map ..]
  refine Text.lines_terminated fun t ht => ?_
  obtain ⟨e, he, rfl⟩ := List.mem_map.mp ht
  refine line_of_isName ?_ (h e he).2
  simp [List.mem_replicate, (h e he).1]

/-- Lines that are read one by one. -/
theorem mapM_lines {α β : Type} {line : α → Text} {read? : Text → Option β} {value : α → β}
    {xs : List α} (h : ∀ x ∈ xs, read? (line x) = some (value x)) :
    (xs.map line).mapM read? = some (xs.map value) := by
  induction xs with
  | nil => rfl
  | cons x xs ih =>
    rw [List.forall_mem_cons] at h
    rw [List.map_cons, List.mapM_cons, h.1, ih h.2]
    rfl

end Lines

section Nesting

/-- What a dump shows of a tree: the rule of every node, and the text and the kind of every leaf. -/
inductive Shape where
  | leaf (text kind : Text)
  | node (rule : Rule) (children : List Shape)

mutual

def shape : Tree → Shape
  | .leaf t => .leaf t.text t.kind.name
  | .node rule first rest => .node rule (shape first :: shapes rest)

def shapes : List Tree → List Shape
  | [] => []
  | t :: ts => shape t :: shapes ts

end

def rules : List Rule :=
  [.program, .statement, .declaration, .typeClause, .assignment, .conditional, .alternative, .loop,
    .callStatement, .block, .expression, .or, .and, .equality, .comparison, .additive,
    .multiplicative, .unary, .primary, .call, .arguments, .error]

/-- The rule with a name. The categories of tokens have other names. -/
def ruleOf? (name : Text) : Option Rule := rules.find? (·.name == name)

theorem ruleOf?_rule (r : Rule) : ruleOf? r.name = some r := by cases r <;> rfl

/-- No category of tokens has the name of a rule, so leaves are told from nodes. -/
theorem ruleOf?_kind (k : Kind) : ruleOf? k.name = none := by cases k <;> rfl

def Entry.over (e : Entry) (children : List Shape) : Shape :=
  match ruleOf? e.kind with
  | some rule => .node rule children
  | none => .leaf e.label e.kind

/-- Puts an entry before the trees that are read from those behind it: the ones that are deeper, up
to the first that is not, are its children. -/
def grow (e : Entry) (read : List (Nat × Shape)) : List (Nat × Shape) :=
  (e.depth, e.over ((read.takeWhile (e.depth < ·.1)).map Prod.snd)) ::
    read.dropWhile (e.depth < ·.1)

def root? : List (Nat × Shape) → Option Shape
  | [(_, s)] => some s
  | _ => none

def readTree? (t : Text) : Option Shape :=
  (t.lines.mapM entryOf?).bind fun es => root? (es.foldr grow [])

theorem over_shapes (depth : Nat) (t : Tree) :
    (entry depth t).over (shapes t.children) = shape t := by
  rw [Entry.over]
  cases t with
  | leaf t =>
    rw [show ruleOf? (entry depth (.leaf t)).kind = none from ruleOf?_kind t.kind]
    rfl
  | node rule first rest =>
    rw [show ruleOf? (entry depth (.node rule first rest)).kind = some rule from ruleOf?_rule rule]
    rfl

/-- No tree that is read next is deeper than `depth`. -/
def Beside (depth : Nat) (read : List (Nat × Shape)) : Prop := ∀ p ∈ read.head?, p.1 ≤ depth

/-- Trees at the same depth are not below each other. -/
theorem Beside.siblings {depth : Nat} {read : List (Nat × Shape)} (h : Beside depth read)
    (ss : List Shape) : Beside depth (ss.map (Prod.mk depth) ++ read) := by
  cases ss with
  | nil => exact h
  | cons s ss =>
    intro p hp
    cases hp
    exact Nat.le_refl depth

/-- The entry of a tree is put above its children and before what is not deeper. -/
theorem grow_entry {depth : Nat} {read : List (Nat × Shape)} (t : Tree) (h : Beside depth read) :
    grow (entry depth t) ((shapes t.children).map (Prod.mk (depth + 1)) ++ read) =
      (depth, shape t) :: read := by
  have hdepth : (entry depth t).depth = depth := by cases t <;> rfl
  have hdeeper : ∀ p ∈ (shapes t.children).map (Prod.mk (depth + 1)), decide (depth < p.1) = true := by
    intro p hp
    obtain ⟨s, -, rfl⟩ := List.mem_map.mp hp
    exact decide_eq_true (Nat.lt_succ_self depth)
  have hread : read.takeWhile (depth < ·.1) = [] ∧ read.dropWhile (depth < ·.1) = read := by
    cases read with
    | nil => exact ⟨rfl, rfl⟩
    | cons p read =>
      have hp : ¬decide (depth < p.1) = true := by simpa using h p rfl
      exact ⟨List.takeWhile_cons_of_neg hp, List.dropWhile_cons_of_neg hp⟩
  have hchildren : ((shapes t.children).map (Prod.mk (depth + 1))).map Prod.snd = shapes t.children := by
    rw [List.map_map]
    exact List.map_id _
  rw [grow, hdepth, List.takeWhile_append_of_pos hdeeper, List.dropWhile_append_of_pos hdeeper,
    hread.1, hread.2, List.append_nil, hchildren, over_shapes]

mutual

/-- The entries of a tree are read as one tree before those behind it. -/
theorem foldr_grow (depth : Nat) : ∀ (t : Tree) (read : List (Nat × Shape)), Beside depth read →
    ((t.preorder depth).map fun (depth, t) => entry depth t).foldr grow read =
      (depth, shape t) :: read
  | .leaf t, read, h => grow_entry (.leaf t) h
  | .node rule first rest, read, h => by
    have hbelow : Beside (depth + 1) read := fun p hp => Nat.le_succ_of_le (h p hp)
    rw [Tree.preorder, List.map_cons, List.map_append, List.foldr_cons, List.foldr_append,
      foldr_growAll (depth + 1) rest read hbelow, foldr_grow (depth + 1) first _ (hbelow.siblings _)]
    exact grow_entry (.node rule first rest) h

theorem foldr_growAll (depth : Nat) : ∀ (ts : List Tree) (read : List (Nat × Shape)),
    Beside depth read →
      ((Tree.preorderAll depth ts).map fun (depth, t) => entry depth t).foldr grow read =
        (shapes ts).map (Prod.mk depth) ++ read
  | [], _, _ => rfl
  | t :: ts, read, h => by
    rw [Tree.preorderAll, List.map_append, List.foldr_append, foldr_growAll depth ts read h,
      foldr_grow depth t _ (h.siblings _)]
    rfl

end

end Nesting

section Tokens

def tokenLine (t : Token) : Text := "Token: ".toList ++ t.text ++ " | ".toList ++ t.kind.name

/-- Takes the line of a token apart into its text and the name of its kind. -/
def readToken? (line : Text) : Option (Text × Text) :=
  if "Token: ".toList.isPrefixOf line then cut? (line.drop "Token: ".toList.length) else none

theorem readToken?_line (t : Token) : readToken? (tokenLine t) = some (t.text, t.kind.name) := by
  have hline : tokenLine t = "Token: ".toList ++ (t.text ++ " | ".toList ++ t.kind.name) := by
    unfold tokenLine
    rw [List.append_assoc, List.append_assoc, List.append_assoc]
  have hlead : "Token: ".toList.isPrefixOf (tokenLine t) = true := by
    rw [List.isPrefixOf_iff_prefix, hline]
    exact List.prefix_append _ _
  rw [readToken?, if_pos hlead, hline, List.drop_left]
  exact cut?_label t.text (not_mem_of_isName (isName_kind t.kind) rfl)

def readTokens? (t : Text) : Option (List (Text × Text)) := t.lines.mapM readToken?

variable {ts : List Token}

theorem tokens_eq_lines (ts : List Token) : (tokens ts).flatten =
    ((ts.filter (·.kind ≠ .eof)).map tokenLine).flatMap (· ++ ['\n']) := by
  have hline (t : Token) : (tokenPieces t).flatten = tokenLine t ++ ['\n'] := by
    unfold tokenPieces tokenLine
    rw [List.flatten_cons, List.flatten_cons, List.flatten_cons, List.flatten_cons,
      List.flatten_singleton, List.append_assoc, List.append_assoc, List.append_assoc]
  rw [tokens, pieces_eq (writeTokens_writes ts), flatten_pieces hline, List.flatMap_map]

/-- The dump has a line for every token but the end, if no token is spread over lines. -/
theorem lines_tokens (h : ∀ t ∈ ts, '\n' ∉ t.text) :
    Text.lines (tokens ts).flatten = (ts.filter (·.kind ≠ .eof)).map tokenLine := by
  rw [tokens_eq_lines]
  refine Text.lines_terminated fun line hline => ?_
  obtain ⟨t, ht, rfl⟩ := List.mem_map.mp hline
  refine line_of_isName ?_ (isName_kind t.kind)
  rw [List.mem_append, not_or]
  exact ⟨by decide, h t (List.mem_filter.mp ht).1⟩

theorem readTokens?_tokens (h : ∀ t ∈ ts, '\n' ∉ t.text) : readTokens? (tokens ts).flatten =
    some ((ts.filter (·.kind ≠ .eof)).map fun t => (t.text, t.kind.name)) := by
  rw [readTokens?, lines_tokens h]
  exact mapM_lines fun t _ => readToken?_line t

end Tokens

section Trees

variable {t : Tree}

theorem isName_entry (depth : Nat) (t : Tree) : isName (entry depth t).kind = true := by
  cases t with
  | leaf t => exact isName_kind t.kind
  | node rule first rest => exact isName_rule rule

theorem newline_not_mem_label (h : ∀ u ∈ t.leaves, '\n' ∉ u.text) {depth : Nat} {part : Tree}
    (hpart : (depth, part) ∈ t.preorder 1) : '\n' ∉ (entry depth part).label := by
  cases part with
  | node rule first rest => exact not_mem_of_isName (isName_rule rule) rfl
  | leaf u => exact h u ((t.leaves_preorder 1 _ hpart).subset (List.mem_singleton.mpr rfl))

theorem lines_tree (h : ∀ u ∈ t.leaves, '\n' ∉ u.text) :
    Text.lines (tree t).flatten = (t.preorder 1).map fun (depth, part) => (entry depth part).shown := by
  rw [tree_eq_listing, lines_listing, List.map_map]
  · rfl
  · intro e he
    obtain ⟨⟨depth, part⟩, hpart, rfl⟩ := List.mem_map.mp he
    exact ⟨newline_not_mem_label h hpart, isName_entry depth part⟩

/-- The tree is read from its dump by the depths of the entries. -/
theorem readTree?_tree (h : ∀ u ∈ t.leaves, '\n' ∉ u.text) :
    readTree? (tree t).flatten = some (shape t) := by
  have hread : (Text.lines (tree t).flatten).mapM entryOf? =
      some ((t.preorder 1).map fun (depth, part) => entry depth part) := by
    rw [lines_tree h]
    exact mapM_lines fun p _ => entryOf?_shown (not_mem_of_isName (isName_entry p.1 p.2) rfl)
  rw [readTree?, hread, Option.bind_some, foldr_grow 1 t [] (by intro p hp; cases hp)]
  rfl

end Trees

end Dump

/-- The dumps of a text have a line for every significant token but the end, and for every node of its
tree from the root down. The tokens and the tree can be read from them alone, so two texts with the
same dump have trees of the same shape. -/
theorem dumps_read_back (source : Source) :
    (Text.lines (Dump.tokens (Lexer.start source).tokenize.tokens).flatten =
        ((Lexer.start source).tokenize.tokens.filter (·.kind ≠ .eof)).map Dump.tokenLine ∧
      Dump.readTokens? (Dump.tokens (Lexer.start source).tokenize.tokens).flatten =
        some (((Lexer.start source).tokenize.tokens.filter (·.kind ≠ .eof)).map fun t =>
          (t.text, t.kind.name))) ∧
    ∀ tree, (parse (Lexer.start source).tokenize.tokens).tree = some tree →
      Text.lines (Dump.tree tree).flatten =
        (tree.preorder 1).map (fun (depth, part) => (Dump.entry depth part).shown) ∧
      Dump.readTree? (Dump.tree tree).flatten = some (Dump.shape tree) ∧
      ∀ (source' : Source) (tree' : Tree),
        (parse (Lexer.start source').tokenize.tokens).tree = some tree' →
        (Dump.tree tree').flatten = (Dump.tree tree).flatten → Dump.shape tree' = Dump.shape tree := by
  have hflat (source : Source) : ∀ t ∈ (Lexer.start source).tokenize.tokens, '\n' ∉ t.text :=
    fun t ht => Lexer.newline_not_mem ht
  refine ⟨⟨Dump.lines_tokens (hflat source), Dump.readTokens?_tokens (hflat source)⟩,
    fun tree h => ?_⟩
  have hleaves := Grammar.leaves_eq_tokens h
  have hread := Dump.readTree?_tree (hleaves ▸ hflat source)
  refine ⟨Dump.lines_tree (hleaves ▸ hflat source), hread, fun source' tree' h' hdump => ?_⟩
  have hread' := Dump.readTree?_tree (Grammar.leaves_eq_tokens h' ▸ hflat source')
  rw [hdump, hread] at hread'
  exact (Option.some.inj hread').symm

/-- A text with a separator within a string, tokens that are skipped, among them marks and bars, and a
carriage return. -/
theorem dumps_read_back_skipped :
    let source : Source := ⟨[], "f(\"a | b\");\r\n >|| é".toList⟩
    Dump.readTokens? (Dump.tokens (Lexer.start source).tokenize.tokens).flatten =
        some ([("f", "IDENT"), ("(", "LPAREN"), ("\"a | b\"", "STRING"), (")", "RPAREN"),
          (";", "SEMI"), (">", "OP"), ("||", "OP"), ("é", "UNKNOWN")].map fun p =>
            (p.1.toList, p.2.toList)) ∧
    ∃ tree, (parse (Lexer.start source).tokenize.tokens).tree = some tree ∧
      (Text.lines (Dump.tree tree).flatten).length = (tree.preorder 1).length ∧
      Dump.readTree? (Dump.tree tree).flatten = some (Dump.shape tree) := by
  intro source
  have htokens : (Lexer.start source).tokens = ((Lexer.start source).advance 24).1 :=
    Lexer.tokens_eq_advance (by decide)
  have hsome : (parse (Lexer.start source).tokenize.tokens).tree.isSome = true := by
    rw [Lexer.tokenize, htokens]
    decide +kernel
  obtain ⟨tree, htree⟩ := Option.isSome_iff_exists.mp hsome
  obtain ⟨⟨-, hreadTokens⟩, hdump⟩ := dumps_read_back source
  obtain ⟨hlines, hreadTree, -⟩ := hdump tree htree
  refine ⟨?_, tree, htree, ?_, hreadTree⟩
  · rw [hreadTokens, Lexer.tokenize, htokens]
    decide +kernel
  · rw [hlines, List.length_map]

end ImpC
