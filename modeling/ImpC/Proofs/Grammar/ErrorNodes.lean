import ImpC.Proofs.Token.Partition
import ImpC.Proofs.Grammar.Acceptance
import ImpC.Proofs.Grammar.Braces
import ImpC.Proofs.Layout

/-!
# Nodes of skipped tokens and errors

A statement that is given up leaves one node of skipped tokens and at least one error, and nothing
else leaves either. Tokens that no rule mentions are in such nodes only, so a text with an error of
its characters has an error of its grammar as well.
-/
namespace ImpC

/-- The root of the tree stands for tokens that were stepped over. -/
def Tree.isErrorNode : Tree → Bool
  | .node .error _ _ => true
  | _ => false

@[simp] theorem Tree.preorderAll_append (depth : Nat) (s t : List Tree) :
    preorderAll depth (s ++ t) = preorderAll depth s ++ preorderAll depth t := by
  induction s with
  | nil => rfl
  | cons a s ih => simp [preorderAll, ih]

theorem Tree.preorderAll_map_leaf (depth : Nat) (ts : List Token) :
    preorderAll depth (ts.map .leaf) = ts.map fun t => (depth, .leaf t) := by
  induction ts with
  | nil => rfl
  | cons t ts ih => simp [preorderAll, preorder, ih]

namespace Grammar

open ImpC.Parser

variable {skips : List Token → Prop} {α : Type}

/-- There are at least as many mistakes as nodes of skipped tokens, and none without such a node. -/
structure Accounted (mistakes : List Stuck) (nodes : List Tree) : Prop where
  length_le : nodes.length ≤ mistakes.length
  eq_nil : nodes = [] → mistakes = []

theorem accounted_nil : Accounted [] [] := ⟨Nat.le_refl _, fun _ => rfl⟩

theorem Accounted.append {ms ms' : List Stuck} {nodes nodes' : List Tree} (h : Accounted ms nodes)
    (h' : Accounted ms' nodes') : Accounted (ms ++ ms') (nodes ++ nodes') := by
  constructor
  · rw [List.length_append, List.length_append]
    exact Nat.add_le_add h.length_le h'.length_le
  · intro hnil
    rw [List.append_eq_nil_iff] at hnil ⊢
    exact ⟨h.eq_nil hnil.1, h'.eq_nil hnil.2⟩

/-- If the reading succeeds, its mistakes and the nodes of skipped tokens in its result match. -/
def Accounts (nodes : α → List Tree) (r : Reading α) : Prop :=
  ReadingOutcome (fun ms a _ => Accounted ms (nodes a)) (fun _ => True) r

/-- Each statement that is stepped over adds a node and a mistake. -/
theorem recovering_accounts {p : List Token → Reading Tree}
    (hp : ∀ ts, Accounts Tree.errorNodes (p ts)) (ts : List Token) :
    Accounts Tree.errorNodes (recovering p ts) := by
  cases ts with
  | nil => exact hp []
  | cons t ts =>
    have hread := hp (t :: ts)
    rw [recovering]
    cases hx : (p (t :: ts)).result with
    | ok y => simpa only [hx] using hread
    | error s =>
      dsimp only
      split
      · simp only [Accounts, ReadingOutcome, hx, Outcome]
      · -- the mistake at which the statement got stuck accounts for the one new node
        exact ⟨by simp [Tree.errorNodes], by simp [Tree.errorNodes]⟩

theorem statements_accounts {p : List Token → Reading Tree}
    (hp : ∀ ts, Accounts Tree.errorNodes (p ts)) (stops : Kind → Bool) (bound : Nat)
    (ts : List Token) : Accounts Tree.errorNodesAll (statements p stops bound ts) := by
  induction bound generalizing ts with
  | zero => exact .done accounted_nil
  | succ bound ih =>
    cases ts with
    | nil => exact .done accounted_nil
    | cons t ts =>
      rw [statements]
      split
      · exact .done accounted_nil
      · refine (recovering_accounts hp (t :: ts)).andThen ?_ (fun _ h => h)
        intro ms first ts₁ hfirst
        refine (ih ts₁).andThen ?_ (fun _ h => h)
        intro ms' more ts₂ hmore
        exact .done (by simpa [Tree.errorNodesAll] using hfirst.append hmore)

theorem block_accounts {p : List Token → Reading Tree}
    (hp : ∀ ts, Accounts Tree.errorNodes (p ts)) (bound : Nat) (ts : List Token) :
    Accounts Tree.errorNodes (block bound p ts) := by
  refine (ReadingOutcome.of (exactly_outcome .openCurly ts)).andThen ?_ (fun _ _ => trivial)
  rintro _ _ ts₁ ⟨rfl, opening, -, rfl, -⟩
  refine (statements_accounts hp (· = .closeCurly) bound ts₁).andThen ?_ (fun _ h => h)
  intro ms body ts₂ hbody
  refine (ReadingOutcome.of (exactly_outcome .closeCurly ts₂)).andThen ?_ (fun _ _ => trivial)
  rintro _ _ ts₃ ⟨rfl, closing, -, rfl, -⟩
  exact .done (by simpa [Tree.errorNodes, Tree.errorNodesAll] using hbody)

/-- The nodes of skipped tokens in a statement are those of its blocks. -/
theorem Course.accounts {b : List Token → Reading Tree}
    (hb : ∀ ts, Accounts Tree.errorNodes (b ts)) {before : List Tree} {ts : List Token}
    {r : Reading Tree} (h : Course b before ts r) {ms : List Stuck}
    (hbefore : Accounted ms (Tree.errorNodesAll before)) :
    ReadingOutcome (fun ms' tree _ => Accounted (ms ++ ms') tree.errorNodes) (fun _ => True) r := by
  induction h generalizing ms with
  | stuck => trivial
  | done hnodes | semicolon _ hnodes =>
    refine .done ?_
    rw [List.append_nil, hnodes]
    exact hbefore
  | plain _ _ ih => exact ih hbefore
  | @block before ts next _ _ ih =>
    refine (hb ts).result.andThen ?_ (fun _ h => h)
    rintro ms' body rest ⟨hx, hbody⟩
    have hblocks : Accounted (ms ++ ms') (Tree.errorNodesAll (before ++ [body])) := by
      simpa [Tree.errorNodesAll] using hbefore.append hbody
    simpa only [List.append_assoc] using ih body rest hx hblocks

theorem statement_accounts (bound : Nat) (ts : List Token) :
    Accounts Tree.errorNodes (statement bound ts) := by
  induction bound generalizing ts with
  | zero => trivial
  | succ bound ih => exact (statement_course bound ts).accounts (block_accounts ih bound) accounted_nil

theorem program_accounts (bound : Nat) (ending : Option Token) (ts : List Token) :
    Accounts Tree.errorNodes (program bound ending ts) := by
  have hstatement := statement_accounts bound
  refine (recovering_accounts hstatement ts).andThen ?_ (fun _ h => h)
  intro ms first ts₁ hfirst
  refine (statements_accounts hstatement _ bound ts₁).andThen ?_ (fun _ h => h)
  intro ms' more ts₂ hmore
  refine .done ?_
  rw [errorNodes_program]
  simpa [Tree.errorNodesAll] using hfirst.append hmore

/-- The errors found on the way to a tree and its nodes of skipped tokens match. -/
theorem parse_accounted {tokens : List Token} {tree : Tree}
    (h : (parse tokens).tree = some tree) :
    tree.errorNodes.length ≤ (parse tokens).errors.length ∧
      (tree.errorNodes = [] → (parse tokens).errors = []) := by
  have hprogram := program_accounts ((body tokens).length + 1) (ending? tokens) (body tokens)
  unfold parse at h ⊢
  dsimp only at h ⊢
  split at h
  · cases h
  · rename_i hbody
    rw [if_neg hbody]
    cases hr : (program ((body tokens).length + 1) (ending? tokens) (body tokens)).result with
    | error s =>
      rw [hr] at h
      cases h
    | ok y =>
      rw [hr] at h
      obtain rfl : y.1 = tree := by simpa using h
      simp only [Accounts, ReadingOutcome, hr, Outcome] at hprogram
      exact ⟨by simpa using hprogram.length_le, by simpa using hprogram.eq_nil⟩

/-- Among the subtrees of derived trees the nodes of skipped tokens are the ones in `errorNodes`:
there is none inside another. -/
theorem Derives.errorNodes_preorder {p : Phrase} {trees : List Tree} (h : Derives skips p trees)
    (depth : Nat) :
    ((Tree.preorderAll depth trees).filter (·.2.isErrorNode)).map (·.2) =
      Tree.errorNodesAll trees := by
  induction h generalizing depth with
  | token => simp [Tree.preorderAll, Tree.preorder, Tree.isErrorNode, Tree.errorNodesAll,
      Tree.errorNodes]
  | @node r first rest h ih =>
    have hr : r ≠ .error := by
      rintro rfl
      obtain ⟨t, ht, -⟩ := derives_oneOf.mp h
      cases ht
    have hroot : (Tree.node r first rest).isErrorNode = false := by
      cases r with
      | error => exact absurd rfl hr
      | _ => rfl
    have hchildren := ih (depth + 1)
    simpa [Tree.preorderAll, Tree.preorder, hroot, Tree.errorNodesAll, Tree.errorNodes_node hr]
      using hchildren
  | skipped => simp [Tree.preorderAll, Tree.preorder, Tree.preorderAll_map_leaf,
      Tree.isErrorNode, Tree.errorNodesAll, Tree.errorNodes]
  | empty | none => rfl
  | seq _ _ ih ih' | more _ _ ih ih' =>
    rw [Tree.preorderAll_append, List.filter_append, List.map_append, ih, ih',
      Tree.errorNodesAll_append]
  | first _ ih | second _ ih => exact ih depth

/-- The kinds of tokens that rules mention. -/
def isMentioned : Kind → Bool
  | .unknown | .whitespace | .comment => false
  | _ => true

/-- No rule has layout or unknown characters in it. -/
theorem production_mentioned (r : Rule) :
    (production r).within isMentioned (fun _ => true) = true := by
  cases r <;> rfl

theorem Derives.leaf_mentioned {p : Phrase} {trees : List Tree} (h : Derives skips p trees)
    (hp : p.within isMentioned (fun _ => true) = true) :
    ∀ t, .leaf t ∈ trees → isMentioned t.kind = true := by
  induction h with
  | @token kinds u hu =>
    intro t ht
    obtain rfl : t = u := by simpa using ht
    exact List.all_eq_true.mp hp _ hu
  | node | skipped | empty | none => simp
  | seq _ _ ih ih' =>
    simp only [Phrase.within, Bool.and_eq_true] at hp
    intro t ht
    exact (List.mem_append.mp ht).elim (ih hp.1 t) (ih' hp.2 t)
  | first _ ih =>
    simp only [Phrase.within, Bool.and_eq_true] at hp
    exact ih hp.1
  | second _ ih =>
    simp only [Phrase.within, Bool.and_eq_true] at hp
    exact ih hp.2
  | more _ _ ih ih' =>
    intro t ht
    exact (List.mem_append.mp ht).elim (ih hp t) (ih' hp t)

/-- A token that no rule mentions is a child of a node of skipped tokens only. -/
theorem Derives.parent_skipped {p : Phrase} {trees : List Tree} (h : Derives skips p trees)
    (depth : Nat) : ∀ node ∈ Tree.preorderAll depth trees, ∀ t, .leaf t ∈ node.2.children →
      isMentioned t.kind = false → node.2.isErrorNode = true := by
  induction h generalizing depth with
  | token => simp [Tree.preorderAll, Tree.preorder, Tree.children]
  | @node r first rest h ih =>
    intro node hnode t ht hkind
    rw [Tree.preorderAll, Tree.preorderAll, List.append_nil, Tree.preorder, List.mem_cons] at hnode
    rcases hnode with rfl | hnode
    · rw [h.leaf_mentioned (production_mentioned r) t ht] at hkind
      cases hkind
    · exact ih (depth + 1) node hnode t ht hkind
  | skipped =>
    intro node hnode t ht _
    rw [Tree.preorderAll, Tree.preorderAll, List.append_nil, Tree.preorder, Tree.preorder,
      Tree.preorderAll_map_leaf, List.mem_cons, List.mem_append, List.mem_singleton] at hnode
    rcases hnode with rfl | rfl | hnode
    · rfl
    · cases ht
    · obtain ⟨u, -, rfl⟩ := List.mem_map.mp hnode
      cases ht
  | empty | none => simp [Tree.preorderAll]
  | seq _ _ ih ih' | more _ _ ih ih' =>
    intro node hnode
    rw [Tree.preorderAll_append, List.mem_append] at hnode
    exact hnode.elim (ih depth node) (ih' depth node)
  | first _ ih | second _ ih => exact ih depth

theorem preorder_program (first : Tree) (more : List Tree) (ending : Option Token) :
    (Tree.node .program first (more ++ ending.toList.map .leaf)).preorder 0 =
      (0, .node .program first (more ++ ending.toList.map .leaf)) ::
        (Tree.preorderAll 1 (first :: more) ++ ending.toList.map fun t => (1, .leaf t)) := by
  rw [Tree.preorder, Tree.preorderAll_append, Tree.preorderAll_map_leaf, Tree.preorderAll,
    List.append_assoc]

/-- The statements of a tree that was read, with any tokens skipped between them. -/
theorem parse_derives {tokens : List Token} {tree : Tree} (h : (parse tokens).tree = some tree) :
    ∃ first more, tree = .node .program first (more ++ (ending? tokens).toList.map .leaf) ∧
      Derives (fun _ => True) (.many (.rule .statement)) (first :: more) := by
  obtain ⟨first, more, htree, -, hall⟩ := parse_tree h
  exact ⟨first, more, htree, derives_many_rule.mpr (hall _ fun _ _ _ => trivial)⟩

/-- The nodes of skipped tokens are found in preorder from left to right. -/
theorem parse_errorNodes {tokens : List Token} {tree : Tree}
    (h : (parse tokens).tree = some tree) :
    ((tree.preorder 0).filter (·.2.isErrorNode)).map (·.2) = tree.errorNodes := by
  obtain ⟨first, more, rfl, hd⟩ := parse_derives h
  have hending : ((ending? tokens).toList.map fun t => ((1, .leaf t) : Nat × Tree)).filter
      (·.2.isErrorNode) = [] := by
    cases ending? tokens <;> rfl
  rw [preorder_program, List.filter_cons_of_neg (by simp [Tree.isErrorNode]), List.filter_append,
    hending, List.append_nil, hd.errorNodes_preorder, errorNodes_program]

/-- A token that no rule mentions is below a node of skipped tokens. -/
theorem parse_parent_skipped {tokens : List Token} {tree : Tree}
    (h : (parse tokens).tree = some tree) : ∀ node ∈ tree.preorder 0, ∀ t,
      .leaf t ∈ node.2.children → isMentioned t.kind = false → node.2.isErrorNode = true := by
  obtain ⟨first, more, rfl, hd⟩ := parse_derives h
  intro node hnode t ht hkind
  rw [preorder_program, List.mem_cons, List.mem_append] at hnode
  rcases hnode with rfl | hnode | hnode
  · -- a leaf at the top is the end of the text
    have hleaf : Tree.leaf t ∈ first :: more ∨ t ∈ (ending? tokens).toList := by
      simpa [Tree.children, or_assoc] using ht
    rcases hleaf with hleaf | hleaf
    · rw [hd.leaf_mentioned rfl t hleaf] at hkind
      cases hkind
    · have heof : t.kind = .eof := by
        simpa using List.find?_some (Option.mem_toList.mp hleaf)
      rw [heof] at hkind
      cases hkind
  · exact hd.parent_skipped 1 node hnode t ht hkind
  · obtain ⟨u, -, rfl⟩ := List.mem_map.mp hnode
    cases ht

theorem exists_tree {tokens : List Token} (h : (parse tokens).errors = []) :
    ∃ tree, (parse tokens).tree = some tree := by
  rcases parse_cases tokens with ⟨-, hparse⟩ | ⟨-, tree, errors, hparse, -⟩ |
    ⟨-, errors, expected, hparse, -⟩
  · rw [hparse] at h
    cases h
  · exact ⟨tree, by rw [hparse]⟩
  · rw [hparse] at h
    exact absurd h (by simp)

/-- Without errors there is no token that no rule mentions. -/
theorem body_mentioned {tokens : List Token} (h : (parse tokens).errors = []) :
    ∀ t ∈ body tokens, isMentioned t.kind = true := by
  obtain ⟨tree, htree⟩ := exists_tree h
  obtain ⟨first, more, -, hleaves, hall⟩ := parse_tree htree
  have hd : Derivation (.many (.rule .statement)) (first :: more) :=
    derives_many_rule.mpr (hall _ fun hne => absurd h hne)
  rw [← hleaves]
  exact hd.leaves_within (fun r _ => production_mentioned r) (fun _ _ hskips => hskips.elim) rfl

end Grammar

namespace Lexer

/-- A token is a lexical error if and only if its kind is unknown. -/
theorem fault?_isSome {t : Token} (h : t.text ≠ []) :
    (fault? t).isSome = true ↔ t.kind = .unknown := by
  obtain ⟨kind, text, place⟩ := t
  obtain ⟨c, more, rfl⟩ := List.exists_cons_of_ne_nil h
  unfold fault?
  split <;> simp_all

/-- Of the tokens kept, the last is the end of the text, and those before it are not empty. -/
theorem tokenize_split (source : Source) :
    ∃ ts last, (start source).tokenize.tokens = ts ++ [last] ∧ last.kind = .eof ∧
      ∀ t ∈ ts, t.kind ≠ .eof ∧ t.text ≠ [] := by
  obtain ⟨all, last, htokens, hlast, -, hall, -, -⟩ := (start_at source).tokens rfl
  refine ⟨all.filter (!·.kind.isIgnorable), last, ?_, hlast, fun t ht => ?_⟩
  · rw [tokenize, htokens, List.filter_append]
    simp [hlast, Kind.isIgnorable]
  · exact hall t (List.mem_filter.mp ht).1

theorem tokenize_body {source : Source} {t : Token} (ht : t ∈ (start source).tokenize.tokens)
    (h : t.kind ≠ .eof) : t ∈ Parser.body (start source).tokenize.tokens := by
  obtain ⟨ts, last, htokens, hlast, hts⟩ := tokenize_split source
  rw [htokens] at ht ⊢
  have hbody : Parser.body (ts ++ [last]) = ts := by
    rw [Parser.body, List.takeWhile_append_of_pos fun u hu => by simpa using (hts u hu).1]
    simp [hlast]
  rw [hbody]
  rcases List.mem_append.mp ht with ht | ht
  · exact ht
  · rw [List.mem_singleton.mp ht] at h
    exact absurd hlast h

/-- The errors of a text are at its tokens of no known kind. -/
theorem tokenize_errors (source : Source) :
    0 < (start source).tokenize.errors.length ↔
      ∃ t ∈ (start source).tokenize.tokens, t.kind = .unknown := by
  obtain ⟨ts, last, htokens, hlast, hts⟩ := tokenize_split source
  have hfault : ∀ t ∈ ts ++ [last], (fault? t).isSome = true ↔ t.kind = .unknown := by
    intro t ht
    rcases List.mem_append.mp ht with ht | ht
    · exact fault?_isSome (hts t ht).2
    · rw [List.mem_singleton.mp ht]
      simp [fault?, hlast]
  have herrors : (start source).tokenize.errors = (ts ++ [last]).filterMap fault? := by
    rw [← htokens]
    rfl
  rw [herrors, htokens, List.length_pos_iff_exists_mem]
  constructor
  · rintro ⟨e, he⟩
    obtain ⟨t, ht, hsome⟩ := List.mem_filterMap.mp he
    exact ⟨t, ht, (hfault t ht).mp (by rw [hsome]; rfl)⟩
  · rintro ⟨t, ht, hkind⟩
    obtain ⟨e, he⟩ := Option.isSome_iff_exists.mp ((hfault t ht).mpr hkind)
    exact ⟨e, List.mem_filterMap.mpr ⟨t, ht, he⟩⟩

end Lexer

/-- Errors of one stage count for that stage. -/
theorem Diagnostic.count_map {α : Type} (of : α → Diagnostic) {own : Stage}
    (h : ∀ e, (of e).stage = own) (stage : Stage) (es : List α) :
    Diagnostic.count stage (es.map of) = if own = stage then es.length else 0 := by
  have hstage : ((fun d : Diagnostic => decide (d.stage = stage)) ∘ of) =
      fun _ => decide (own = stage) := by
    funext e
    rw [Function.comp_apply, h e]
  rw [Diagnostic.count, List.countP_map, hstage]
  split
  · rename_i heq
    simp [heq]
  · rename_i hne
    simp [hne]

/-- The numbers of errors that a compilation gives are those of its first two stages. -/
theorem compile_counts (source : Source) (strict : Bool) :
    let k := compile source.name source.text strict
    let lexed := (Lexer.start source).tokenize
    k.tokens = lexed.tokens ∧ k.lexerErrors = lexed.errors.length ∧
      k.parserErrors = (parse lexed.tokens).errors.length ∧
      Diagnostic.count .parser k.diagnostics = k.parserErrors := by
  have hlexical := Diagnostic.count_map .ofLexical (fun _ => rfl) .parser
  have hsyntactic := Diagnostic.count_map .ofSyntactic (fun _ => rfl) .parser
  have hsemantic := Diagnostic.count_map .ofSemantic (fun _ => rfl) .parser
  have hemission := Diagnostic.count_map .ofEmission (fun _ => rfl) .parser
  unfold Diagnostic.count at *
  rw [compile]
  cases (parse (Lexer.start source).tokenize.tokens).tree with
  | none => simp [hlexical, hsyntactic]
  | some tree => simp [hlexical, hsyntactic, hsemantic, hemission]

/-- The errors and the nodes of skipped tokens in a tree match: there are errors just if there are
such nodes, and no fewer of them, and every token that is no part of the grammar is in such a node.
So a text with an unknown character or an unterminated string has an error of its grammar. -/
theorem error_nodes_reported :
    (∀ tokens tree, (parse tokens).tree = some tree →
      ((parse tokens).errors = [] ↔ ∀ node ∈ tree.preorder 0, node.2.isErrorNode = false) ∧
      (tree.preorder 0).countP (·.2.isErrorNode) ≤ (parse tokens).errors.length ∧
      ∀ node ∈ tree.preorder 0, ∀ t, .leaf t ∈ node.2.children →
        (t.kind = .unknown ∨ t.kind = .whitespace ∨ t.kind = .comment) →
        node.2.isErrorNode = true) ∧
    ∀ name text strict,
      (0 < (compile name text strict).lexerErrors ↔
        ∃ t ∈ (compile name text strict).tokens, t.kind = .unknown) ∧
      (0 < (compile name text strict).lexerErrors →
        0 < (compile name text strict).parserErrors ∧
          0 < Diagnostic.count .parser (compile name text strict).diagnostics) := by
  constructor
  · intro tokens tree h
    obtain ⟨hle, hnil⟩ := Grammar.parse_accounted h
    have hnodes := Grammar.parse_errorNodes h
    have hcount : (tree.preorder 0).countP (·.2.isErrorNode) = tree.errorNodes.length := by
      rw [← hnodes, List.length_map, List.countP_eq_length_filter]
    have hempty : (parse tokens).errors = [] ↔ tree.errorNodes = [] := by
      refine ⟨fun he => ?_, hnil⟩
      rw [he] at hle
      exact List.length_eq_zero_iff.mp (Nat.le_zero.mp hle)
    refine ⟨?_, hcount ▸ hle, ?_⟩
    · rw [hempty, ← hnodes, List.map_eq_nil_iff, List.filter_eq_nil_iff]
      simp only [Bool.not_eq_true]
    · intro node hnode t ht hkind
      refine Grammar.parse_parent_skipped h node hnode t ht ?_
      rcases hkind with hkind | hkind | hkind <;> rw [hkind] <;> rfl
  · intro name text strict
    obtain ⟨htokens, hlexer, hparser, hcount⟩ := compile_counts ⟨name, text⟩ strict
    rw [hlexer, htokens]
    refine ⟨Lexer.tokenize_errors ⟨name, text⟩, fun h => ?_⟩
    -- without an error every token would be one that the grammar mentions
    have hpos : 0 < (compile name text strict).parserErrors := by
      obtain ⟨t, ht, hkind⟩ := (Lexer.tokenize_errors ⟨name, text⟩).mp h
      rw [hparser, List.length_pos_iff]
      intro hnone
      have hmentioned := Grammar.body_mentioned hnone t
        (Lexer.tokenize_body ht (by rw [hkind]; decide))
      rw [hkind] at hmentioned
      cases hmentioned
    exact ⟨hpos, hcount ▸ hpos⟩

/-- A character that starts no token, in a block, and a string without an end. -/
def strayTokensSource : Source := ⟨[], "\x7b x = 1 @ 2; y = x; \x7d z = \"open".toList⟩

theorem error_nodes_reported_garbled :
    (∃ tree, (parse (Lexer.start strayTokensSource).tokenize.tokens).tree = some tree ∧
      (tree.preorder 0).countP (·.2.isErrorNode) ≤
        (parse (Lexer.start strayTokensSource).tokenize.tokens).errors.length) ∧
    (parse (Lexer.start strayTokensSource).tokenize.tokens).errors.length = 2 ∧
    (compile strayTokensSource.name strayTokensSource.text false).lexerErrors = 2 ∧
    0 < (compile strayTokensSource.name strayTokensSource.text false).parserErrors := by
  have htokens : (Lexer.start strayTokensSource).tokens =
      ((Lexer.start strayTokensSource).advance 40).1 :=
    Lexer.tokens_eq_advance (by decide)
  have htokens' : (Lexer.start ⟨strayTokensSource.name, strayTokensSource.text⟩).tokens = _ :=
    htokens
  have hsome : (parse (Lexer.start strayTokensSource).tokenize.tokens).tree.isSome = true := by
    rw [Lexer.tokenize, htokens]
    decide +kernel
  have hlexer : (compile strayTokensSource.name strayTokensSource.text false).lexerErrors = 2 := by
    rw [compile, Lexer.tokenize, htokens']
    decide +kernel
  obtain ⟨tree, htree⟩ := Option.isSome_iff_exists.mp hsome
  refine ⟨⟨tree, htree, (error_nodes_reported.1 _ tree htree).2.1⟩, ?_, hlexer, ?_⟩
  · rw [Lexer.tokenize, htokens]
    decide +kernel
  · have hpos : 0 < (compile strayTokensSource.name strayTokensSource.text false).lexerErrors := by
      rw [hlexer]
      decide
    exact ((error_nodes_reported.2 _ _ _).2 hpos).1

end ImpC
