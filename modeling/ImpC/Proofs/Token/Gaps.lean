import ImpC.Proofs.Token.Lexes

/-!
# Between tokens

Blanks and comments that end with their line are passed over: the significant tokens behind them do
not depend on them. A line break is in no token but a blank one.
-/
namespace ImpC

open ImpC.C

namespace Lexical

open Pattern

theorem isSolid_blank {c : Char} (h : isBlank c = true) : isSolid c = false := by
  rcases isBlank_iff.mp h with rfl | rfl | rfl | rfl <;> decide

/-- What starts with a blank and is a word of a rule is blank altogether. -/
theorem Matched.blank_of_head {c : Char} {w : Text} (h : Matched (c :: w)) (hc : isBlank c = true) :
    c :: w ∈ whitespace.language := by
  rcases h.cases with h | h | h | h
  · exact h
  · obtain ⟨body, heq, -⟩ := mem_comment.mp h
    cases heq
    exact absurd hc (by decide)
  · obtain ⟨items, -, heq⟩ := mem_str.mp h
    cases heq
    exact absurd hc (by decide)
  · have hsolid := h c (by simp)
    rw [isSolid_blank hc] at hsolid
    cases hsolid

theorem newline_not_mem_spellings {items : List Item} (h : ∀ i ∈ items, i.IsValid) :
    '\n' ∉ Item.spellings items := by
  intro hmem
  obtain ⟨i, hi, hmem⟩ := List.mem_flatMap.mp hmem
  have hvalid := h i hi
  cases i with
  | plain c =>
    obtain rfl : '\n' = c := List.mem_singleton.mp hmem
    exact hvalid.2.2 rfl
  | escaped c =>
    obtain rfl : '\n' = c := by simpa [Item.spelling] using hmem
    exact hvalid rfl

/-- Only blanks go past the end of a line. -/
theorem Matched.blank_of_newline {w : Text} (h : Matched w) (hw : '\n' ∈ w) :
    w ∈ whitespace.language := by
  rcases h.cases with h | h | h | h
  · exact h
  · obtain ⟨body, rfl, hbody⟩ := mem_comment.mp h
    simp [hbody] at hw
  · obtain ⟨items, hitems, rfl⟩ := mem_str.mp h
    simp [newline_not_mem_spellings hitems] at hw
  · exact absurd (h '\n' hw) (by decide)

theorem classified_whitespace {w : Text} (h : w ∈ whitespace.language) : Classified w .whitespace :=
  ⟨[], whitespace, rules.tail, rfl, h, by simp⟩

theorem classified_comment {w : Text} (h : w ∈ comment.language) : Classified w .comment := by
  refine ⟨[(.whitespace, whitespace)], comment, rules.tail.tail, rfl, h, ?_⟩
  intro q hq hmem
  cases List.mem_singleton.mp hq
  obtain ⟨body, rfl, -⟩ := mem_comment.mp h
  exact absurd ((mem_whitespace.mp hmem).2 '/' (by simp)) (by decide)

theorem Classified.ne_eof {w : Text} {kind : Kind} (h : Classified w kind) : kind ≠ .eof := by
  obtain ⟨before, r, after, hrules, -⟩ := h
  have hkinds : Kind.eof ∉ rules.map (·.1) := by decide
  rintro rfl
  exact hkinds (List.mem_map.mpr ⟨(.eof, r), by simp [hrules], rfl⟩)

theorem Next.ne_eof {t w : Text} {kind : Kind} (h : Next t w kind) : kind ≠ .eof := by
  cases h with
  | longest h => exact h.classified.ne_eof
  | unknown h => decide

/-- A longer prefix has the next character of the text in it. -/
theorem mem_of_longer {w rest v : Text} {c : Char} (hv : v <+: w ++ c :: rest)
    (hlt : w.length < v.length) : w ++ [c] <+: v := by
  have hlonger : (w ++ [c]).length ≤ v.length := by
    rw [List.length_append]
    exact hlt
  exact List.prefix_of_prefix_length_le ⟨rest, by simp⟩ hv hlonger

/-- All blanks at the start of a text are one token. -/
theorem next_blanks {w rest : Text} (hw : w ∈ whitespace.language)
    (hrest : ∀ c ∈ rest.head?, isBlank c = false) : Next (w ++ rest) w .whitespace := by
  obtain ⟨hne, hall⟩ := mem_whitespace.mp hw
  refine .longest ⟨List.prefix_append _ _, hne, classified_whitespace hw, ?_⟩
  intro v hv hmatched
  by_contra hlt
  rw [Nat.not_le] at hlt
  cases rest with
  | nil =>
    have := hv.length_le
    rw [List.append_nil] at this
    omega
  | cons d rest =>
    obtain ⟨more, rfl⟩ := mem_of_longer hv hlt
    obtain ⟨c, w, rfl⟩ := List.exists_cons_of_ne_nil hne
    have hblank := (mem_whitespace.mp (hmatched.blank_of_head (hall c (by simp)))).2 d (by simp)
    rw [hrest d rfl] at hblank
    cases hblank

/-- A comment is one token up to the end of its line. -/
theorem next_comment {w rest : Text} (hw : w ∈ comment.language) :
    Next (w ++ '\n' :: rest) w .comment := by
  obtain ⟨body, heq, -⟩ := mem_comment.mp hw
  refine .longest ⟨List.prefix_append _ _, by simp [heq], classified_comment hw, ?_⟩
  intro v hv hmatched
  by_contra hlt
  rw [Nat.not_le] at hlt
  obtain ⟨more, rfl⟩ := mem_of_longer hv hlt
  have hblank := (mem_whitespace.mp (hmatched.blank_of_newline (by simp))).2 '/' (by simp [heq])
  cases hblank

end Lexical

namespace Lexer

open Lexical Pattern

variable {l : Lexer} {w rest : Text} {kind : Kind}

theorem past_past (v rest' : Text) : (l.past w rest).past v rest' = l.past (w ++ v) rest' := by
  simp [past, Nat.add_assoc]

theorem past_nil (hl : l.finished = false) : l.past [] l.rest = l := by
  obtain ⟨source, rest, offset, position, finished⟩ := l
  cases hl
  rfl

/-- The next token is kept unless it is layout. -/
theorem tokenize_of_next (hl : l.finished = false) (hrest : l.rest = w ++ rest)
    (h : Next (w ++ rest) w kind) :
    l.tokenize.tokens = (if kind.isIgnorable then [] else [l.tokenOf kind w]) ++
      (l.past w rest).tokenize.tokens := by
  have hkind : (l.tokenOf kind w).kind = kind := rfl
  rw [tokenize, tokens_of_next hl hrest h, List.filter_cons, hkind]
  cases kind.isIgnorable <;> rfl

/-- No token but the last is the end. -/
theorem filter_kept (h : Next (w ++ rest) w kind) :
    (if kind.isIgnorable then [] else [l.tokenOf kind w]).filter (·.kind ≠ .eof) =
      if kind.isIgnorable then [] else [l.tokenOf kind w] := by
  split
  · rfl
  · exact List.filter_cons_of_pos (decide_eq_true h.ne_eof)

theorem tokenize_of_nil (hl : l.finished = false) (hrest : l.rest = []) :
    l.tokenize.tokens = [l.tokenOf .eof []] := by
  rw [tokenize, tokens_of_nil hl hrest]
  rfl

theorem tokenize_run (hw : w ∈ whitespace.language) (hhead : ∀ c ∈ rest.head?, isBlank c = false)
    (hl : l.finished = false) (hrest : l.rest = w ++ rest) :
    l.tokenize.tokens = (l.past w rest).tokenize.tokens :=
  tokenize_of_next hl hrest (next_blanks hw hhead)

/-- A blank is passed over, whether or not others follow it. -/
theorem tokenize_blank {c : Char} (hc : isBlank c = true) (hl : l.finished = false)
    (hrest : l.rest = c :: rest) : l.tokenize.tokens = (l.past [c] rest).tokenize.tokens := by
  obtain ⟨more, later, rfl, hmore, hlater⟩ : ∃ more later, rest = more ++ later ∧
      (∀ d ∈ more, isBlank d = true) ∧ ∀ d ∈ later.head?, isBlank d = false := by
    refine ⟨rest.takeWhile isBlank, rest.dropWhile isBlank,
      List.takeWhile_append_dropWhile.symm, List.all_eq_true.mp List.all_takeWhile, ?_⟩
    intro d hd
    have hnot := List.head?_dropWhile_not isBlank rest
    rwa [Option.mem_def.mp hd] at hnot
  have hfirst : c :: more ∈ whitespace.language :=
    mem_whitespace.mpr ⟨List.cons_ne_nil c more, List.forall_mem_cons.mpr ⟨hc, hmore⟩⟩
  rw [tokenize_run hfirst hlater hl hrest]
  cases more with
  | nil => rfl
  | cons d more =>
    have hothers : d :: more ∈ whitespace.language :=
      mem_whitespace.mpr ⟨List.cons_ne_nil d more, hmore⟩
    have hsecond := @tokenize_run (l.past [c] (d :: more ++ later)) _ _ hothers hlater rfl rfl
    rw [hsecond, past_past, List.singleton_append]

theorem tokenize_blanks (hw : ∀ c ∈ w, isBlank c = true) (hl : l.finished = false)
    (hrest : l.rest = w ++ rest) : l.tokenize.tokens = (l.past w rest).tokenize.tokens := by
  induction w generalizing l with
  | nil =>
    rw [List.nil_append] at hrest
    rw [← hrest, past_nil hl]
  | cons c w ih =>
    rw [List.forall_mem_cons] at hw
    rw [tokenize_blank hw.1 hl hrest, ih hw.2 rfl rfl, past_past, List.singleton_append]

theorem tokenize_comment (hw : w ∈ comment.language) (hl : l.finished = false)
    (hrest : l.rest = w ++ '\n' :: rest) :
    l.tokenize.tokens = (l.past (w ++ ['\n']) rest).tokenize.tokens := by
  have hpast : l.tokenize.tokens = (l.past w ('\n' :: rest)).tokenize.tokens :=
    tokenize_of_next hl hrest (next_comment hw)
  rw [hpast, tokenize_blank (by decide) rfl rfl, past_past]

end Lexer

end ImpC
