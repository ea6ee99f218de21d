import ImpC.Proofs.Token.Gaps

/-!
# Lines are read apart

No significant token goes past the end of a line, and none depends on what stands behind it. So the
tokens and errors of two texts with a line break between them are those of the one and those of the
other, the latter further on and further down.
-/
namespace ImpC

open ImpC.C

/-- The same column, some lines further down. -/
def Position.down (p : Position) (lines : Nat) : Position := ⟨p.line + lines, p.column⟩

/-- The same stretch in another source, where it stands some bytes further on and some lines further
down. -/
def Location.moved (source : Source) (bytes lines : Nat) (a : Location) : Location :=
  ⟨source, a.start + bytes, a.stop + bytes, a.first.down lines, a.last.down lines⟩

def Token.moved (source : Source) (bytes lines : Nat) (t : Token) : Token :=
  { t with location := t.location.moved source bytes lines }

def Located.moved {α : Type} (source : Source) (bytes lines : Nat) (e : Located α) : Located α :=
  { e with location := e.location.moved source bytes lines }

namespace Position

theorem advance_down (p : Position) (lines : Nat) (t : Text) :
    (p.down lines).advance t = (p.advance t).down lines := by
  induction t generalizing p with
  | nil => rfl
  | cons c t ih =>
    have hafter : (p.down lines).after c = (p.after c).down lines := by
      unfold after down
      split
      · simp only [Position.mk.injEq, and_true]
        omega
      · rfl
    rw [advance_cons, advance_cons, hafter, ih]

/-- A text ends as many lines further down as it has line breaks. -/
theorem line_advance (p : Position) (t : Text) :
    (p.advance t).line = p.line + t.count '\n' := by
  induction t generalizing p with
  | nil => rfl
  | cons c t ih =>
    rw [advance_cons, ih, after]
    by_cases hc : c = '\n'
    · rw [if_pos hc, hc, List.count_cons_self]
      dsimp only
      omega
    · rw [if_neg hc, List.count_cons_of_ne hc]

theorem advance_newline (p : Position) (t : Text) :
    p.advance (t ++ ['\n']) = ⟨p.line + (t.count '\n' + 1), 1⟩ := by
  rw [advance_append, advance_cons, advance_nil, after, if_pos rfl, line_advance]
  simp only [Position.mk.injEq, and_true]
  omega

end Position

namespace Lexer

open Lexical Pattern

/-- The lexer at the place that is moved. -/
def moved (source : Source) (bytes lines : Nat) (l : Lexer) : Lexer :=
  ⟨source, l.rest, l.offset + bytes, l.position.down lines, l.finished⟩

variable {source : Source} {bytes lines : Nat}

theorem tokenOf_moved (l : Lexer) (kind : Kind) (w : Text) :
    (l.moved source bytes lines).tokenOf kind w = (l.tokenOf kind w).moved source bytes lines := by
  simp only [tokenOf, moved, Token.moved, Location.moved, Position.advance_down, Token.mk.injEq,
    Location.mk.injEq, true_and, and_true]
  omega

theorem past_moved (l : Lexer) (w rest : Text) :
    (l.moved source bytes lines).past w rest = (l.past w rest).moved source bytes lines := by
  simp only [past, moved, Position.advance_down, Lexer.mk.injEq, true_and, and_true]
  omega

/-- The tokens of a text do not depend on where it stands, but for their places. -/
theorem tokens_moved {l : Lexer} (hl : l.finished = false) :
    (l.moved source bytes lines).tokens = l.tokens.map (Token.moved source bytes lines) := by
  induction l, hl using next_induction with
  | @nil l hl hrest =>
    rw [tokens_of_nil hl hrest, tokens_of_nil (l := l.moved source bytes lines) hl hrest,
      tokenOf_moved]
    rfl
  | @next l w rest kind hl hrest hnext ih =>
    rw [tokens_of_next hl hrest hnext,
      tokens_of_next (l := l.moved source bytes lines) hl hrest hnext, tokenOf_moved, past_moved, ih,
      List.map_cons]

theorem tokenize_moved {l : Lexer} (hl : l.finished = false) :
    (l.moved source bytes lines).tokenize.tokens =
      l.tokenize.tokens.map (Token.moved source bytes lines) := by
  rw [tokenize, tokenize, tokens_moved hl, List.filter_map]
  rfl

theorem fault?_moved (t : Token) :
    fault? (t.moved source bytes lines) = (fault? t).map (Located.moved source bytes lines) := by
  obtain ⟨kind, text, location⟩ := t
  simp only [Token.moved, fault?]
  split <;> rfl

theorem faults_moved (ts : List Token) :
    (ts.map (Token.moved source bytes lines)).filterMap fault? =
      (ts.filterMap fault?).map (Located.moved source bytes lines) := by
  rw [List.filterMap_map, List.map_filterMap]
  exact congrArg (List.filterMap · ts) (funext fault?_moved)

end Lexer

namespace Lexical

open Pattern

/-- A word of a rule that goes past the end of a line goes past nothing but blanks before it. -/
theorem Matched.before_newline {u v w : Text} (h : Matched w) (hw : w <+: u ++ '\n' :: v)
    (hu : ¬ ∀ c ∈ u, isBlank c = true) : w <+: u := by
  by_cases hle : w.length ≤ u.length
  · exact List.prefix_of_prefix_length_le hw (List.prefix_append _ _) hle
  · obtain ⟨more, rfl⟩ := mem_of_longer hw (Nat.lt_of_not_le hle)
    have hblank := (mem_whitespace.mp (h.blank_of_newline (by simp))).2
    exact absurd (fun c hc => hblank c (by simp [hc])) hu

/-- The next token of a line is the same whether or not another line follows. -/
theorem Next.before_newline {u v w : Text} {kind : Kind} (h : Next u w kind)
    (hu : ¬ ∀ c ∈ u, isBlank c = true) : Next (u ++ '\n' :: v) w kind := by
  cases h with
  | longest h =>
    refine .longest ⟨h.starts.trans (List.prefix_append _ _), h.ne_nil, h.classified, ?_⟩
    intro x hx hmatched
    exact h.longest x (hmatched.before_newline hx hu) hmatched
  | unknown h =>
    refine .unknown fun x hx hne hmatched => ?_
    exact h x (hmatched.before_newline hx hu) hne hmatched

end Lexical

namespace Lexer

open Lexical Pattern

variable {source : Source} {v : Text}

/-- The lexer at the same place of another source, where one more line follows the text. -/
def continued (source : Source) (v : Text) (l : Lexer) : Lexer :=
  ⟨source, l.rest ++ '\n' :: v, l.offset, l.position, false⟩

/-- Blanks before a line break are passed over with it. -/
theorem tokenize_continued_blank {l : Lexer} (hl : l.finished = false)
    (hblank : ∀ c ∈ l.rest, isBlank c = true) :
    l.tokenize.tokens = [(l.past l.rest []).tokenOf .eof []] ∧
      (l.continued source v).tokenize.tokens =
        ((l.continued source v).past (l.rest ++ ['\n']) v).tokenize.tokens := by
  constructor
  · rw [tokenize_blanks hblank hl (List.append_nil _).symm, tokenize_of_nil rfl rfl]
  · have hbreak : ∀ c ∈ l.rest ++ ['\n'], isBlank c = true := by
      rw [List.forall_mem_append]
      exact ⟨hblank, List.forall_mem_singleton.mpr rfl⟩
    have hrest : (l.continued source v).rest = l.rest ++ ['\n'] ++ v := by simp [continued]
    exact tokenize_blanks hbreak rfl hrest

/-- The tokens of a text that a line break follows, and then those behind the break. -/
theorem tokenize_continued {l : Lexer} (hl : l.finished = false) :
    (l.continued source v).tokenize.tokens =
      (l.tokenize.tokens.filter (·.kind ≠ .eof)).map (Token.moved source 0 0) ++
        ((l.continued source v).past (l.rest ++ ['\n']) v).tokenize.tokens := by
  induction l, hl using next_induction with
  | nil hl hrest =>
    obtain ⟨htokens, hbreak⟩ := tokenize_continued_blank hl (by simp [hrest])
    rw [htokens, hbreak]
    rfl
  | @next l w rest kind hl hrest hnext ih =>
    by_cases hblank : ∀ c ∈ l.rest, isBlank c = true
    · obtain ⟨htokens, hbreak⟩ := tokenize_continued_blank hl hblank
      rw [htokens, hbreak]
      rfl
    · have hmore : (l.continued source v).rest = w ++ (rest ++ '\n' :: v) := by
        rw [continued, hrest, List.append_assoc]
      have hnext' : Next (w ++ (rest ++ '\n' :: v)) w kind := by
        rw [← List.append_assoc]
        exact hnext.before_newline (hrest ▸ hblank)
      have hpast : (l.continued source v).past w (rest ++ '\n' :: v) =
          (l.past w rest).continued source v := rfl
      have hrest' : (l.past w rest).rest = rest := rfl
      rw [tokenize_of_next hl hrest hnext, tokenize_of_next rfl hmore hnext', hpast, ih, ← hpast,
        past_past, hrest, hrest', List.append_assoc w, List.filter_append, filter_kept hnext,
        List.map_append, List.append_assoc]
      congr 1
      cases kind.isIgnorable <;> rfl

end Lexer

/-- The tokens of two texts with a line break between them are those of the first and those of the
second, the latter one line further down for each break before them, and so are the errors. -/
theorem tokenize_lines (name : Text) (first second : Source) :
    let whole : Source := ⟨name, first.text ++ '\n' :: second.text⟩
    let bytes := first.text.byteSize + 1
    let lines := first.text.count '\n' + 1
    let above := (Lexer.start first).tokenize
    let below := (Lexer.start second).tokenize
    (Lexer.start whole).tokenize.tokens =
      (above.tokens.filter (·.kind ≠ .eof)).map (Token.moved whole 0 0) ++
        below.tokens.map (Token.moved whole bytes lines) ∧
    (Lexer.start whole).tokenize.errors =
      above.errors.map (Located.moved whole 0 0) ++
        below.errors.map (Located.moved whole bytes lines) := by
  intro whole bytes lines above below
  have htokens : (Lexer.start whole).tokenize.tokens =
      (above.tokens.filter (·.kind ≠ .eof)).map (Token.moved whole 0 0) ++
        below.tokens.map (Token.moved whole bytes lines) := by
    -- behind the break the lexer is where it starts on the second text, further down
    have hsecond : (Lexer.start whole).past (first.text ++ ['\n']) second.text =
        (Lexer.start second).moved whole bytes lines := by
      rw [Lexer.past, Lexer.start, Position.advance_newline, Text.byteSize_append]
      rfl
    have hall := @Lexer.tokenize_continued whole second.text (Lexer.start first) rfl
    have hwhole : (Lexer.start first).continued whole second.text = Lexer.start whole := rfl
    rw [hwhole] at hall
    rw [hall, ← Lexer.tokenize_moved rfl]
    exact congrArg (fun l : Lexer => _ ++ l.tokenize.tokens) hsecond
  refine ⟨htokens, ?_⟩
  have herrors : (Lexer.start whole).tokenize.errors =
      (Lexer.start whole).tokenize.tokens.filterMap Lexer.fault? := rfl
  rw [herrors, htokens, List.filterMap_append, Lexer.faults_moved, Lexer.faults_moved,
    Lexer.faults_filter fun t ht => ?_]
  · rfl
  · have heof : t.kind = .eof := not_not.mp (of_decide_eq_false ht)
    rw [heof]
    decide

end ImpC
