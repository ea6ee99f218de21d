import ImpC.Token.Lexer

/-!
# The tokens of a text are a partition of it

A lexer that is asked for one token after the other gives finitely many, of which only the last is
the end of the text, and then none any more. Their texts, one after the other, are the whole text, and
the location of each is the stretch of its text: bytes, lines and columns are counted alike.
-/
namespace ImpC

namespace Text

theorem dropBytes_cons {n : Nat} (hn : 0 < n) (c : Char) (t : Text) :
    dropBytes n (c :: t) = if c.utf8Size ≤ n then dropBytes (n - c.utf8Size) t else none := by
  cases n with
  | zero => omega
  | succ n => rfl

theorem takeBytes_cons {n : Nat} (hn : 0 < n) (c : Char) (t : Text) :
    takeBytes n (c :: t) =
      if c.utf8Size ≤ n then (takeBytes (n - c.utf8Size) t).map (c :: ·) else none := by
  cases n with
  | zero => omega
  | succ n => rfl

theorem dropBytes_byteSize (s t : Text) : dropBytes s.byteSize (s ++ t) = some t := by
  induction s with
  | nil => cases t <;> rfl
  | cons c s ih =>
    have hc := c.utf8Size_pos
    rw [byteSize_cons, List.cons_append, dropBytes_cons (by omega), if_pos (by omega),
      Nat.add_sub_cancel_left, ih]

theorem takeBytes_byteSize (s t : Text) : takeBytes s.byteSize (s ++ t) = some s := by
  induction s with
  | nil => cases t <;> rfl
  | cons c s ih =>
    have hc := c.utf8Size_pos
    rw [byteSize_cons, List.cons_append, takeBytes_cons (by omega), if_pos (by omega),
      Nat.add_sub_cancel_left, ih, Option.map_some]

/-- A part of a text is found by the bytes before it and the bytes in it. -/
theorem slice_middle (before s after : Text) :
    slice (before ++ (s ++ after)) before.byteSize (before ++ s).byteSize = some s := by
  have hsize : (before ++ s).byteSize - before.byteSize = s.byteSize := by
    rw [byteSize_append]
    omega
  rw [slice, if_pos (by rw [byteSize_append]; omega), dropBytes_byteSize, Option.bind_some, hsize,
    takeBytes_byteSize]

end Text

namespace Source

theorem go_byteSize (p : Position) (s t : Text) (n : Nat) :
    positionAt.go p (s.byteSize + n) (s ++ t) = positionAt.go (p.advance s) n t := by
  induction s generalizing p with
  | nil => simp
  | cons c s ih =>
    have hsize : c.utf8Size + Text.byteSize s + n - c.utf8Size = Text.byteSize s + n := by omega
    rw [Text.byteSize_cons, List.cons_append, positionAt.go, if_pos (by omega), hsize, ih,
      Position.advance_cons]

/-- The place before a part of the text. -/
theorem positionAt_before {source : Source} {before after : Text}
    (h : source.text = before ++ after) :
    source.positionAt before.byteSize = Position.origin.advance before := by
  rw [positionAt, h]
  have hgo := go_byteSize .origin before after 0
  rw [Nat.add_zero] at hgo
  rw [hgo]
  cases after with
  | nil => rfl
  | cons c after =>
    have hc := c.utf8Size_pos
    rw [positionAt.go, if_neg (by omega)]

/-- The place of a byte within a character is that of the character. -/
theorem positionAt_within {source : Source} {before after : Text} {c : Char}
    (h : source.text = before ++ c :: after) :
    source.positionAt ((before ++ [c]).byteSize - 1) = Position.origin.advance before := by
  have hc := c.utf8Size_pos
  have hsize : (before ++ [c]).byteSize - 1 = before.byteSize + (c.utf8Size - 1) := by
    rw [Text.byteSize_append, Text.byteSize_cons, Text.byteSize_nil]
    omega
  rw [positionAt, h, hsize, go_byteSize, positionAt.go, if_neg (by omega)]

end Source

/-- The token has its text right after the text `before` of the source: its bytes are there, and its
first and last places are those of its first and last character. -/
structure Token.Stands (source : Source) (before : Text) (t : Token) : Prop where
  start : t.location.start = before.byteSize
  stop : t.location.stop = (before ++ t.text).byteSize
  text : t.location.text? = some t.text
  first : t.location.first = Position.origin.advance before
  last : t.location.last = Position.origin.advance (before ++ t.text.dropLast)
  between : t.location = source.between t.location.start t.location.stop

theorem Token.stands_of_split {source : Source} {before after : Text} {t : Token}
    (hsource : source.text = before ++ (t.text ++ after))
    (hlocation : t.location = ⟨source, before.byteSize, (before ++ t.text).byteSize,
      Position.origin.advance before, Position.origin.advance (before ++ t.text.dropLast)⟩) :
    t.Stands source before := by
  have hfirst := Source.positionAt_before hsource
  refine ⟨by rw [hlocation], by rw [hlocation], ?_, by rw [hlocation], by rw [hlocation], ?_⟩
  · rw [hlocation, Location.text?]
    dsimp only
    rw [hsource, Text.slice_middle]
  · rw [hlocation, Source.between]
    dsimp only
    rw [hfirst]
    rcases List.eq_nil_or_concat t.text with hnil | ⟨init, c, htext⟩
    · rw [hnil, List.append_nil, if_neg (Nat.lt_irrefl _), List.dropLast_nil, List.append_nil]
    · rw [List.concat_eq_append] at htext
      have hc := c.utf8Size_pos
      have hlt : before.byteSize < (before ++ t.text).byteSize := by
        rw [htext, Text.byteSize_append, Text.byteSize_append, Text.byteSize_cons]
        omega
      have hwithin : source.text = (before ++ init) ++ c :: after := by
        rw [hsource, htext]
        simp
      rw [if_pos hlt, htext, List.dropLast_concat, ← List.append_assoc,
        Source.positionAt_within hwithin]

namespace Pattern

theorem foldl_longer_mem {ms : List Match} {best : Option Match} {m : Match}
    (h : ms.foldl longer best = some m) : best = some m ∨ m ∈ ms := by
  induction ms generalizing best with
  | nil => exact .inl h
  | cons next ms ih =>
    rcases ih h with hbest | hm
    · unfold longer at hbest
      split at hbest
      · split at hbest
        · exact .inl hbest
        · exact .inr (by simp [Option.some.inj hbest])
      · exact .inr (by simp [Option.some.inj hbest])
    · exact .inr (List.mem_cons_of_mem next hm)

/-- The winning stretch is one that a rule accepts. -/
theorem longest?_mem {t : Text} {m : Match} (h : longest? t = some m) :
    ∃ p ∈ all, p.candidate? t = some m ∧ 0 < m.length := by
  rcases foldl_longer_mem h with hnone | hm
  · cases hnone
  · obtain ⟨p, hp, hm⟩ := List.mem_filterMap.mp hm
    obtain ⟨hm, hpos⟩ := Option.filter_eq_some_iff.mp hm
    exact ⟨p, hp, hm, of_decide_eq_true hpos⟩

def isMark : Kind → Bool
  | .op _ | .semicolon | .comma | .colon | .openParen | .closeParen | .openCurly | .closeCurly =>
    true
  | _ => false

def symbolKind? : Pattern → Option Kind
  | .symbol _ kind => some kind
  | _ => none

theorem symbol_isMark {spelling : Text} {kind : Kind} (h : .symbol spelling kind ∈ all) :
    isMark kind = true := by
  have hall : (all.filterMap symbolKind?).all isMark = true := by decide
  exact List.all_eq_true.mp hall kind (List.mem_filterMap.mpr ⟨_, h, rfl⟩)

/-- The rule for a category that is no mark. -/
def ruleFor? : Kind → Option Pattern
  | .whitespace => some .whitespace
  | .comment => some .comment
  | .keyword _ => some .keyword
  | .float => some .float
  | .int => some .int
  | .ident => some .ident
  | .str => some .str
  | _ => none

/-- A category that is no mark comes from its rule only. -/
theorem candidate?_rule {t : Text} {p : Pattern} {m : Match} (hp : p ∈ all)
    (h : p.candidate? t = some m) (hm : isMark m.kind = false) : ruleFor? m.kind = some p := by
  cases p with
  | whitespace | int =>
    cases h
    rfl
  | comment =>
    obtain ⟨-, heq⟩ := Option.ite_none_right_eq_some.mp h
    cases heq
    rfl
  | keyword | float =>
    obtain ⟨_, -, heq⟩ := Option.map_eq_some_iff.mp h
    cases heq
    rfl
  | ident =>
    cases t with
    | nil => cases h
    | cons c t =>
      obtain ⟨-, heq⟩ := Option.ite_none_right_eq_some.mp h
      cases heq
      rfl
  | str =>
    unfold candidate? at h
    dsimp only at h
    split at h
    · obtain ⟨_, -, heq⟩ := Option.map_eq_some_iff.mp h
      cases heq
      rfl
    · cases h
  | symbol spelling kind =>
    obtain ⟨-, heq⟩ := Option.ite_none_right_eq_some.mp h
    cases heq
    rw [symbol_isMark hp] at hm
    cases hm

/-- No rule gives the end of the text. -/
theorem candidate?_not_eof {t : Text} {p : Pattern} {m : Match} (hp : p ∈ all)
    (h : p.candidate? t = some m) : m.kind ≠ .eof := by
  intro heof
  have hrule := candidate?_rule hp h (by rw [heof]; rfl)
  rw [heof] at hrule
  cases hrule

end Pattern

namespace Lexer

theorem winner_not_eof (c : Char) (t : Text) : (winner c t).kind ≠ .eof := by
  unfold winner
  cases hm : Pattern.longest? (c :: t) with
  | none => decide
  | some m =>
    obtain ⟨p, hp, hcandidate, -⟩ := Pattern.longest?_mem hm
    exact Pattern.candidate?_not_eof hp hcandidate

/-- The answer to a request for the next token, and the lexer after it. -/
def ask (l : Lexer) : Option Token × Lexer :=
  match l.next? with
  | some (t, m) => (some t, m)
  | none => (none, l)

/-- The answer to request number `n`, counted from zero. -/
def answer (l : Lexer) : Nat → Option Token
  | 0 => l.ask.1
  | n + 1 => l.ask.2.answer n

theorem answer_of_none {l : Lexer} (h : l.next? = none) (n : Nat) : l.answer n = none := by
  have hask : l.ask = (none, l) := by rw [ask, h]
  induction n with
  | zero => rw [answer, hask]
  | succ n ih => rw [answer, hask, ih]

/-- The answers are the tokens, and then nothing. -/
theorem answer_eq_getElem? (l : Lexer) (n : Nat) : l.answer n = l.tokens[n]? := by
  fun_induction tokens l generalizing n with
  | case1 l h => rw [answer_of_none h, List.getElem?_nil]
  | case2 l t m h _ ih =>
    have hask : l.ask = (some t, m) := by rw [ask, h]
    cases n with
    | zero => rw [answer, hask, List.getElem?_cons_zero]
    | succ n => rw [answer, hask, ih, List.getElem?_cons_succ]

/-- The lexer has read the text `before` of the source. -/
structure At (source : Source) (before : Text) (l : Lexer) : Prop where
  origin : l.source = source
  text : source.text = before ++ l.rest
  offset : l.offset = before.byteSize
  position : l.position = Position.origin.advance before

theorem start_at (source : Source) : At source [] (start source) := ⟨rfl, rfl, rfl, rfl⟩

/-- The token before the rest of the text, and the end of the text. -/
theorem At.next? {source : Source} {before : Text} {l m : Lexer} {t : Token}
    (hl : At source before l) (h : l.next? = some (t, m)) :
    t.Stands source before ∧
      ((t.kind = .eof ∧ t.text = [] ∧ l.rest = [] ∧ m.finished = true) ∨
        (t.kind ≠ .eof ∧ t.text ≠ [] ∧ m.finished = false ∧ At source (before ++ t.text) m)) := by
  unfold Lexer.next? at h
  split at h
  · cases h
  · split at h
    · rename_i hrest
      obtain ⟨rfl, rfl⟩ := Prod.mk.inj (Option.some.inj h)
      have htext : source.text = before ++ ([] ++ []) := by
        rw [hl.text, hrest]
        rfl
      refine ⟨Token.stands_of_split htext ?_, .inl ⟨rfl, rfl, hrest, rfl⟩⟩
      simp [hl.origin, hl.offset, hl.position]
    · rename_i c rest hrest
      obtain ⟨rfl, rfl⟩ := Prod.mk.inj (Option.some.inj h)
      -- the winner takes the first character at least
      let n := (winner c rest).length - 1
      have hsplit : l.rest = (c :: rest.take n) ++ rest.drop n := by
        rw [List.cons_append, List.take_append_drop, hrest]
      have htext : source.text = before ++ ((c :: rest.take n) ++ rest.drop n) := by
        rw [← hsplit]
        exact hl.text
      have hstop : l.offset + Text.byteSize (c :: rest.take n) =
          Text.byteSize (before ++ c :: rest.take n) := by
        rw [Text.byteSize_append, hl.offset]
      refine ⟨Token.stands_of_split htext ?_,
        .inr ⟨winner_not_eof c rest, List.cons_ne_nil _ _, rfl, ?_⟩⟩
      · rw [hl.origin, hstop, hl.offset, hl.position, Position.advance_append]
      · refine ⟨hl.origin, ?_, hstop, ?_⟩
        · rw [List.append_assoc]
          exact htext
        · rw [hl.position, Position.advance_append]

theorem next?_of_finished {l : Lexer} (h : l.finished = true) : l.next? = none := by
  rw [Lexer.next?, if_pos h]

theorem next?_isSome {l : Lexer} (h : l.finished = false) : l.next?.isSome := by
  rw [Lexer.next?, h, if_neg Bool.false_ne_true]
  cases l.rest with
  | nil => rfl
  | cons c rest => rfl

theorem tokens_of_none {l : Lexer} (h : l.next? = none) : l.tokens = [] := by
  rw [Lexer.tokens]
  split
  · rfl
  · rename_i hsome
    rw [h] at hsome
    cases hsome

/-- What the tokens from a place on are: the rest of the text in pieces, and its end. -/
theorem At.tokens {source : Source} {before : Text} {l : Lexer} (hl : At source before l)
    (hfinished : l.finished = false) :
    ∃ body last, l.tokens = body ++ [last] ∧ last.kind = .eof ∧ last.text = [] ∧
      (∀ t ∈ body, t.kind ≠ .eof ∧ t.text ≠ []) ∧ body.flatMap (·.text) = l.rest ∧
      ∀ earlier t later, body ++ [last] = earlier ++ t :: later →
        t.Stands source (before ++ earlier.flatMap (·.text)) := by
  fun_induction Lexer.tokens l generalizing before with
  | case1 l hnone =>
    have hsome := next?_isSome hfinished
    rw [hnone] at hsome
    cases hsome
  | case2 l t m hnext _ ih =>
    obtain ⟨hstands, ⟨hkind, htext, hrest, hm⟩ | ⟨hkind, htext, hm, hat⟩⟩ := hl.next? hnext
    -- the token of the end is the last one
    · refine ⟨[], t, ?_, hkind, htext, by simp, by simp [hrest], ?_⟩
      · rw [tokens_of_none (next?_of_finished hm)]
        rfl
      · intro earlier u later heq
        obtain ⟨rfl, rfl, rfl⟩ : earlier = [] ∧ u = t ∧ later = [] := by
          cases earlier with
          | nil => simpa [eq_comm] using heq
          | cons e earlier => simp at heq
        simpa using hstands
    · obtain ⟨body, last, htokens, hlast, hempty, hbody, hflat, hplaces⟩ := ih hat hm
      have hrest : t.text ++ m.rest = l.rest := by
        have hboth := hl.text.symm.trans hat.text
        rw [List.append_assoc] at hboth
        exact (List.append_cancel_left hboth).symm
      refine ⟨t :: body, last, by rw [htokens, List.cons_append], hlast, hempty, ?_, ?_, ?_⟩
      · intro u hu
        rcases List.mem_cons.mp hu with rfl | hu
        · exact ⟨hkind, htext⟩
        · exact hbody u hu
      · rw [List.flatMap_cons, hflat, hrest]
      · intro earlier u later heq
        cases earlier with
        | nil =>
          obtain ⟨rfl, -⟩ := List.cons.inj heq
          simpa using hstands
        | cons e earlier =>
          obtain ⟨rfl, htail⟩ := List.cons.inj heq
          have hu := hplaces earlier u later htail
          rwa [List.append_assoc] at hu

end Lexer

/-- Asked for one token after the other, a lexer gives finitely many, of which only the last is the
end of the text, and then nothing for ever. The tokens before the end are not empty; their texts
together are the whole text; each starts where the one before it stops, and stands where its text
does. -/
theorem tokens_partition (source : Source) :
    ∃ body last, (∀ n, (Lexer.start source).answer n = (body ++ [last])[n]?) ∧
      (last.kind = .eof ∧ last.text = [] ∧ last.location.start = source.text.byteSize ∧
        last.location.stop = source.text.byteSize ∧ last.location.last = last.location.first) ∧
      (∀ t ∈ body, t.kind ≠ .eof ∧ t.text ≠ []) ∧ body.flatMap (·.text) = source.text ∧
      (∀ earlier t u later, body ++ [last] = earlier ++ t :: u :: later →
        u.location.start = t.location.stop) ∧
      ∀ earlier t later, body ++ [last] = earlier ++ t :: later →
        t.Stands source (earlier.flatMap (·.text)) := by
  obtain ⟨body, last, htokens, hkind, hempty, hbody, hflat, hplaces⟩ :=
    (Lexer.start_at source).tokens rfl
  simp only [List.nil_append] at hplaces
  have hflat : body.flatMap (·.text) = source.text := hflat
  have hlast := hplaces body last [] rfl
  rw [hflat] at hlast
  refine ⟨body, last, ?_, ⟨hkind, hempty, hlast.start, ?_, ?_⟩, hbody, hflat, ?_, hplaces⟩
  · intro n
    rw [Lexer.answer_eq_getElem?, htokens]
  · rw [hlast.stop, hempty, List.append_nil]
  · rw [hlast.last, hlast.first, hempty, List.dropLast_nil, List.append_nil]
  · intro earlier t u later heq
    have ht := hplaces earlier t (u :: later) heq
    have hu := hplaces (earlier ++ [t]) u later (by rw [heq, List.append_cons])
    rw [hu.start, ht.stop, List.flatMap_append, List.flatMap_singleton]

end ImpC
