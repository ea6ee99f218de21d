import Mathlib.Data.List.Forall2
import ImpC.Proofs.Token.LongestMatch

/-!
# Tokens by longest match

The tokens of a text are those that the lexical rules give it: the longest match, then the longest
match in what is left, up to the end. A quote is a token on its own exactly where no string literal
starts, and this is what is reported as a string without end.
-/
namespace ImpC

open ImpC.C

namespace Lexical

open Pattern

/-- The categories and texts of the tokens of a text, with its end. -/
inductive Lexes : Text → List (Kind × Text) → Prop
  | nil : Lexes [] [(.eof, [])]
  | next {w rest : Text} {kind : Kind} {ts : List (Kind × Text)} (h : Next (w ++ rest) w kind)
    (hrest : Lexes rest ts) : Lexes (w ++ rest) ((kind, w) :: ts)

/-- The characters of words, numbers and marks. -/
def isSolid (c : Char) : Bool := inWord c || ".=!<>&|+-*/%;,:()\x7b\x7d".toList.contains c

theorem isSolid_digit {c : Char} (h : c.isDigit = true) : isSolid c = true := by
  rw [isSolid, inWord_digit h, Bool.true_or]

theorem isSolid_word {w : Text} (h : isWord w = true) : ∀ c ∈ w, isSolid c = true := by
  cases w with
  | nil => simp
  | cons c w =>
    rw [isWord, Bool.and_eq_true] at h
    have hall : ∀ d ∈ c :: w, inWord d = true :=
      List.forall_mem_cons.mpr ⟨inWord_of_startsWord h.1, List.all_eq_true.mp h.2⟩
    intro d hd
    rw [isSolid, hall d hd, Bool.true_or]

/-- The words of all other rules have neither blanks nor quotes in them. -/
theorem Matched.cases {w : Text} (h : Matched w) :
    w ∈ whitespace.language ∨ w ∈ comment.language ∨ w ∈ str.language ∨
      ∀ c ∈ w, isSolid c = true := by
  obtain ⟨⟨kind, r⟩, hr, hmem⟩ := h
  rw [rules_eq_entries] at hr
  obtain ⟨p, hp, hr⟩ := List.mem_flatMap.mp hr
  cases p with
  | whitespace =>
    cases List.mem_singleton.mp hr
    exact .inl hmem
  | comment =>
    cases List.mem_singleton.mp hr
    exact .inr (.inl hmem)
  | keyword =>
    obtain ⟨k, -, heq⟩ := List.mem_map.mp hr
    cases heq
    exact .inr (.inr (.inr (isSolid_word (isWord_of_spelling (mem_keyword.mp hmem)))))
  | float =>
    cases List.mem_singleton.mp hr
    obtain ⟨whole, fraction, rfl, ⟨-, hwhole⟩, -, hfraction⟩ := mem_float.mp hmem
    refine .inr (.inr (.inr ?_))
    intro c hc
    rcases List.mem_append.mp hc with hc | hc
    · exact isSolid_digit (hwhole c hc)
    · rcases List.mem_cons.mp hc with rfl | hc
      · rfl
      · exact isSolid_digit (hfraction c hc)
  | int =>
    cases List.mem_singleton.mp hr
    exact .inr (.inr (.inr fun c hc => isSolid_digit ((mem_int.mp hmem).2 c hc)))
  | ident =>
    cases List.mem_singleton.mp hr
    exact .inr (.inr (.inr (isSolid_word (mem_ident.mp hmem))))
  | str =>
    cases List.mem_singleton.mp hr
    exact .inr (.inr (.inl hmem))
  | symbol spelling kind =>
    cases List.mem_singleton.mp hr
    have hsolid : (all.filterMap symbolText?).all (·.all isSolid) = true := by decide
    rw [Regular.mem_text.mp hmem]
    exact .inr (.inr (.inr (List.all_eq_true.mp
      (List.all_eq_true.mp hsolid spelling (List.mem_filterMap.mpr ⟨_, hp, rfl⟩)))))

theorem Classified.ne_unknown {w : Text} {kind : Kind} (h : Classified w kind) :
    kind ≠ .unknown := by
  obtain ⟨before, r, after, hrules, -⟩ := h
  have hkinds : Kind.unknown ∉ rules.map (·.1) := by decide
  rintro rfl
  exact hkinds (List.mem_map.mpr ⟨(.unknown, r), by simp [hrules], rfl⟩)

theorem matched_str {w : Text} (h : w ∈ str.language) : Matched w :=
  ⟨(.str, str), by simp [rules], h⟩

/-- Only strings start with a quote. -/
theorem Matched.str_of_quote {w : Text} (h : Matched ('"' :: w)) : '"' :: w ∈ str.language := by
  rcases h.cases with h | h | h | h
  · exact absurd ((mem_whitespace.mp h).2 '"' (by simp)) (by decide)
  · obtain ⟨body, heq, -⟩ := mem_comment.mp h
    cases heq
  · exact h
  · exact absurd (h '"' (by simp)) (by decide)

theorem Next.unknown_text {t w : Text} (h : Next t w .unknown) : ∃ c, w = [c] := by
  cases h with
  | longest h => exact absurd rfl h.classified.ne_unknown
  | unknown h => exact ⟨_, rfl⟩

/-- A quote stands alone as a token where no string starts. -/
theorem Next.unknown_quote_iff {t w : Text} {kind : Kind} (h : Next t w kind) :
    kind = .unknown ∧ w = ['"'] ↔ t.head? = some '"' ∧ ∀ v, v <+: t → v ∉ str.language := by
  constructor
  · rintro ⟨rfl, rfl⟩
    cases h with
    | longest h => exact absurd rfl h.classified.ne_unknown
    | unknown h =>
      refine ⟨rfl, fun v hv hmem => ?_⟩
      obtain ⟨items, -, heq⟩ := mem_str.mp hmem
      exact h v hv (by simp [heq]) (matched_str hmem)
  · rintro ⟨hquote, hnone⟩
    cases h with
    | longest h =>
      obtain ⟨c, w, rfl⟩ := List.exists_cons_of_ne_nil h.ne_nil
      obtain ⟨rest, rfl⟩ := h.starts
      obtain rfl : c = '"' := by simpa using hquote
      exact absurd h.classified.matched.str_of_quote (hnone _ h.starts)
    | unknown h =>
      obtain rfl : _ = '"' := by simpa using hquote
      exact ⟨rfl, rfl⟩

/-- The tokens of a text are determined by it. -/
theorem Lexes.unique {t : Text} {ts ts' : List (Kind × Text)} (h : Lexes t ts) (h' : Lexes t ts') :
    ts = ts' := by
  induction h generalizing ts' with
  | nil =>
    generalize ht : ([] : Text) = t at h'
    cases h' with
    | nil => rfl
    | next h _ =>
      obtain ⟨rfl, -⟩ := List.append_eq_nil_iff.mp ht.symm
      exact absurd rfl h.ne_nil
  | @next w rest kind ts h _ ih =>
    generalize ht : w ++ rest = t at h'
    cases h' with
    | nil =>
      obtain ⟨rfl, -⟩ := List.append_eq_nil_iff.mp ht
      exact absurd rfl h.ne_nil
    | next h' hrest =>
      rw [← ht] at h'
      obtain ⟨rfl, rfl⟩ := h.unique h'
      obtain rfl := List.append_cancel_left ht
      rw [ih hrest]

/-- The texts of the tokens are the whole text. -/
theorem Lexes.flatMap {t : Text} {ts : List (Kind × Text)} (h : Lexes t ts) :
    ts.flatMap (·.2) = t := by
  induction h with
  | nil => rfl
  | next _ _ ih => rw [List.flatMap_cons, ih]

/-- Each token is the next one of what is left. -/
theorem Lexes.next_of_split {t : Text} {ts : List (Kind × Text)} (h : Lexes t ts)
    {earlier later : List (Kind × Text)} {kind : Kind} {w : Text}
    (hts : ts = earlier ++ (kind, w) :: later) :
    (kind = .eof ∧ w = [] ∧ later = []) ∨ Next (((kind, w) :: later).flatMap (·.2)) w kind := by
  induction h generalizing earlier with
  | nil =>
    cases earlier with
    | nil =>
      cases hts
      exact .inl ⟨rfl, rfl, rfl⟩
    | cons e earlier => simp at hts
  | @next w' rest kind' ts h hrest ih =>
    cases earlier with
    | nil =>
      cases hts
      right
      rw [List.flatMap_cons, hrest.flatMap]
      exact h
    | cons e earlier => exact ih (List.cons.inj hts).2

end Lexical

namespace Lexer

open Lexical

/-- The lexer after the text `w`, where `rest` is left. -/
def past (l : Lexer) (w rest : Text) : Lexer :=
  ⟨l.source, rest, l.offset + w.byteSize, l.position.advance w, false⟩

/-- The token of the text `w` at the place of the lexer. -/
def tokenOf (l : Lexer) (kind : Kind) (w : Text) : Token :=
  ⟨kind, w, ⟨l.source, l.offset, l.offset + w.byteSize, l.position, l.position.advance w.dropLast⟩⟩

variable {l : Lexer} {w rest : Text} {kind : Kind}

theorem next?_of_next (hl : l.finished = false) (hrest : l.rest = w ++ rest)
    (h : Next (w ++ rest) w kind) : l.next? = some (l.tokenOf kind w, l.past w rest) := by
  obtain ⟨c, more, rfl⟩ := List.exists_cons_of_ne_nil h.ne_nil
  obtain ⟨htake, hkind⟩ := (next_winner c (more ++ rest)).unique h
  have hmore : (more ++ rest).take ((winner c (more ++ rest)).length - 1) = more := by
    cases hn : (winner c (more ++ rest)).length with
    | zero =>
      rw [hn] at htake
      cases htake
    | succ n =>
      rw [hn] at htake
      exact (List.cons.inj htake).2
  have hdrop : (more ++ rest).drop ((winner c (more ++ rest)).length - 1) = rest := by
    have hboth := List.take_append_drop ((winner c (more ++ rest)).length - 1) (more ++ rest)
    rw [hmore] at hboth
    exact List.append_cancel_left hboth
  rw [next?, hl, if_neg Bool.false_ne_true, hrest, List.cons_append]
  dsimp only
  rw [hmore, hdrop, hkind]
  rfl

theorem tokens_of_next (hl : l.finished = false) (hrest : l.rest = w ++ rest)
    (h : Next (w ++ rest) w kind) : l.tokens = l.tokenOf kind w :: (l.past w rest).tokens := by
  have hnext := next?_of_next hl hrest h
  rw [tokens]
  split
  · rename_i hnone
    rw [hnext] at hnone
    cases hnone
  · rename_i t m hsome
    rw [hnext] at hsome
    cases hsome
    rfl

theorem tokens_of_nil (hl : l.finished = false) (hrest : l.rest = []) :
    l.tokens = [l.tokenOf .eof []] := by
  have hnext : l.next? = some (l.tokenOf .eof [], { l with finished := true }) := by
    rw [next?, hl, if_neg Bool.false_ne_true, hrest]
    rfl
  rw [tokens]
  split
  · rename_i hnone
    rw [hnext] at hnone
    cases hnone
  · rename_i t m hsome
    rw [hnext] at hsome
    cases hsome
    rw [tokens_of_none (next?_of_finished rfl)]

/-- Induction along the tokens of a text, from its end. -/
theorem next_induction {motive : (l : Lexer) → l.finished = false → Prop}
    (nil : ∀ {l : Lexer} (hl : l.finished = false) (_ : l.rest = []), motive l hl)
    (next : ∀ {l : Lexer} {w rest : Text} {kind : Kind} (hl : l.finished = false)
      (_ : l.rest = w ++ rest) (_ : Next (w ++ rest) w kind) (_ : motive (l.past w rest) rfl),
      motive l hl)
    (l : Lexer) (hl : l.finished = false) : motive l hl := by
  induction hn : l.rest.length using Nat.strongRecOn generalizing l with
  | ind n ih =>
    by_cases hrest : l.rest = []
    · exact nil hl hrest
    · obtain ⟨w, rest, kind, hsplit, hnext⟩ := exists_next hrest
      have hpos := List.length_pos_iff.mpr hnext.ne_nil
      refine next hl hsplit hnext (ih rest.length ?_ (l.past w rest) rfl rfl)
      rw [← hn, hsplit, List.length_append]
      omega

/-- The tokens that the lexer finds are those that the rules give. -/
theorem lexes_tokens (hl : l.finished = false) :
    Lexes l.rest (l.tokens.map fun t => (t.kind, t.text)) := by
  induction l, hl using next_induction with
  | nil hl hrest =>
    rw [tokens_of_nil hl hrest, hrest]
    exact .nil
  | next hl hrest hnext ih =>
    rw [tokens_of_next hl hrest hnext, hrest, List.map_cons]
    exact .next hnext ih

theorem fault?_eq_none {t : Token} (h : t.kind ≠ .unknown) : fault? t = none := by
  unfold fault?
  split
  · exact absurd ‹t.kind = .unknown› h
  · exact absurd ‹t.kind = .unknown› h
  · rfl

/-- Only unknown tokens are reported. -/
theorem faults_filter {p : Token → Bool} (h : ∀ t, p t = false → t.kind ≠ .unknown)
    (ts : List Token) : (ts.filter p).filterMap fault? = ts.filterMap fault? := by
  have hfault (t : Token) : (if p t = true then fault? t else none) = fault? t := by
    by_cases hp : p t = true
    · rw [if_pos hp]
    · rw [if_neg hp, fault?_eq_none (h t (Bool.eq_false_iff.mpr hp))]
  simp only [List.filterMap_filter, hfault]

theorem tokenize_errors_eq (l : Lexer) : l.tokenize.errors = l.tokens.filterMap fault? := by
  refine faults_filter (fun t ht => ?_) l.tokens
  rintro heq
  rw [heq] at ht
  cases ht

/-- What is reported about a token: a quote opens a string that does not end. -/
structure Reported (t : Token) (e : Located LexicalError) : Prop where
  location : e.location = t.location
  unterminated : e.value = .unterminatedString ↔ t.text = ['"']

theorem fault?_reported {t : Token} {c : Char} (hkind : t.kind = .unknown) (htext : t.text = [c]) :
    ∃ e, fault? t = some e ∧ Reported t e := by
  obtain ⟨kind, text, location⟩ := t
  cases hkind
  cases htext
  by_cases hc : c = '"'
  · rw [hc]
    exact ⟨_, rfl, rfl, by simp⟩
  · refine ⟨⟨location, .badCharacter c⟩, ?_, rfl, by simp [hc]⟩
    unfold fault?
    split
    · rename_i heq
      exact absurd (List.cons.inj heq).1 hc
    · rename_i heq
      rw [(List.cons.inj heq).1]
    · rename_i hother
      exact absurd rfl (hother c [] rfl)

/-- The errors of tokens are one for each character that starts no token, in order. -/
theorem faults_reported {ts : List Token} (h : ∀ t ∈ ts, t.kind = .unknown → ∃ c, t.text = [c]) :
    List.Forall₂ Reported (ts.filter (·.kind = .unknown)) (ts.filterMap fault?) := by
  induction ts with
  | nil => exact .nil
  | cons t ts ih =>
    rw [List.forall_mem_cons] at h
    by_cases hkind : t.kind = .unknown
    · obtain ⟨c, htext⟩ := h.1 hkind
      obtain ⟨e, he, hreported⟩ := fault?_reported hkind htext
      rw [List.filter_cons_of_pos (by simpa using hkind), List.filterMap_cons_some he]
      exact .cons hreported (ih h.2)
    · rw [List.filter_cons_of_neg (by simpa using hkind),
        List.filterMap_cons_none (fault?_eq_none hkind)]
      exact ih h.2

theorem tokens_unknown (hl : l.finished = false) {t : Token} (ht : t ∈ l.tokens)
    (hkind : t.kind = .unknown) : ∃ c, t.text = [c] := by
  obtain ⟨earlier, later, hsplit⟩ := List.append_of_mem ht
  have hlexes := lexes_tokens hl
  rw [hsplit, List.map_append, List.map_cons, hkind] at hlexes
  rcases hlexes.next_of_split rfl with ⟨heof, -⟩ | hnext
  · cases heof
  · exact hnext.unknown_text

end Lexer

/-- The tokens of a text are those that the lexical rules give it, and no others. A character that
starts none is reported, a quote as a string without end; and a quote is such a character exactly
where no prefix of what is left is a string literal. -/
theorem tokens_by_longest_match (source : Source) :
    let tokens := (Lexer.start source).tokens
    (∀ ts, Lexical.Lexes source.text ts ↔ tokens.map (fun t => (t.kind, t.text)) = ts) ∧
    List.Forall₂ Lexer.Reported (tokens.filter (·.kind = .unknown))
      (Lexer.start source).tokenize.errors ∧
    ∀ earlier t later, tokens = earlier ++ t :: later →
      (t.kind = .unknown ∧ t.text = ['"'] ↔
        ((t :: later).flatMap (·.text)).head? = some '"' ∧
          ∀ w, w <+: (t :: later).flatMap (·.text) → w ∉ Lexical.str.language) := by
  have hlexes := @Lexer.lexes_tokens (Lexer.start source) rfl
  refine ⟨?_, ?_, ?_⟩
  · intro ts
    exact ⟨fun h => hlexes.unique h, fun h => h ▸ hlexes⟩
  · rw [Lexer.tokenize_errors_eq]
    exact Lexer.faults_reported fun t ht hkind => Lexer.tokens_unknown rfl ht hkind
  · intro earlier t later hsplit
    have hflat : (t :: later).flatMap (·.text) =
        ((t.kind, t.text) :: later.map fun t => (t.kind, t.text)).flatMap (·.2) := by
      simp [List.flatMap_map]
    rw [hsplit, List.map_append, List.map_cons] at hlexes
    rcases hlexes.next_of_split rfl with ⟨hkind, htext, hlater⟩ | hnext
    · simp [hkind, htext, List.map_eq_nil_iff.mp hlater]
    · rw [hflat]
      exact hnext.unknown_quote_iff

end ImpC
