import ImpC.Proofs.Token.Partition
import ImpC.Proofs.C.Literal

/-!
# The stretches that rules accept

Every token before the end of a text is a stretch that some rule accepts, unless its character starts
none. So identifiers are words and integers are digits. A text is one identifier as a whole exactly
if it is a word and no keyword.
-/
namespace ImpC

open ImpC.C

namespace Pattern

theorem run_le (p : Char → Bool) (t : Text) : run p t ≤ t.length :=
  (List.takeWhile_prefix p).length_le

theorem stringTail?_le {t : Text} {n : Nat} (h : stringTail? t = some n) : n ≤ t.length := by
  fun_induction stringTail? t generalizing n with
  | case1 | case3 | case4 | case5 => cases h
  | case2 =>
    cases h
    simp
  | case6 c t _ ih =>
    obtain ⟨m, hm, rfl⟩ := Option.map_eq_some_iff.mp h
    simpa using ih hm
  | case7 c t _ _ _ _ _ ih =>
    obtain ⟨m, hm, rfl⟩ := Option.map_eq_some_iff.mp h
    simpa using ih hm

theorem float?_le {t : Text} {n : Nat} (h : float? t = some n) : n ≤ t.length := by
  unfold float? at h
  split at h
  · rename_i fraction hrest
    obtain ⟨-, heq⟩ := Option.ite_none_left_eq_some.mp h
    cases heq
    have hlength : run Char.isDigit t + (fraction.length + 1) = t.length := by
      rw [run, ← List.length_cons (a := '.'), ← hrest, ← List.length_append,
        List.takeWhile_append_dropWhile]
    have hle := run_le Char.isDigit fraction
    omega
  · cases h

/-- A stretch lies in the text. -/
theorem candidate?_length_le {t : Text} {p : Pattern} {m : Match} (h : p.candidate? t = some m) :
    m.length ≤ t.length := by
  cases p with
  | whitespace | int =>
    cases h
    exact run_le _ t
  | comment =>
    obtain ⟨-, heq⟩ := Option.ite_none_right_eq_some.mp h
    cases heq
    exact run_le _ t
  | keyword =>
    obtain ⟨word, -, rfl⟩ := Option.map_eq_some_iff.mp h
    exact run_le _ t
  | float =>
    obtain ⟨n, hn, rfl⟩ := Option.map_eq_some_iff.mp h
    exact float?_le hn
  | ident =>
    cases t with
    | nil => cases h
    | cons c t =>
      obtain ⟨-, heq⟩ := Option.ite_none_right_eq_some.mp h
      cases heq
      exact run_le _ _
  | str =>
    unfold candidate? at h
    dsimp only at h
    split at h
    · obtain ⟨n, hn, rfl⟩ := Option.map_eq_some_iff.mp h
      exact Nat.succ_le_succ (stringTail?_le hn)
    · cases h
  | symbol spelling kind =>
    obtain ⟨hstart, heq⟩ := Option.ite_none_right_eq_some.mp h
    cases heq
    exact (List.isPrefixOf_iff_prefix.mp hstart).length_le

end Pattern

/-- The text is a stretch that the rule accepts, before some rest. -/
def Pattern.Accepts (p : Pattern) (t : Text) (kind : Kind) : Prop :=
  ∃ rest, p.candidate? (t ++ rest) = some ⟨t.length, kind⟩

namespace Lexer

/-- A token is the end, unknown, or what a pattern accepts. -/
theorem next?_accepted {l m : Lexer} {t : Token} (h : l.next? = some (t, m)) :
    t.kind = .eof ∨ t.kind = .unknown ∨ ∃ p ∈ Pattern.all, p.Accepts t.text t.kind := by
  unfold next? at h
  split at h
  · cases h
  · split at h
    · obtain ⟨rfl, -⟩ := Prod.mk.inj (Option.some.inj h)
      exact .inl rfl
    · rename_i c rest _
      obtain ⟨rfl, -⟩ := Prod.mk.inj (Option.some.inj h)
      right
      unfold winner
      cases hm : Pattern.longest? (c :: rest) with
      | none => exact .inl rfl
      | some m =>
        obtain ⟨p, hp, hcandidate, hpos⟩ := Pattern.longest?_mem hm
        have hle := Pattern.candidate?_length_le hcandidate
        rw [List.length_cons] at hle
        have hlength : (c :: rest.take (m.length - 1)).length = m.length := by
          rw [List.length_cons, List.length_take]
          omega
        refine .inr ⟨p, hp, rest.drop (m.length - 1), ?_⟩
        dsimp only [take, Option.getD_some]
        rw [hlength, List.cons_append, List.take_append_drop]
        exact hcandidate

/-- What the tokens of a text are. -/
theorem tokens_accepted (l : Lexer) : ∀ t ∈ l.tokens,
    t.kind = .eof ∨ t.kind = .unknown ∨ ∃ p ∈ Pattern.all, p.Accepts t.text t.kind := by
  fun_induction tokens l with
  | case1 l h =>
    intro t ht
    cases ht
  | case2 l t m h _ ih =>
    rw [List.forall_mem_cons]
    exact ⟨next?_accepted h, ih⟩

end Lexer

namespace Pattern

/-- What is as long as the run of some characters is made of them. -/
theorem all_of_run {p : Char → Bool} {t rest : Text} (h : run p (t ++ rest) = t.length) :
    t.all p = true := by
  have htake : (t ++ rest).takeWhile p = t := by
    have htake := List.prefix_iff_eq_take.mp (List.takeWhile_prefix p (l := t ++ rest))
    rw [htake, show ((t ++ rest).takeWhile p).length = t.length from h, List.take_left]
  rw [← htake]
  exact List.all_takeWhile

/-- Patterns for words and literals accept one kind each. -/
theorem Accepts.rule {p : Pattern} {t : Text} {kind : Kind} (h : p.Accepts t kind) (hp : p ∈ all)
    (hkind : isMark kind = false) : ruleFor? kind = some p := by
  obtain ⟨rest, hcandidate⟩ := h
  exact candidate?_rule hp hcandidate hkind

theorem accepts_ident {t : Text} (h : Pattern.ident.Accepts t .ident) : isWord t = true := by
  obtain ⟨rest, hcandidate⟩ := h
  cases t with
  | nil =>
    cases rest with
    | nil => cases hcandidate
    | cons c rest =>
      obtain ⟨hc, heq⟩ := Option.ite_none_right_eq_some.mp hcandidate
      have hlength := congrArg Match.length (Option.some.inj heq)
      simp [run, inWord_of_startsWord hc] at hlength
  | cons c t =>
    obtain ⟨hc, heq⟩ := Option.ite_none_right_eq_some.mp hcandidate
    have hall := all_of_run (t := c :: t) (congrArg Match.length (Option.some.inj heq))
    rw [List.all_cons, Bool.and_eq_true] at hall
    rw [isWord, hc, Bool.true_and]
    exact hall.2

theorem accepts_int {t : Text} (h : Pattern.int.Accepts t .int) : Digits t := by
  obtain ⟨rest, hcandidate⟩ := h
  exact List.all_eq_true.mp (all_of_run (congrArg Match.length (Option.some.inj hcandidate)))

theorem accepts_str {t : Text} (h : Pattern.str.Accepts t .str) :
    ∃ u rest, t = '"' :: u ∧ stringTail? (u ++ rest) = some u.length := by
  obtain ⟨rest, hcandidate⟩ := h
  unfold candidate? at hcandidate
  dsimp only at hcandidate
  split at hcandidate
  · rename_i u htext
    obtain ⟨n, hn, heq⟩ := Option.map_eq_some_iff.mp hcandidate
    have hlength : n + 1 = t.length := congrArg Match.length heq
    cases t with
    | nil => cases hlength
    | cons c t =>
      rw [List.cons_append] at htext
      obtain ⟨rfl, rfl⟩ := List.cons.inj htext
      refine ⟨t, rest, rfl, ?_⟩
      rw [hn, Nat.succ.inj hlength]
  · cases hcandidate

end Pattern

namespace Lexer

/-- A token of a category that is no mark is accepted by the rule for it. -/
theorem tokens_rule {l : Lexer} {t : Token} (h : t ∈ l.tokens) {p : Pattern}
    (hp : Pattern.ruleFor? t.kind = some p) : p.Accepts t.text t.kind := by
  rcases tokens_accepted l t h with hkind | hkind | ⟨q, hq, haccepts⟩
  · rw [hkind] at hp
    cases hp
  · rw [hkind] at hp
    cases hp
  · have hmark : Pattern.isMark t.kind = false := by
      cases hkind : t.kind <;> rw [hkind] at hp <;> cases hp <;> rfl
    obtain rfl : q = p := Option.some.inj ((haccepts.rule hq hmark).symm.trans hp)
    exact haccepts

theorem tokens_ident (l : Lexer) (t : Token) (h : t ∈ l.tokens) (hkind : t.kind = .ident) :
    isWord t.text = true := by
  have haccepts := tokens_rule h (p := .ident) (by rw [hkind]; rfl)
  rw [hkind] at haccepts
  exact Pattern.accepts_ident haccepts

theorem tokens_int (l : Lexer) (t : Token) (h : t ∈ l.tokens) (hkind : t.kind = .int) :
    Digits t.text := by
  have haccepts := tokens_rule h (p := .int) (by rw [hkind]; rfl)
  rw [hkind] at haccepts
  exact Pattern.accepts_int haccepts

end Lexer

namespace Pattern

/-- The lexer takes the whole text as one identifier. -/
def IsIdentifier (t : Text) : Prop := longest? t = some ⟨t.length, .ident⟩

/-- The rule is for a symbol that starts no word. -/
def startsNoWord : Pattern → Bool
  | .symbol (c :: _) _ => !startsWord c
  | _ => false

/-- Where a word starts, only the patterns of words apply. -/
theorem accept?_startsNoWord {p : Pattern} (hp : startsNoWord p = true) {c : Char}
    (hc : startsWord c = true) (t : Text) : p.accept? (c :: t) = none := by
  unfold startsNoWord at hp
  split at hp
  · rename_i d spelling kind
    have hne : d ≠ c := by
      rintro rfl
      simp [hc] at hp
    simp [accept?, candidate?, hne]
  · cases hp

theorem startsWord_not_mem {c d : Char} (hc : startsWord c = true) (hd : startsWord d = false) :
    c ≠ d := by
  rintro rfl
  rw [hc] at hd
  cases hd

/-- At the start of a word only the rules for keywords and identifiers accept anything. -/
theorem longest?_word {c : Char} (hc : startsWord c = true) (t : Text) :
    longest? (c :: t) = some ⟨run inWord (c :: t),
      ((Keyword.ofWord? ((c :: t).takeWhile inWord)).map .keyword).getD .ident⟩ := by
  have hblank : isBlank c = false := by
    rw [Bool.eq_false_iff, ne_eq, isBlank_iff]
    rintro (rfl | rfl | rfl | rfl) <;> exact absurd hc (by decide)
  have hdigit : c.isDigit = false := by
    rw [Bool.eq_false_iff]
    intro hdigit
    rw [startsWord_digit hdigit] at hc
    cases hc
  have hslash : c ≠ '/' := startsWord_not_mem hc (by decide)
  have hpoint : c ≠ '.' := startsWord_not_mem hc (by decide)
  have hquote : c ≠ '"' := startsWord_not_mem hc (by decide)
  have hpos : 0 < run inWord (c :: t) := by
    simp [run, inWord_of_startsWord hc]
  -- behind the first seven rules there are symbols only, and no letter starts one
  have hsymbols : (all.drop 7).filterMap (accept? (c :: t)) = [] := by
    have hall : (all.drop 7).all startsNoWord = true := by decide
    rw [List.filterMap_eq_nil_iff]
    exact fun p hp => accept?_startsNoWord (List.all_eq_true.mp hall p hp) hc t
  have hall : all = [.whitespace, .comment, .keyword, .float, .int, .ident, .str] ++ all.drop 7 :=
    rfl
  have hwhitespace : Pattern.accept? (c :: t) .whitespace = none := by
    simp [accept?, candidate?, run, hblank]
  have hcomment : Pattern.accept? (c :: t) .comment = none := by
    simp [accept?, candidate?, Ne.symm hslash]
  have hfloat : Pattern.accept? (c :: t) .float = none := by
    simp [accept?, candidate?, float?, hdigit, hpoint]
  have hint : Pattern.accept? (c :: t) .int = none := by
    simp [accept?, candidate?, run, hdigit]
  have hstr : Pattern.accept? (c :: t) .str = none := by
    simp [accept?, candidate?, hquote]
  have hident : Pattern.accept? (c :: t) .ident = some ⟨run inWord (c :: t), .ident⟩ := by
    simp [accept?, candidate?, hc, hpos]
  have hkeyword : Pattern.accept? (c :: t) .keyword =
      (Keyword.ofWord? ((c :: t).takeWhile inWord)).map fun k =>
        ⟨run inWord (c :: t), .keyword k⟩ := by
    cases hword : Keyword.ofWord? ((c :: t).takeWhile inWord) with
    | none => simp [accept?, candidate?, hword]
    | some k =>
      have hlength : 0 < ((c :: t).takeWhile inWord).length := hpos
      simp only [accept?, candidate?, hword, Option.map_some, Option.filter_some, hlength,
        decide_true, if_true]
      rfl
  rw [longest?, hall, List.filterMap_append, hsymbols]
  cases hword : Keyword.ofWord? ((c :: t).takeWhile inWord) with
  | none => simp [hwhitespace, hcomment, hkeyword, hword, hfloat, hint, hident, hstr, longer]
  | some k => simp [hwhitespace, hcomment, hkeyword, hword, hfloat, hint, hident, hstr, longer]

/-- A word is an identifier unless it is a keyword. -/
theorem isIdentifier_iff {t : Text} :
    IsIdentifier t ↔ isWord t = true ∧ Keyword.ofWord? t = none := by
  cases t with
  | nil =>
    refine ⟨fun h => ?_, fun h => by cases h.1⟩
    obtain ⟨p, -, -, hpos⟩ := longest?_mem h
    exact absurd hpos (Nat.lt_irrefl 0)
  | cons c t =>
    have hword : IsIdentifier (c :: t) → isWord (c :: t) = true := by
      intro h
      obtain ⟨p, hp, hcandidate, -⟩ := longest?_mem h
      obtain rfl : Pattern.ident = p := Option.some.inj (candidate?_rule hp hcandidate rfl)
      exact accepts_ident ⟨[], by rw [List.append_nil]; exact hcandidate⟩
    have hlongest (hw : isWord (c :: t) = true) : longest? (c :: t) = some ⟨(c :: t).length,
        ((Keyword.ofWord? (c :: t)).map .keyword).getD .ident⟩ := by
      rw [isWord, Bool.and_eq_true] at hw
      have htake : (c :: t).takeWhile inWord = c :: t := by
        rw [List.takeWhile_eq_self_iff]
        exact List.forall_mem_cons.mpr ⟨inWord_of_startsWord hw.1, List.all_eq_true.mp hw.2⟩
      rw [longest?_word hw.1, run, htake]
    constructor
    · intro h
      refine ⟨hword h, ?_⟩
      rw [IsIdentifier, hlongest (hword h), Option.some.injEq, Match.mk.injEq] at h
      cases hk : Keyword.ofWord? (c :: t) with
      | none => rfl
      | some k =>
        rw [hk] at h
        cases h.2
    · rintro ⟨hw, hk⟩
      rw [IsIdentifier, hlongest hw, hk]
      rfl

end Pattern

end ImpC
