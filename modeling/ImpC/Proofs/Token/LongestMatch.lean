import ImpC.Proofs.Token.Regular

/-!
# The longest match

The tokens of a text are found by taking, again and again, the longest prefix of what is left that is
a word of some rule, for the first rule that has it, and one character where no prefix is. That the
lexer does so is argued rule by rule: each stretch that it finds is a word of the rule, and a prefix
that is a word is no longer than the stretch that its rule, or for a keyword the rule for names, finds.
-/
namespace ImpC

open ImpC.C

namespace Lexical

/-- A word of some rule. -/
def Matched (w : Text) : Prop := ∃ q ∈ rules, w ∈ q.2.language

/-- The first rule that has the word is one for the category. -/
def Classified (w : Text) (kind : Kind) : Prop :=
  ∃ before r after, rules = before ++ (kind, r) :: after ∧ w ∈ r.language ∧
    ∀ q ∈ before, w ∉ q.2.language

/-- The longest prefix of a text that is a word of some rule, with the category of the first rule that
has it. -/
structure Longest (t w : Text) (kind : Kind) : Prop where
  starts : w <+: t
  ne_nil : w ≠ []
  classified : Classified w kind
  longest : ∀ v, v <+: t → Matched v → v.length ≤ w.length

/-- What the next token of a text that is not empty is. -/
inductive Next : Text → Text → Kind → Prop
  | longest {t w : Text} {kind : Kind} (h : Longest t w kind) : Next t w kind
  | unknown {c : Char} {t : Text} (h : ∀ w, w <+: c :: t → w ≠ [] → ¬ Matched w) :
    Next (c :: t) [c] .unknown

end Lexical

namespace Keyword

theorem ofWord?_eq_some_iff {word : Text} {k : Keyword} :
    ofWord? word = some k ↔ word.map Char.toLower = k.spelling := by
  constructor
  · intro h
    have hspelled := List.find?_some (p := fun k : Keyword => k.spelling == word.map Char.toLower) h
    exact (eq_of_beq hspelled).symm
  · intro h
    rw [ofWord?, h]
    cases k <;> rfl

end Keyword

namespace Pattern

/-- The rules that a pattern stands for. -/
def entries : Pattern → List (Kind × Regular)
  | .whitespace => [(.whitespace, Lexical.whitespace)]
  | .comment => [(.comment, Lexical.comment)]
  | .keyword => Keyword.all.map fun k => (.keyword k, .anyCase k.spelling)
  | .float => [(.float, Lexical.float)]
  | .int => [(.int, Lexical.int)]
  | .ident => [(.ident, Lexical.ident)]
  | .str => [(.str, Lexical.str)]
  | .symbol spelling kind => [(kind, .text spelling)]

/-- The text that a pattern for one text looks for. -/
def symbolText? : Pattern → Option Text
  | .symbol spelling _ => some spelling
  | _ => none

/-- The words and the symbols of the rules are those that the patterns look for. -/
theorem rules_eq_entries : Lexical.rules = all.flatMap entries := rfl

theorem accept?_eq_some_iff {t : Text} {p : Pattern} {m : Match} :
    p.accept? t = some m ↔ p.candidate? t = some m ∧ 0 < m.length := by
  rw [accept?, Option.filter_eq_some_iff, decide_eq_true_eq]

theorem take_run (p : Char → Bool) (t : Text) : t.take (run p t) = t.takeWhile p :=
  (List.prefix_iff_eq_take.mp (List.takeWhile_prefix p)).symm

/-- Characters of a kind at the start of a text are part of the run of them. -/
theorem le_run {p : Char → Bool} {w t : Text} (hw : w <+: t) (hall : ∀ c ∈ w, p c = true) :
    w.length ≤ run p t := by
  obtain ⟨rest, rfl⟩ := hw
  rw [run, List.takeWhile_append_of_pos hall, List.length_append]
  omega

/-- The end of a string is found. -/
theorem stringTail?_spellings {items : List Item} (h : ∀ i ∈ items, i.IsValid) (rest : Text) :
    stringTail? (Item.spellings items ++ '"' :: rest) = some ((Item.spellings items).length + 1) := by
  induction items with
  | nil => rfl
  | cons i items ih =>
    rw [List.forall_mem_cons] at h
    cases i with
    | plain c =>
      obtain ⟨hquote, hbackslash, hnewline⟩ := h.1
      have hcons : Item.spellings (.plain c :: items) = c :: Item.spellings items := rfl
      rw [hcons, List.cons_append, stringTail?, ih h.2]
      · rfl
      · exact hquote
      · exact hnewline
      · exact fun _ hc => absurd hc hbackslash
      · exact fun hc => absurd hc hbackslash
      · exact fun _ _ hc => absurd hc hbackslash
    | escaped c =>
      have hcons : Item.spellings (.escaped c :: items) = '\\' :: c :: Item.spellings items := rfl
      have hne : c ≠ '\n' := h.1
      rw [hcons, List.cons_append, List.cons_append, stringTail?, ih h.2]
      · rfl
      · exact hne

theorem takeWhile_digits {whole rest : Text} (h : Digits whole) (c : Char) (hc : c.isDigit = false) :
    (whole ++ c :: rest).takeWhile Char.isDigit = whole ∧
      (whole ++ c :: rest).dropWhile Char.isDigit = c :: rest := by
  rw [List.takeWhile_append_of_pos h, List.dropWhile_append_of_pos h]
  simp [hc]

theorem run_pos_iff {p : Char → Bool} {t : Text} :
    run p t ≠ 0 ↔ t.takeWhile p ≠ [] := by
  rw [run, ne_eq, List.length_eq_zero_iff]

theorem float?_mem {t : Text} {n : Nat} (h : float? t = some n) :
    t.take n ∈ Lexical.float.language := by
  rw [Lexical.mem_float]
  unfold float? at h
  split at h
  · rename_i fraction hrest
    obtain ⟨hzero, heq⟩ := Option.ite_none_left_eq_some.mp h
    cases heq
    rw [not_or, ← ne_eq, ← ne_eq, run_pos_iff, run_pos_iff] at hzero
    refine ⟨t.takeWhile Char.isDigit, fraction.takeWhile Char.isDigit, ?_,
      ⟨hzero.1, List.all_eq_true.mp List.all_takeWhile⟩,
      hzero.2, List.all_eq_true.mp List.all_takeWhile⟩
    have hsplit : t = t.takeWhile Char.isDigit ++ '.' :: fraction := by
      rw [← hrest, List.takeWhile_append_dropWhile]
    have hlength : run Char.isDigit t + 1 + run Char.isDigit fraction =
        (t.takeWhile Char.isDigit).length + (run Char.isDigit fraction + 1) := by
      rw [run]
      omega
    have htake : List.take ((t.takeWhile Char.isDigit).length + (run Char.isDigit fraction + 1))
        (t.takeWhile Char.isDigit ++ '.' :: fraction) =
          t.takeWhile Char.isDigit ++ '.' :: fraction.takeWhile Char.isDigit := by
      rw [List.take_length_add_append, List.take_succ_cons, take_run]
    rw [← hsplit] at htake
    rw [hlength, htake]
  · cases h

theorem le_float? {w t : Text} (hw : w <+: t) (hmem : w ∈ Lexical.float.language) :
    ∃ n, float? t = some n ∧ w.length ≤ n := by
  obtain ⟨whole, fraction, rfl, ⟨hwhole, hdigits⟩, hfraction, hdigits'⟩ := Lexical.mem_float.mp hmem
  obtain ⟨rest, rfl⟩ := hw
  rw [List.append_assoc, List.cons_append]
  obtain ⟨htake, hdrop⟩ := @takeWhile_digits whole (fraction ++ rest) hdigits '.' (by decide)
  have hrun : run Char.isDigit (whole ++ '.' :: (fraction ++ rest)) = whole.length := by
    rw [run, htake]
  have hle : fraction.length ≤ run Char.isDigit (fraction ++ rest) :=
    le_run (List.prefix_append _ _) hdigits'
  have hpos := List.length_pos_iff.mpr hwhole
  have hpos' := List.length_pos_iff.mpr hfraction
  refine ⟨whole.length + 1 + run Char.isDigit (fraction ++ rest), ?_, ?_⟩
  · unfold float?
    rw [hdrop, hrun]
    exact if_neg (by omega)
  · rw [List.length_append, List.length_cons]
    omega

theorem takeWhile_word {c : Char} (hc : startsWord c = true) (t : Text) :
    isWord ((c :: t).takeWhile inWord) = true := by
  rw [List.takeWhile_cons_of_pos (inWord_of_startsWord hc), isWord, hc, Bool.true_and]
  exact List.all_takeWhile

theorem le_ident {w t : Text} (hw : w <+: t) (hword : isWord w = true) :
    Pattern.ident.accept? t = some ⟨run inWord t, .ident⟩ ∧ w.length ≤ run inWord t := by
  cases w with
  | nil => cases hword
  | cons c w =>
    rw [isWord, Bool.and_eq_true] at hword
    have hle : (c :: w).length ≤ run inWord t :=
      le_run hw (List.forall_mem_cons.mpr
        ⟨inWord_of_startsWord hword.1, List.all_eq_true.mp hword.2⟩)
    refine ⟨accept?_eq_some_iff.mpr ⟨?_, Nat.lt_of_lt_of_le (Nat.succ_pos _) hle⟩, hle⟩
    obtain ⟨rest, rfl⟩ := hw
    exact if_pos hword.1

theorem isAlpha_of_toLower {c : Char} (h : c.toLower.isLower = true) : c.isAlpha = true := by
  have halpha : c.isAlpha = (c.isUpper || c.isLower) := rfl
  by_cases hc : c.val ≥ 'A'.val ∧ c.val ≤ 'Z'.val
  · have hupper : c.isUpper = true := decide_eq_true hc
    rw [halpha, hupper, Bool.true_or]
  · have hsame : c.toLower = c := dif_neg hc
    rw [halpha, ← hsame, h, Bool.or_true]

/-- A keyword in any case is a word. -/
theorem isWord_of_spelling {w : Text} {k : Keyword} (h : w.map Char.toLower = k.spelling) :
    isWord w = true := by
  have hlower : ∀ c ∈ w, c.isAlpha = true := by
    have hall : k.spelling.all Char.isLower = true := by cases k <;> decide
    intro c hc
    apply isAlpha_of_toLower
    apply List.all_eq_true.mp hall
    rw [← h]
    exact List.mem_map_of_mem hc
  cases w with
  | nil => cases k <;> cases h
  | cons c w =>
    rw [List.forall_mem_cons] at hlower
    have hstarts {d : Char} (hd : d.isAlpha = true) : startsWord d = true := by
      rw [startsWord, hd, Bool.true_or]
    rw [isWord, hstarts hlower.1, Bool.true_and, List.all_eq_true]
    exact fun d hd => inWord_of_startsWord (hstarts (hlower.2 d hd))

/-- What a pattern accepts is a word of one of its rules. -/
theorem accept?_mem {t : Text} {p : Pattern} {m : Match} (h : p.accept? t = some m) :
    ∃ r, (m.kind, r) ∈ p.entries ∧ t.take m.length ∈ r.language := by
  obtain ⟨h, hpos⟩ := accept?_eq_some_iff.mp h
  have hrun {p : Char → Bool} (hp : 0 < run p t) :
      t.take (run p t) ≠ [] ∧ ∀ c ∈ t.take (run p t), p c = true := by
    rw [take_run]
    exact ⟨List.length_pos_iff.mp hp, List.all_eq_true.mp List.all_takeWhile⟩
  cases p with
  | whitespace =>
    cases h
    exact ⟨_, List.mem_singleton.mpr rfl, Lexical.mem_whitespace.mpr (hrun hpos)⟩
  | comment =>
    obtain ⟨hstart, heq⟩ := Option.ite_none_right_eq_some.mp h
    cases heq
    obtain ⟨rest, rfl⟩ := List.isPrefixOf_iff_prefix.mp hstart
    refine ⟨_, List.mem_singleton.mpr rfl, Lexical.mem_comment.mpr
      ⟨rest.takeWhile (· ≠ '\n'), by rw [take_run]; rfl, ?_⟩⟩
    intro hnewline
    simpa using List.all_eq_true.mp List.all_takeWhile _ hnewline
  | keyword =>
    obtain ⟨k, hk, rfl⟩ := Option.map_eq_some_iff.mp h
    refine ⟨_, List.mem_map.mpr ⟨k, k.mem_all, rfl⟩, Lexical.mem_keyword.mpr ?_⟩
    have htake : t.take (t.takeWhile inWord).length = t.takeWhile inWord := take_run inWord t
    rw [htake]
    exact Keyword.ofWord?_eq_some_iff.mp hk
  | float =>
    obtain ⟨n, hn, rfl⟩ := Option.map_eq_some_iff.mp h
    exact ⟨_, List.mem_singleton.mpr rfl, float?_mem hn⟩
  | int =>
    cases h
    exact ⟨_, List.mem_singleton.mpr rfl, Lexical.mem_int.mpr (hrun hpos)⟩
  | ident =>
    cases t with
    | nil => cases h
    | cons c t =>
      obtain ⟨hc, heq⟩ := Option.ite_none_right_eq_some.mp h
      cases heq
      refine ⟨_, List.mem_singleton.mpr rfl, Lexical.mem_ident.mpr ?_⟩
      rw [take_run]
      exact takeWhile_word hc t
  | str =>
    unfold candidate? at h
    dsimp only at h
    split at h
    · obtain ⟨n, hn, rfl⟩ := Option.map_eq_some_iff.mp h
      obtain ⟨items, hitems, rfl, rest, rfl⟩ := Item.stringTail?_items hn
      refine ⟨_, List.mem_singleton.mpr rfl, Lexical.mem_str.mpr ⟨items, hitems, ?_⟩⟩
      rw [List.take_succ_cons, List.take_length_add_append, List.take_succ_cons, List.take_zero]
    · cases h
  | symbol spelling kind =>
    obtain ⟨hstart, heq⟩ := Option.ite_none_right_eq_some.mp h
    cases heq
    refine ⟨_, List.mem_singleton.mpr rfl, Regular.mem_text.mpr ?_⟩
    exact (List.prefix_iff_eq_take.mp (List.isPrefixOf_iff_prefix.mp hstart)).symm

/-- A word of a rule at the start of a text is found whole, or as a part of a longer stretch. The
pattern for keywords looks at whole words only: a keyword in front of a longer word is part of that. -/
theorem accept?_of_mem {t w : Text} {p : Pattern} {kind : Kind} {r : Regular}
    (hr : (kind, r) ∈ p.entries) (hw : w <+: t) (hne : w ≠ []) (hmem : w ∈ r.language) :
    (∃ m, p.accept? t = some m ∧ w.length ≤ m.length ∧ (w.length = m.length → m.kind = kind)) ∨
      ∃ m, Pattern.ident.accept? t = some m ∧ w.length < m.length := by
  have hpos := List.length_pos_iff.mpr hne
  have hfound {m : Match} (hm : p.candidate? t = some m) (hle : w.length ≤ m.length)
      (hkind : w.length = m.length → m.kind = kind) :
      ∃ m, p.accept? t = some m ∧ w.length ≤ m.length ∧ (w.length = m.length → m.kind = kind) :=
    ⟨m, accept?_eq_some_iff.mpr ⟨hm, by omega⟩, hle, hkind⟩
  cases p with
  | whitespace =>
    cases List.mem_singleton.mp hr
    exact .inl (hfound rfl (le_run hw (Lexical.mem_whitespace.mp hmem).2) fun _ => rfl)
  | comment =>
    cases List.mem_singleton.mp hr
    obtain ⟨body, rfl, hbody⟩ := Lexical.mem_comment.mp hmem
    have hstart : "//".toList.isPrefixOf t = true :=
      List.isPrefixOf_iff_prefix.mpr (List.IsPrefix.trans ⟨body, rfl⟩ hw)
    refine .inl (hfound (if_pos hstart) (le_run hw ?_) fun _ => rfl)
    intro c hc
    rw [decide_eq_true_eq]
    rintro rfl
    simp [hbody] at hc
  | keyword =>
    obtain ⟨k, -, heq⟩ := List.mem_map.mp hr
    cases heq
    have hlower := Lexical.mem_keyword.mp hmem
    obtain ⟨hident, hle⟩ := le_ident hw (isWord_of_spelling hlower)
    -- with more letters behind it a keyword is the start of an identifier, which is longer
    by_cases hlength : w.length = run inWord t
    · left
      have hword : w = t.takeWhile inWord := by
        rw [← take_run, ← hlength]
        exact List.prefix_iff_eq_take.mp hw
      have hk := Keyword.ofWord?_eq_some_iff.mpr hlower
      rw [hword] at hk
      exact hfound (Option.map_eq_some_iff.mpr ⟨k, hk, rfl⟩) hle fun _ => rfl
    · exact .inr ⟨_, hident, Nat.lt_of_le_of_ne hle hlength⟩
  | float =>
    cases List.mem_singleton.mp hr
    obtain ⟨n, hn, hle⟩ := le_float? hw hmem
    exact .inl (hfound (Option.map_eq_some_iff.mpr ⟨n, hn, rfl⟩) hle fun _ => rfl)
  | int =>
    cases List.mem_singleton.mp hr
    exact .inl (hfound rfl (le_run hw (Lexical.mem_int.mp hmem).2) fun _ => rfl)
  | ident =>
    cases List.mem_singleton.mp hr
    obtain ⟨hident, hle⟩ := le_ident hw (Lexical.mem_ident.mp hmem)
    exact .inl ⟨_, hident, hle, fun _ => rfl⟩
  | str =>
    cases List.mem_singleton.mp hr
    obtain ⟨items, hitems, rfl⟩ := Lexical.mem_str.mp hmem
    obtain ⟨rest, rfl⟩ := hw
    have htail := stringTail?_spellings hitems rest
    refine .inl (hfound (m := ⟨(Item.spellings items).length + 1 + 1, .str⟩) ?_ ?_ fun _ => rfl)
    · rw [List.cons_append, List.append_assoc, List.singleton_append, candidate?, htail]
      rfl
    · simp
  | symbol spelling kind =>
    cases List.mem_singleton.mp hr
    cases Regular.mem_text.mp hmem
    have hstart := List.isPrefixOf_iff_prefix.mpr hw
    exact .inl (hfound (if_pos hstart) (Nat.le_refl _) fun _ => rfl)

/-- The stretch that is kept at the end is the first of the longest ones. -/
theorem foldl_longer_some {ms : List Match} {best m : Match}
    (h : ms.foldl longer (some best) = some m) :
    (m = best ∧ ∀ n ∈ ms, n.length ≤ m.length) ∨
    best.length < m.length ∧ ∃ before after, ms = before ++ m :: after ∧
      (∀ n ∈ before, n.length < m.length) ∧ ∀ n ∈ after, n.length ≤ m.length := by
  induction ms generalizing best with
  | nil => exact .inl ⟨(Option.some.inj h).symm, by simp⟩
  | cons next ms ih =>
    rw [List.foldl_cons, longer] at h
    by_cases hle : next.length ≤ best.length
    · rw [if_pos hle] at h
      rcases ih h with ⟨rfl, hall⟩ | ⟨hlt, before, after, rfl, hbefore, hafter⟩
      · exact .inl ⟨rfl, List.forall_mem_cons.mpr ⟨hle, hall⟩⟩
      · refine .inr ⟨hlt, next :: before, after, rfl, ?_, hafter⟩
        exact List.forall_mem_cons.mpr ⟨by omega, hbefore⟩
    · rw [if_neg hle] at h
      rcases ih h with ⟨rfl, hall⟩ | ⟨hlt, before, after, rfl, hbefore, hafter⟩
      · exact .inr ⟨by omega, [], ms, rfl, by simp, hall⟩
      · refine .inr ⟨by omega, next :: before, after, rfl, ?_, hafter⟩
        exact List.forall_mem_cons.mpr ⟨hlt, hbefore⟩

theorem foldl_longer_isSome (ms : List Match) (best : Match) :
    (ms.foldl longer (some best)).isSome = true := by
  induction ms generalizing best with
  | nil => rfl
  | cons next ms ih =>
    rw [List.foldl_cons, longer]
    split <;> exact ih _

/-- The pattern that wins: those before it find less, and those after it no more. -/
theorem longest?_first {t : Text} {m : Match} (h : longest? t = some m) :
    ∃ before p after, all = before ++ p :: after ∧ p.accept? t = some m ∧
      (∀ q ∈ before, ∀ n, q.accept? t = some n → n.length < m.length) ∧
      ∀ q ∈ after, ∀ n, q.accept? t = some n → n.length ≤ m.length := by
  have hsplit : ∃ before after, all.filterMap (accept? t) = before ++ m :: after ∧
      (∀ n ∈ before, n.length < m.length) ∧ ∀ n ∈ after, n.length ≤ m.length := by
    rw [longest?] at h
    cases hms : all.filterMap (accept? t) with
    | nil =>
      rw [hms] at h
      cases h
    | cons first ms =>
      rw [hms] at h
      rcases foldl_longer_some h with ⟨rfl, hall⟩ | ⟨hlt, before, after, rfl, hbefore, hafter⟩
      · exact ⟨[], ms, rfl, by simp, hall⟩
      · exact ⟨first :: before, after, rfl, List.forall_mem_cons.mpr ⟨hlt, hbefore⟩, hafter⟩
  obtain ⟨before, after, hms, hbefore, hafter⟩ := hsplit
  obtain ⟨ps, qs, hall, rfl, hqs⟩ := List.filterMap_eq_append_iff.mp hms
  obtain ⟨qs', p, ps', rfl, hnone, hp, rfl⟩ := List.filterMap_eq_cons_iff.mp hqs
  refine ⟨ps ++ qs', p, ps', by rw [hall, List.append_assoc], hp, ?_, ?_⟩
  · intro q hq n hn
    rcases List.mem_append.mp hq with hq | hq
    · exact hbefore n (List.mem_filterMap.mpr ⟨q, hq, hn⟩)
    · rw [hnone q hq] at hn
      cases hn
  · intro q hq n hn
    exact hafter n (List.mem_filterMap.mpr ⟨q, hq, hn⟩)

/-- No pattern finds more than the one that wins. -/
theorem longest?_le {t : Text} {m n : Match} (h : longest? t = some m) {q : Pattern} (hq : q ∈ all)
    (hn : q.accept? t = some n) : n.length ≤ m.length := by
  obtain ⟨before, p, after, hall, hp, hbefore, hafter⟩ := longest?_first h
  rw [hall, List.mem_append, List.mem_cons] at hq
  rcases hq with hq | rfl | hq
  · exact Nat.le_of_lt (hbefore q hq n hn)
  · rw [hp] at hn
    cases hn
    exact Nat.le_refl _
  · exact hafter q hq n hn

theorem longest?_eq_none {t : Text} (h : longest? t = none) : ∀ p ∈ all, p.accept? t = none := by
  rw [longest?] at h
  cases hms : all.filterMap (accept? t) with
  | nil => exact List.filterMap_eq_nil_iff.mp hms
  | cons first ms =>
    have hsome := foldl_longer_isSome ms first
    rw [hms] at h
    rw [show ms.foldl longer (some first) = none from h] at hsome
    cases hsome

end Pattern

namespace Lexical

open Pattern

/-- Nothing that a rule has is found where no pattern accepts. -/
theorem not_matched_of_none {t w : Text} (h : longest? t = none) (hw : w <+: t) (hne : w ≠ []) :
    ¬ Matched w := by
  rintro ⟨⟨kind, r⟩, hr, hmem⟩
  rw [rules_eq_entries] at hr
  obtain ⟨p, hp, hr⟩ := List.mem_flatMap.mp hr
  have hnone := longest?_eq_none h
  rcases accept?_of_mem hr hw hne hmem with ⟨m, hm, -⟩ | ⟨m, hm, -⟩
  · rw [hnone p hp] at hm
    cases hm
  · rw [hnone .ident (by decide)] at hm
    cases hm

/-- No prefix that is a word of a rule is longer than the stretch that wins. -/
theorem matched_le {t v : Text} {m : Match} (h : longest? t = some m) (hv : v <+: t)
    (hmatched : Matched v) : v.length ≤ m.length := by
  obtain ⟨⟨kind, r⟩, hr, hmem⟩ := hmatched
  rw [rules_eq_entries] at hr
  obtain ⟨p, hp, hr⟩ := List.mem_flatMap.mp hr
  by_cases hne : v = []
  · rw [hne]
    exact Nat.zero_le _
  · rcases accept?_of_mem hr hv hne hmem with ⟨n, hn, hle, -⟩ | ⟨n, hn, hlt⟩
    · exact Nat.le_trans hle (longest?_le h hp hn)
    · exact Nat.le_trans (Nat.le_of_lt hlt) (longest?_le h (by decide) hn)

/-- A word of a rule that is as long as the stretch that wins is what its pattern finds. -/
theorem accept?_of_longest {t w : Text} {m : Match} (h : longest? t = some m) {p : Pattern}
    (hp : p ∈ all) {kind : Kind} {r : Regular} (hr : (kind, r) ∈ p.entries) (hw : w <+: t)
    (hne : w ≠ []) (hlength : w.length = m.length) (hmem : w ∈ r.language) :
    p.accept? t = some ⟨m.length, kind⟩ := by
  rcases accept?_of_mem hr hw hne hmem with ⟨n, hn, hle, hkind⟩ | ⟨n, hn, hlt⟩
  · have hsame : n.length = m.length := by
      have := longest?_le h hp hn
      omega
    rw [hn, ← hkind (by omega), ← hsame]
  · have := longest?_le h (by decide : Pattern.ident ∈ all) hn
    omega

theorem exists_first {α : Type} {P : α → Prop} {l : List α} (h : ∃ a ∈ l, P a) :
    ∃ before a after, l = before ++ a :: after ∧ P a ∧ ∀ b ∈ before, ¬ P b := by
  induction l with
  | nil => simp at h
  | cons x l ih =>
    by_cases hx : P x
    · exact ⟨[], x, l, rfl, hx, by simp⟩
    · have hmore : ∃ a ∈ l, P a := by simpa [hx] using h
      obtain ⟨before, a, after, rfl, ha, hbefore⟩ := ih hmore
      exact ⟨x :: before, a, after, rfl, ha, List.forall_mem_cons.mpr ⟨hx, hbefore⟩⟩

/-- The stretch that wins is the longest word of a rule, and its category that of the first rule. -/
theorem longest_of_longest? {t : Text} {m : Match} (h : longest? t = some m) :
    Longest t (t.take m.length) m.kind := by
  obtain ⟨before, p, after, hall, hp, hbefore, -⟩ := longest?_first h
  obtain ⟨hcandidate, hpos⟩ := accept?_eq_some_iff.mp hp
  have hlength : (t.take m.length).length = m.length := by
    rw [List.length_take, Nat.min_eq_left (candidate?_length_le hcandidate)]
  have hne : t.take m.length ≠ [] := List.length_pos_iff.mp (by omega)
  have haccept {q : Pattern} (hq : q ∈ all) {kind : Kind} {r : Regular} (hr : (kind, r) ∈ q.entries)
      (hmem : t.take m.length ∈ r.language) : q.accept? t = some ⟨m.length, kind⟩ :=
    accept?_of_longest h hq hr (List.take_prefix _ _) hne hlength hmem
  -- the first rule that has the word is among those of the pattern that wins
  obtain ⟨r, hr, hmem⟩ := accept?_mem hp
  obtain ⟨front, ⟨kind, r'⟩, back, hentries, hmem', hfront⟩ :=
    exists_first (P := fun q : Kind × Regular => t.take m.length ∈ q.2.language) ⟨_, hr, hmem⟩
  have hkind : m = ⟨m.length, kind⟩ := by
    have hr' : (kind, r') ∈ p.entries := by simp [hentries]
    have hfound := haccept (by simp [hall]) hr' hmem'
    rw [hp] at hfound
    exact Option.some.inj hfound
  refine ⟨List.take_prefix _ _, hne, ?_, fun v hv hv' => by
    rw [hlength]
    exact matched_le h hv hv'⟩
  refine ⟨before.flatMap entries ++ front, r', back ++ after.flatMap entries, ?_, hmem', ?_⟩
  · rw [rules_eq_entries, hall, List.flatMap_append, List.flatMap_cons, hentries, hkind]
    simp
  · rintro ⟨kind', r''⟩ hq hq'
    rcases List.mem_append.mp hq with hq | hq
    · obtain ⟨p', hp', hq⟩ := List.mem_flatMap.mp hq
      have hlt := hbefore p' hp' _ (haccept (by simp [hall, hp']) hq hq')
      exact Nat.lt_irrefl _ hlt
    · exact hfront _ hq hq'

theorem Classified.unique {w : Text} {kind kind' : Kind} (h : Classified w kind)
    (h' : Classified w kind') : kind = kind' := by
  obtain ⟨before, r, after, hrules, hmem, hbefore⟩ := h
  obtain ⟨before', r', after', hrules', hmem', hbefore'⟩ := h'
  rw [hrules] at hrules'
  rcases List.append_eq_append_iff.mp hrules' with ⟨more, rfl, hmore⟩ | ⟨more, rfl, hmore⟩
  · cases more with
    | nil => exact (Prod.mk.inj (List.cons.inj hmore).1).1
    | cons q more =>
      obtain ⟨rfl, -⟩ := List.cons.inj hmore
      exact absurd hmem (hbefore' (kind, r) (by simp))
  · cases more with
    | nil => exact (Prod.mk.inj (List.cons.inj hmore).1).1.symm
    | cons q more =>
      obtain ⟨rfl, -⟩ := List.cons.inj hmore
      exact absurd hmem' (hbefore (kind', r') (by simp))

theorem Classified.matched {w : Text} {kind : Kind} (h : Classified w kind) : Matched w := by
  obtain ⟨before, r, after, hrules, hmem, -⟩ := h
  exact ⟨(kind, r), by simp [hrules], hmem⟩

theorem Longest.unique {t w w' : Text} {kind kind' : Kind} (h : Longest t w kind)
    (h' : Longest t w' kind') : w = w' ∧ kind = kind' := by
  have hlength : w.length = w'.length :=
    Nat.le_antisymm (h'.longest w h.starts h.classified.matched)
      (h.longest w' h'.starts h'.classified.matched)
  obtain rfl : w = w' := (List.prefix_of_prefix_length_le h.starts h'.starts
    (Nat.le_of_eq hlength)).eq_of_length hlength
  exact ⟨rfl, h.classified.unique h'.classified⟩

/-- The next token is determined by the text. -/
theorem Next.unique {t w w' : Text} {kind kind' : Kind} (h : Next t w kind) (h' : Next t w' kind') :
    w = w' ∧ kind = kind' := by
  cases h with
  | longest h =>
    cases h' with
    | longest h' => exact h.unique h'
    | unknown h' => exact absurd h.classified.matched (h' w h.starts h.ne_nil)
  | unknown h =>
    cases h' with
    | longest h' => exact absurd h'.classified.matched (h w' h'.starts h'.ne_nil)
    | unknown h' => exact ⟨rfl, rfl⟩

theorem Next.ne_nil {t w : Text} {kind : Kind} (h : Next t w kind) : w ≠ [] := by
  cases h with
  | longest h => exact h.ne_nil
  | unknown h => exact List.cons_ne_nil _ _

theorem Next.starts {t w : Text} {kind : Kind} (h : Next t w kind) : w <+: t := by
  cases h with
  | longest h => exact h.starts
  | unknown h => exact ⟨_, rfl⟩

/-- What the lexer takes next. -/
theorem next_winner (c : Char) (t : Text) :
    Next (c :: t) ((c :: t).take (Lexer.winner c t).length) (Lexer.winner c t).kind := by
  rw [Lexer.winner]
  cases hm : longest? (c :: t) with
  | none => exact .unknown fun w hw hne => not_matched_of_none hm hw hne
  | some m => exact .longest (longest_of_longest? hm)

theorem exists_next {t : Text} (h : t ≠ []) : ∃ w rest kind, t = w ++ rest ∧ Next (w ++ rest) w kind := by
  obtain ⟨c, t, rfl⟩ := List.exists_cons_of_ne_nil h
  have hnext := next_winner c t
  obtain ⟨rest, hrest⟩ := hnext.starts
  exact ⟨_, rest, _, hrest.symm, by rw [hrest]; exact hnext⟩

end Lexical

end ImpC
