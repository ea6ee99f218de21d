import ImpC.Proofs.Surface.Words
import ImpC.Proofs.Token.Gaps

/-!
# Spelling tokens anew

The texts of tokens, written one after another with blanks and comments between them, are read as the
same tokens. A word of a rule that went on past a token and the blank behind it would be blank, a
comment or a string, and then so would the token be: the first two are not significant, and no string
is the start of another.
-/
namespace ImpC

open ImpC.C

namespace Lexical

open Pattern

/-- A blank, or a comment with the end of its line. -/
def filler : Regular := .either blank (.seq comment (.just '\n'))

/-- What stands between two tokens. -/
def separator : Regular := .seq blank (.many filler)

theorem Next.known {t w : Text} {kind : Kind} (h : Next t w kind) (hkind : kind ≠ .unknown) :
    Longest t w kind := by
  cases h with
  | longest h => exact h
  | unknown _ => exact absurd rfl hkind

/-- The words one after another in a text, with a separator between each and the next. -/
inductive Spaced : List Text → Text → Prop
  | none : Spaced [] []
  | one (w : Text) : Spaced [w] w
  | more {w v s t : Text} {ws : List Text} (hs : s ∈ separator.language) (h : Spaced (v :: ws) t) :
    Spaced (w :: v :: ws) (w ++ (s ++ t))

/-- What a token is read from that is significant and that no error is reported about. -/
structure Readable (kind : Kind) (w : Text) : Prop where
  significant : kind.isIgnorable = false
  ne_nil : w ≠ []
  classified : Classified w kind

theorem mem_separator {s : Text} :
    s ∈ separator.language ↔ ∃ (c : Char) (parts : List Text), s = c :: parts.flatten ∧
      isBlank c = true ∧ ∀ p ∈ parts, p ∈ filler.language := by
  rw [separator, Regular.mem_seq_cons_iff fun _ => mem_blank]
  constructor
  · rintro ⟨c, v, rfl, hc, hv⟩
    obtain ⟨parts, rfl, hparts⟩ := Regular.mem_many.mp hv
    exact ⟨c, parts, rfl, hc, hparts⟩
  · rintro ⟨c, parts, rfl, hc, hparts⟩
    exact ⟨c, parts.flatten, rfl, hc, Regular.mem_many.mpr ⟨parts, rfl, hparts⟩⟩

theorem separator_head {s : Text} (hs : s ∈ separator.language) (t : Text) :
    ∀ c ∈ (s ++ t).head?, isBlank c = true := by
  obtain ⟨d, parts, rfl, hd, -⟩ := mem_separator.mp hs
  intro c hc
  cases hc
  exact hd

theorem not_comment_append {w more : Text} {c : Char} (hw : w ∉ comment.language)
    (hc : isBlank c = true) : w ++ c :: more ∉ comment.language := by
  intro h
  obtain ⟨body, heq, hbody⟩ := mem_comment.mp h
  match w with
  | [] =>
    cases heq
    exact absurd hc (by decide)
  | [d] =>
    cases heq
    exact absurd hc (by decide)
  | d :: e :: w =>
    cases heq
    exact hw (mem_comment.mpr ⟨w, rfl, fun hmem => hbody (List.mem_append_left _ hmem)⟩)

/-- No string is the start of another. -/
theorem str_alone {w more : Text} (hw : w ∈ str.language) (h : w ++ more ∈ str.language) :
    more = [] := by
  obtain ⟨items, hitems, rfl⟩ := mem_str.mp hw
  obtain ⟨items', hitems', heq⟩ := mem_str.mp h
  have htail : Item.spellings items ++ '"' :: more = Item.spellings items' ++ ['"'] := by
    simpa using heq
  have hlength : (Item.spellings items).length + 1 = (Item.spellings items').length + 1 := by
    rw [← Option.some_inj, ← stringTail?_spellings hitems more, htail,
      stringTail?_spellings hitems' []]
  have hwhole := congrArg List.length htail
  rw [List.length_append, List.length_append, List.length_cons, List.length_singleton] at hwhole
  exact List.length_eq_zero_iff.mp (by omega)

/-- A token is read whole, and as what it was, before a blank and at the end of a text. -/
theorem Readable.next_before {kind : Kind} {w rest : Text} (h : Readable kind w)
    (hrest : ∀ c ∈ rest.head?, isBlank c = true) : Next (w ++ rest) w kind := by
  have hsignificant := h.significant
  refine .longest ⟨List.prefix_append _ _, h.ne_nil, h.classified, ?_⟩
  intro v hv hmatched
  by_contra hlt
  rw [Nat.not_le] at hlt
  cases rest with
  | nil =>
    have := hv.length_le
    rw [List.append_nil] at this
    omega
  | cons c rest =>
    have hc : isBlank c = true := hrest c rfl
    obtain ⟨more, rfl⟩ := mem_of_longer hv hlt
    rw [List.append_assoc, List.singleton_append] at hmatched
    -- only layout, comments and strings go over a blank, and the word starts none of them
    rcases hmatched.cases with hv | hv | hv | hv
    · have hblank : w ∈ whitespace.language :=
        mem_whitespace.mpr ⟨h.ne_nil, fun d hd =>
          (mem_whitespace.mp hv).2 d (List.mem_append_left _ hd)⟩
      rw [h.classified.unique (classified_whitespace hblank)] at hsignificant
      cases hsignificant
    · refine not_comment_append (fun hcomment => ?_) hc hv
      rw [h.classified.unique (classified_comment hcomment)] at hsignificant
      cases hsignificant
    · obtain ⟨d, w, rfl⟩ := List.exists_cons_of_ne_nil h.ne_nil
      obtain rfl : d = '"' := by
        obtain ⟨items, -, heq⟩ := mem_str.mp hv
        exact (List.cons.inj heq).1
      cases str_alone h.classified.matched.str_of_quote hv
    · have hsolid := hv c (by simp)
      rw [isSolid_blank hc] at hsolid
      cases hsolid

end Lexical

namespace Lexer

open Lexical Pattern

variable {l : Lexer}

/-- Blanks and comments are passed over one after another. -/
theorem tokenize_parts {parts : List Text} {t : Text}
    (h : ∀ p ∈ parts, p ∈ filler.language)
    (hl : l.finished = false) (hrest : l.rest = parts.flatten ++ t) :
    l.tokenize.tokens = (l.past parts.flatten t).tokenize.tokens := by
  induction parts generalizing l with
  | nil => rw [← past_nil hl, hrest]; rfl
  | cons p parts ih =>
    rw [List.forall_mem_cons] at h
    rw [List.flatten_cons, List.append_assoc] at hrest
    have hpart : l.tokenize.tokens = (l.past p (parts.flatten ++ t)).tokenize.tokens := by
      rcases Regular.mem_either.mp h.1 with hp | hp
      · obtain ⟨c, rfl, hc⟩ := mem_blank.mp hp
        exact tokenize_blank hc hl hrest
      · obtain ⟨w, hw, v, hv, rfl⟩ := Regular.mem_seq.mp hp
        cases Regular.mem_just.mp hv
        rw [List.append_assoc] at hrest
        exact tokenize_comment hw hl hrest
    rw [hpart, ih h.2 rfl rfl, past_past, List.flatten_cons]

theorem tokenize_separator {s t : Text} (hs : s ∈ separator.language) (hl : l.finished = false)
    (hrest : l.rest = s ++ t) : l.tokenize.tokens = (l.past s t).tokenize.tokens := by
  obtain ⟨c, parts, rfl, hc, hparts⟩ := mem_separator.mp hs
  rw [tokenize_blank hc hl hrest, tokenize_parts hparts rfl rfl, past_past, List.singleton_append]

theorem tokenize_readable {kind : Kind} {w rest : Text} (h : Readable kind w)
    (hhead : ∀ c ∈ rest.head?, isBlank c = true) (hl : l.finished = false)
    (hrest : l.rest = w ++ rest) :
    l.tokenize.tokens = l.tokenOf kind w :: (l.past w rest).tokenize.tokens := by
  rw [tokenize_of_next hl hrest (h.next_before hhead), h.significant]
  rfl

/-- Spelled anew, tokens are read as they were. -/
theorem tokenize_spaced {ps : List (Kind × Text)} (hps : ∀ q ∈ ps, Readable q.1 q.2) {t : Text}
    (ht : Spaced (ps.map (·.2)) t) (hl : l.finished = false) (hrest : l.rest = t) :
    l.tokenize.tokens.map (fun t => (t.kind, t.text)) = ps ++ [(.eof, [])] := by
  induction ps generalizing l t with
  | nil =>
    cases ht
    rw [tokenize_of_nil hl hrest]
    rfl
  | cons q ps ih =>
    rw [List.forall_mem_cons] at hps
    cases ps with
    | nil =>
      cases ht
      have hrest : l.rest = q.2 ++ [] := hrest.trans (List.append_nil _).symm
      rw [tokenize_readable hps.1 (by simp) hl hrest,
        tokenize_of_nil rfl rfl]
      rfl
    | cons q' ps =>
      cases ht with
      | more hs h =>
        rw [tokenize_readable hps.1 (separator_head hs _) hl hrest, tokenize_separator hs rfl rfl,
          List.map_cons, ih hps.2 h rfl rfl]
        rfl

/-- The end is the last token and no other is. -/
theorem tokenize_eq_append (hl : l.finished = false) :
    l.tokenize.tokens.map (fun t => (t.kind, t.text)) =
      (l.tokenize.tokens.filter (·.kind ≠ .eof)).map (fun t => (t.kind, t.text)) ++ [(.eof, [])] := by
  induction l, hl using next_induction with
  | nil hl hrest =>
    rw [tokenize_of_nil hl hrest]
    rfl
  | @next l w rest kind hl hrest hnext ih =>
    rw [tokenize_of_next hl hrest hnext, List.filter_append, filter_kept hnext, List.map_append,
      List.map_append, ih, List.append_assoc]

/-- Where nothing is reported, all significant tokens are readable. -/
theorem readable_of_errors (hl : l.finished = false) (h : l.tokenize.errors = []) {t : Token}
    (ht : t ∈ l.tokenize.tokens) (heof : t.kind ≠ .eof) : Readable t.kind t.text := by
  obtain ⟨hmem, hsignificant⟩ := List.mem_filter.mp ht
  have hknown : t.kind ≠ .unknown := by
    intro hunknown
    obtain ⟨c, htext⟩ := tokens_unknown hl hmem hunknown
    obtain ⟨e, he, -⟩ := fault?_reported hunknown htext
    rw [tokenize_errors_eq, List.filterMap_eq_nil_iff] at h
    rw [h t hmem] at he
    cases he
  obtain ⟨earlier, later, hsplit⟩ := List.append_of_mem hmem
  have hlexes := lexes_tokens hl
  rw [hsplit, List.map_append, List.map_cons] at hlexes
  rcases hlexes.next_of_split rfl with ⟨hkind, -⟩ | hnext
  · exact absurd hkind heof
  · have hlongest := hnext.known hknown
    exact ⟨by simpa using hsignificant, hlongest.ne_nil, hlongest.classified⟩

end Lexer

/-- The tokens of a text without errors can be written with any blanks and comments between them: what
is written has the same tokens and no errors. -/
theorem respelling_tokenizes (source : Source) (h : (Lexer.start source).tokenize.errors = [])
    (name text : Text)
    (ht : Lexical.Spaced
      (((Lexer.start source).tokenize.tokens.filter (·.kind ≠ .eof)).map (·.text)) text) :
    let respelled := (Lexer.start ⟨name, text⟩).tokenize
    respelled.tokens.map (fun t => (t.kind, t.text)) =
        (Lexer.start source).tokenize.tokens.map (fun t => (t.kind, t.text)) ∧
      respelled.errors = [] := by
  intro respelled
  let written := (Lexer.start source).tokenize.tokens.filter (·.kind ≠ .eof)
  have hreadable : ∀ q ∈ written.map (fun t => (t.kind, t.text)), Lexical.Readable q.1 q.2 := by
    intro q hq
    obtain ⟨t, ht, rfl⟩ := List.mem_map.mp hq
    obtain ⟨ht, heof⟩ := List.mem_filter.mp ht
    exact Lexer.readable_of_errors rfl h ht (of_decide_eq_true heof)
  have hspaced : Lexical.Spaced ((written.map fun t => (t.kind, t.text)).map (·.2)) text := by
    rw [List.map_map]
    exact ht
  have htokens : respelled.tokens.map (fun t => (t.kind, t.text)) =
      written.map (fun t => (t.kind, t.text)) ++ [(.eof, [])] :=
    Lexer.tokenize_spaced hreadable hspaced rfl rfl
  refine ⟨htokens.trans (Lexer.tokenize_eq_append rfl).symm, ?_⟩
  have herrors : respelled.errors = respelled.tokens.filterMap Lexer.fault? := rfl
  rw [herrors, List.filterMap_eq_nil_iff]
  intro t ht
  have hmem := List.mem_map_of_mem (f := fun t : Token => (t.kind, t.text)) ht
  rw [htokens] at hmem
  refine Lexer.fault?_eq_none ?_
  rcases List.mem_append.mp hmem with hmem | hmem
  · exact (hreadable _ hmem).classified.ne_unknown
  · have heof : t.kind = .eof := congrArg Prod.fst (List.mem_singleton.mp hmem)
    rw [heof]
    decide

/-- Marks that would be one without the blank between them, and a string with slashes in it, spelled
anew with a comment. -/
theorem respelling_tokenizes_slashes :
    let source : Source := ⟨[], "a==b< =\"//\"".toList⟩
    let text := "a == // <=\n\tb < = \"//\"".toList
    (Lexer.start source).tokenize.errors = [] ∧
    Lexical.Spaced (((Lexer.start source).tokenize.tokens.filter (·.kind ≠ .eof)).map (·.text)) text ∧
    (Lexer.start ⟨[], text⟩).tokenize.tokens.map (fun t => (t.kind, t.text)) =
        (Lexer.start source).tokenize.tokens.map (fun t => (t.kind, t.text)) ∧
      (Lexer.start ⟨[], text⟩).tokenize.errors = [] := by
  intro source text
  have htokens : (Lexer.start source).tokens = ((Lexer.start source).advance 20).1 :=
    Lexer.tokens_eq_advance (by decide)
  have herrors : (Lexer.start source).tokenize.errors = [] := by
    rw [Lexer.tokenize, htokens]
    decide +kernel
  have hwritten : ((Lexer.start source).tokenize.tokens.filter (·.kind ≠ .eof)).map (·.text) =
      [['a'], ['=', '='], ['b'], ['<'], ['='], "\"//\"".toList] := by
    rw [Lexer.tokenize, htokens]
    decide +kernel
  have hspace : [' '] ∈ Lexical.separator.language :=
    Lexical.mem_separator.mpr ⟨' ', [], rfl, rfl, List.forall_mem_nil _⟩
  have hcomment : " // <=\n\t".toList ∈ Lexical.separator.language := by
    refine Lexical.mem_separator.mpr ⟨' ', ["// <=\n".toList, ['\t']], rfl, rfl, ?_⟩
    simp only [List.forall_mem_cons, List.not_mem_nil, false_implies, implies_true, and_true]
    exact ⟨.inr (Regular.mem_seq.mpr ⟨"// <=".toList,
      Lexical.mem_comment.mpr ⟨" <=".toList, rfl, by decide⟩, ['\n'], Regular.mem_just.mpr rfl, rfl⟩),
      .inl (Lexical.mem_blank.mpr ⟨'\t', rfl, rfl⟩)⟩
  have hspaced : Lexical.Spaced
      (((Lexer.start source).tokenize.tokens.filter (·.kind ≠ .eof)).map (·.text)) text := by
    rw [hwritten]
    exact .more hspace (.more hcomment (.more hspace (.more hspace (.more hspace (.one _)))))
  exact ⟨herrors, hspaced, respelling_tokenizes source herrors [] text hspaced⟩

end ImpC
