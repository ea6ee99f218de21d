import ImpC.Proofs.Token.Gaps
import ImpC.Proofs.Token.Run

/-!
# Stretches of a text on their own

A token is the longest prefix that a rule has, so it stays one when the text behind it is cut off. The
text of a run is therefore read on its own as the tokens of the run. No significant token ends with a
blank, and neither does the text of a run.
-/
namespace ImpC

namespace Lexical

open Pattern

/-- The next token does not change if the text is cut off behind it. -/
theorem Next.truncate {w rest beyond : Text} {kind : Kind} (h : Next (w ++ (rest ++ beyond)) w kind) :
    Next (w ++ rest) w kind := by
  have hcut {v : Text} (hv : v <+: w ++ rest) : v <+: w ++ (rest ++ beyond) := by
    rw [← List.append_assoc]
    exact hv.trans (List.prefix_append _ _)
  generalize htext : w ++ (rest ++ beyond) = t at h
  cases h with
  | longest h =>
    refine .longest ⟨List.prefix_append _ _, h.ne_nil, h.classified, fun v hv hmatched => ?_⟩
    exact h.longest v (htext ▸ hcut hv) hmatched
  | unknown h =>
    refine .unknown fun v hv hne hmatched => ?_
    exact h v (htext ▸ hcut hv) hne hmatched

/-- Cut off behind some tokens, a text has these tokens and then its end. -/
theorem Lexes.truncate {t : Text} {ps more : List (Kind × Text)} (h : Lexes t (ps ++ more))
    (hps : ∀ p ∈ ps, p.1 ≠ .eof) : Lexes (ps.flatMap (·.2)) (ps ++ [(.eof, [])]) := by
  induction ps generalizing t with
  | nil => exact .nil
  | cons p ps ih =>
    rw [List.forall_mem_cons] at hps
    rw [List.cons_append] at h
    generalize hall : p :: (ps ++ more) = all at h
    cases h with
    | nil =>
      obtain ⟨rfl, -⟩ := List.cons.inj hall
      exact absurd rfl hps.1
    | @next w rest kind _ hnext hrest =>
      obtain ⟨rfl, rfl⟩ := List.cons.inj hall
      have hrest' : rest = ps.flatMap (·.2) ++ more.flatMap (·.2) := by
        rw [← List.flatMap_append, hrest.flatMap]
      rw [hrest'] at hnext
      exact .next hnext.truncate (ih hrest hps.2)

/-- What is left of a text behind some of its tokens. -/
theorem Lexes.drop {t : Text} {ps more : List (Kind × Text)} (h : Lexes t (ps ++ more))
    (hmore : more ≠ []) : ∃ rest, Lexes rest more := by
  induction ps generalizing t with
  | nil => exact ⟨t, h⟩
  | cons p ps ih =>
    rw [List.cons_append] at h
    generalize hall : p :: (ps ++ more) = all at h
    cases h with
    | nil =>
      obtain ⟨-, hnil⟩ := List.cons.inj hall
      exact absurd (List.append_eq_nil_iff.mp hnil).2 hmore
    | next _ hrest =>
      obtain ⟨-, rfl⟩ := List.cons.inj hall
      exact ih hrest

/-- No token ends with a blank unless it is made of them, or is a comment. -/
theorem Next.last_solid {t w : Text} {kind : Kind} (h : Next t w kind)
    (hkind : kind.isIgnorable = false) : ∀ c ∈ w.getLast?, isBlank c = false := by
  intro c hc
  have hmem : c ∈ w := List.mem_of_getLast? hc
  rw [Bool.eq_false_iff]
  intro hblank
  cases h with
  | unknown h =>
    obtain rfl : c = _ := List.mem_singleton.mp hmem
    have hword : [c] ∈ whitespace.language := mem_whitespace.mpr ⟨by simp, by simpa using hblank⟩
    exact h [c] (List.cons_prefix_cons.mpr ⟨rfl, List.nil_prefix⟩) (by simp)
      (classified_whitespace hword).matched
  | longest h =>
    rcases h.classified.matched.cases with hw | hw | hw | hw
    · rw [h.classified.unique (classified_whitespace hw)] at hkind
      cases hkind
    · rw [h.classified.unique (classified_comment hw)] at hkind
      cases hkind
    · obtain ⟨items, -, rfl⟩ := mem_str.mp hw
      rw [← List.cons_append, List.getLast?_concat] at hc
      cases hc
      cases hblank
    · have hsolid := hw c hmem
      rw [isSolid_blank hblank] at hsolid
      cases hsolid

/-- Only layout goes past the end of a line. -/
theorem Next.newline_not_mem {t w : Text} {kind : Kind} (h : Next t w kind)
    (hkind : kind.isIgnorable = false) : '\n' ∉ w := by
  intro hw
  cases h with
  | unknown h =>
    obtain rfl : '\n' = _ := List.mem_singleton.mp hw
    have hword : ['\n'] ∈ whitespace.language := mem_whitespace.mpr
      ⟨by simp, List.forall_mem_singleton.mpr rfl⟩
    exact h ['\n'] (List.cons_prefix_cons.mpr ⟨rfl, List.nil_prefix⟩) (by simp)
      (classified_whitespace hword).matched
  | longest h =>
    have hblank := h.classified.matched.blank_of_newline hw
    rw [h.classified.unique (classified_whitespace hblank)] at hkind
    cases hkind

end Lexical

namespace Lexer

open Lexical Pattern

variable {source : Source}

/-- Every token but the end is the next one of what is left. -/
theorem next_of_mem {t : Token} (ht : t ∈ (start source).tokens) (hkind : t.kind ≠ .eof) :
    ∃ text, Next text t.text t.kind := by
  obtain ⟨earlier, later, hsplit⟩ := List.append_of_mem ht
  have hlexes := lexes_tokens (l := start source) rfl
  rw [hsplit, List.map_append, List.map_cons] at hlexes
  rcases hlexes.next_of_split rfl with ⟨heof, -⟩ | hnext
  · exact absurd heof hkind
  · exact ⟨_, hnext⟩

theorem last_solid {t : Token} (ht : t ∈ (start source).tokenize.tokens) (hkind : t.kind ≠ .eof) :
    ∀ c ∈ t.text.getLast?, isBlank c = false := by
  obtain ⟨hmem, hsignificant⟩ := List.mem_filter.mp ht
  obtain ⟨text, hnext⟩ := next_of_mem hmem hkind
  exact hnext.last_solid (by simpa using hsignificant)

/-- No significant token is spread over lines. -/
theorem newline_not_mem {t : Token} (ht : t ∈ (start source).tokenize.tokens) : '\n' ∉ t.text := by
  obtain ⟨hmem, hsignificant⟩ := List.mem_filter.mp ht
  by_cases hkind : t.kind = .eof
  · obtain ⟨all, last, htokens, -, hempty, hall, -⟩ := (start_at source).tokens rfl
    rw [htokens, List.mem_append, List.mem_singleton] at hmem
    rcases hmem with hmem | rfl
    · exact absurd hkind (hall t hmem).1
    · rw [hempty]
      exact List.not_mem_nil
  · obtain ⟨text, hnext⟩ := next_of_mem hmem hkind
    exact hnext.newline_not_mem (by simpa using hsignificant)

namespace Run

variable {ts earlier run : List Token}

/-- A run ends with no blank. -/
theorem last_solid (h : Run source ts earlier run)
    (hts : ∀ t ∈ ts, t ∈ (start source).tokenize.tokens) (hkind : ∀ t ∈ ts, t.kind ≠ .eof)
    (hempty : ∀ t ∈ ts, t.text ≠ []) : ∀ c ∈ (run.flatMap (·.text)).getLast?, isBlank c = false := by
  intro c hc
  cases hlast : ts.getLast? with
  | none =>
    have hrun : run = [] := List.getLast?_eq_none_iff.mp (h.last.trans hlast)
    rw [hrun] at hc
    cases hc
  | some u =>
    have hu := List.mem_of_getLast? hlast
    obtain ⟨init, hinit⟩ := List.getLast?_eq_some_iff.mp (h.last.trans hlast)
    rw [hinit, List.flatMap_append, List.flatMap_singleton,
      List.getLast?_append_of_ne_nil _ (hempty u hu)] at hc
    exact Lexer.last_solid (hts u hu) (hkind u hu) c hc

/-- On its own the text of a run is read as the tokens of the run. -/
theorem tokens_alone (h : Run source ts earlier run) (hne : run ≠ [])
    (hkind : ∀ t ∈ run, t.kind ≠ .eof) (name : Text) :
    (start ⟨name, run.flatMap (·.text)⟩).tokens.map (fun t => (t.kind, t.text)) =
      run.map (fun t => (t.kind, t.text)) ++ [(.eof, [])] := by
  obtain ⟨later, htokens⟩ := h.tokens
  have hlexes := lexes_tokens (l := start source) rfl
  rw [← htokens, List.map_append, List.map_append, List.append_assoc] at hlexes
  obtain ⟨rest, hrest⟩ := hlexes.drop (by simp [hne])
  have hcut := hrest.truncate (by simpa using hkind)
  have hflat : (run.map fun t => (t.kind, t.text)).flatMap (·.2) = run.flatMap (·.text) := by
    rw [List.flatMap_map]
  rw [hflat] at hcut
  have halone : Lexes (run.flatMap (·.text))
      ((start ⟨name, run.flatMap (·.text)⟩).tokens.map fun t => (t.kind, t.text)) :=
    @lexes_tokens (start ⟨name, run.flatMap Token.text⟩) rfl
  exact halone.unique hcut

/-- Its significant tokens are those of the run, and the end. -/
theorem tokenize_alone (h : Run source ts earlier run) (hne : run ≠ [])
    (hkind : ∀ t ∈ run, t.kind ≠ .eof) (name : Text) :
    (start ⟨name, run.flatMap (·.text)⟩).tokenize.tokens.map (fun t => (t.kind, t.text)) =
      ts.map (fun t => (t.kind, t.text)) ++ [(.eof, [])] := by
  have hfilter (l : List Token) : (l.filter (!·.kind.isIgnorable)).map (fun t => (t.kind, t.text)) =
      (l.map fun t => (t.kind, t.text)).filter (!·.1.isIgnorable) := by
    rw [List.filter_map]
    rfl
  rw [tokenize, hfilter, h.tokens_alone hne hkind name, List.filter_append, ← hfilter, h.significant]
  rfl

end Run

end Lexer

end ImpC
