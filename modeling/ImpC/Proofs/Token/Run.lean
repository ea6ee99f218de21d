import Mathlib.Data.List.Infix
import ImpC.Proofs.Token.Partition

/-!
# Runs of tokens

Significant tokens that follow one another in a text form a run, with the blanks and comments that
stand between them. The location from the first to the last of them is exactly the stretch of the run:
its bytes, and the places of its first and last character.
-/
namespace ImpC

/-- The location is the stretch of the text `covered` right after the text `before` of the source. -/
structure Location.Covers (a : Location) (source : Source) (before covered : Text) : Prop where
  origin : a.source = source
  within : before ++ covered <+: source.text
  start : a.start = before.byteSize
  stop : a.stop = (before ++ covered).byteSize
  first : a.first = Position.origin.advance before
  last : a.last = Position.origin.advance (before ++ covered.dropLast)

namespace Location.Covers

variable {a b : Location} {source : Source} {before covered : Text}

theorem text? (h : a.Covers source before covered) : a.text? = some covered := by
  obtain ⟨after, hafter⟩ := h.within
  rw [Location.text?, h.origin, h.start, h.stop, ← hafter, List.append_assoc, Text.slice_middle]

theorem start_lt_stop (h : a.Covers source before covered) (hne : covered ≠ []) :
    a.start < a.stop := by
  obtain ⟨c, covered, rfl⟩ := List.exists_cons_of_ne_nil hne
  have hc := c.utf8Size_pos
  rw [h.start, h.stop, Text.byteSize_append, Text.byteSize_cons]
  omega

/-- From the start of one stretch to the end of another. -/
theorem through {covered' more : Text} (ha : a.Covers source before covered)
    (hb : b.Covers source (before ++ more) covered') (hne : covered' ≠ []) :
    (a.through b).Covers source before (more ++ covered') := by
  refine ⟨ha.origin, ?_, ha.start, ?_, ha.first, ?_⟩
  · rw [← List.append_assoc]
    exact hb.within
  · rw [← List.append_assoc]
    exact hb.stop
  · rw [List.dropLast_append_of_ne_nil hne, ← List.append_assoc]
    exact hb.last

end Location.Covers

/-- What is kept of a list, if anything, is what is kept of a part that starts and ends with it. -/
theorem exists_part_of_filter {α : Type} {p : α → Bool} {l kept : List α}
    (h : l.filter p = kept) (hne : kept ≠ []) :
    ∃ before part after, l = before ++ (part ++ after) ∧ part.filter p = kept ∧
      part.head? = kept.head? ∧ part.getLast? = kept.getLast? := by
  -- cut behind the last one that is kept, and then before the first one
  obtain ⟨init, y, hlast⟩ := (List.eq_nil_or_concat kept).resolve_left hne
  rw [List.concat_eq_append] at hlast
  obtain ⟨l₁, l₂, rfl, h₁, h₂⟩ := List.filter_eq_append_iff.mp (h.trans hlast)
  obtain ⟨u, after, rfl, hu, hy, -⟩ := List.filter_eq_cons_iff.mp h₂
  have hfront : (l₁ ++ (u ++ [y])).filter p = kept := by
    rw [List.filter_append, List.filter_append, h₁, List.filter_eq_nil_iff.mpr hu, hlast]
    simp [hy]
  obtain ⟨x, more, rfl⟩ := List.exists_cons_of_ne_nil hne
  obtain ⟨before, tail, hcut, -, hx, htail⟩ := List.filter_eq_cons_iff.mp hfront
  refine ⟨before, x :: tail, after, ?_, ?_, rfl, ?_⟩
  · rw [← List.append_assoc before, ← hcut]
    simp
  · rw [List.filter_cons_of_pos hx, htail]
  · have hend : (before ++ x :: tail).getLast? = some y := by
      rw [← hcut, ← List.append_assoc, List.getLast?_concat]
    rw [hlast, List.getLast?_concat, ← hend, List.getLast?_append_of_ne_nil _ (List.cons_ne_nil _ _)]

/-- A token ends before another one starts. -/
def Token.Before (t u : Token) : Prop := t.location.stop ≤ u.location.start

namespace Lexer

variable {source : Source}

/-- A token of a text covers its own text, right after the texts of those before it. -/
theorem covers_of_split {earlier later : List Token} {t : Token}
    (h : (start source).tokens = earlier ++ t :: later) :
    t.location.Covers source (earlier.flatMap (·.text)) t.text := by
  obtain ⟨body, last, htokens, -, hempty, -, hflat, hplaces⟩ := (start_at source).tokens rfl
  have hstands := hplaces earlier t later (htokens.symm.trans h)
  rw [List.nil_append] at hstands
  refine ⟨?_, ?_, hstands.start, hstands.stop, hstands.first, hstands.last⟩
  · rw [hstands.between]
    rfl
  · refine ⟨later.flatMap (·.text), ?_⟩
    have htext : source.text = (body ++ [last]).flatMap (·.text) := by
      rw [List.flatMap_append, hflat, List.flatMap_singleton, hempty, List.append_nil]
      rfl
    rw [htext, ← htokens, h, List.flatMap_append, List.flatMap_cons, List.append_assoc]

/-- The tokens of a text stand one behind the other. -/
theorem tokens_ordered (source : Source) : (start source).tokens.Pairwise Token.Before := by
  rw [List.pairwise_iff_forall_sublist]
  intro t u hsub
  obtain ⟨earlier, mid, heq, hin, hmid⟩ := List.cons_sublist_iff.mp hsub
  obtain ⟨a, b, rfl⟩ := List.append_of_mem hin
  obtain ⟨c, d, rfl⟩ := List.append_of_mem (List.singleton_sublist.mp hmid)
  rw [List.append_assoc, List.cons_append] at heq
  have ht := covers_of_split heq
  rw [← List.append_assoc b, ← List.cons_append, ← List.append_assoc] at heq
  have hu := covers_of_split heq
  rw [Token.Before, ht.stop, hu.start]
  simp only [List.flatMap_append, List.flatMap_cons, Text.byteSize_append]
  omega

theorem start_le_stop {t : Token} (ht : t ∈ (start source).tokens) :
    t.location.start ≤ t.location.stop := by
  obtain ⟨earlier, later, hsplit⟩ := List.append_of_mem ht
  have hcovers := covers_of_split hsplit
  rw [hcovers.start, hcovers.stop, Text.byteSize_append]
  omega

/-- The significant tokens `ts` of a text make up its tokens `run`, which come right after the tokens
`earlier`, with what is not significant between them. -/
structure Run (source : Source) (ts earlier run : List Token) : Prop where
  tokens : earlier ++ run <+: (start source).tokens
  significant : run.filter (!·.kind.isIgnorable) = ts
  head : run.head? = ts.head?
  last : run.getLast? = ts.getLast?

theorem exists_run {ts : List Token} (h : ts <:+: (start source).tokenize.tokens) (hne : ts ≠ []) :
    ∃ earlier run, Run source ts earlier run := by
  obtain ⟨a, c, hsplit⟩ := h
  obtain ⟨front, l₃, htokens, hfront, -⟩ := List.filter_eq_append_iff.mp hsplit.symm
  obtain ⟨l₁, l₂, rfl, -, hkept⟩ := List.filter_eq_append_iff.mp hfront
  obtain ⟨before, run, after, rfl, hrun, hhead, hlast⟩ := exists_part_of_filter hkept hne
  refine ⟨l₁ ++ before, run, ⟨after ++ l₃, ?_⟩, hrun, hhead, hlast⟩
  rw [htokens]
  simp

/-- From its first to its last token a run covers its text. -/
theorem Run.covers {ts earlier run : List Token} (h : Run source ts earlier run) {t u : Token}
    (ht : ts.head? = some t) (hu : ts.getLast? = some u) (hne : u.text ≠ []) :
    (t.location.through u.location).Covers source (earlier.flatMap (·.text))
      (run.flatMap (·.text)) := by
  obtain ⟨later, htokens⟩ := h.tokens
  obtain ⟨rest, hrest⟩ := List.head?_eq_some_iff.mp (h.head.trans ht)
  obtain ⟨init, hinit⟩ := List.getLast?_eq_some_iff.mp (h.last.trans hu)
  have hsplit : (start source).tokens = earlier ++ t :: (rest ++ later) := by
    rw [← htokens, hrest, List.append_assoc, List.cons_append]
  have hsplit' : (start source).tokens = (earlier ++ init) ++ u :: later := by
    rw [← htokens, hinit]
    simp
  have hfirst := covers_of_split hsplit
  have hlast := covers_of_split hsplit'
  rw [List.flatMap_append] at hlast
  have hthrough := hfirst.through hlast hne
  rw [hinit, List.flatMap_append, List.flatMap_singleton]
  exact hthrough

end Lexer

end ImpC
