import ImpC.Proofs.Diagnostic.Places
import ImpC.Proofs.Text.Lines

/-!
# What an excerpt points at

An excerpt lists the lines of its place under one another, with their numbers in a gutter that is as
wide as the last number. Over the carets stand the characters that the place covers, if these are on
one line, and else the last line as far as it is covered.
-/
namespace ImpC

/-- The characters of a line that stand over the carets of another one. -/
def Excerpt.above (line carets : Text) : Text :=
  ((line.zip carets).filter (·.2 = '^')).map (·.1)

theorem Excerpt.above_carets (lead covered rest : Text) :
    above (lead ++ (covered ++ rest))
      (Text.blanks lead.length ++ List.replicate covered.length '^') = covered := by
  have hlead : (lead.zip (Text.blanks lead.length)).filter (fun p => decide (p.2 = '^')) = [] := by
    rw [List.filter_eq_nil_iff]
    intro p hp
    have hblank : p.2 = ' ' := List.eq_of_mem_replicate (List.of_mem_zip hp).2
    rw [hblank]
    decide
  have hcovered : ((covered ++ rest).zip (List.replicate covered.length '^')).filter
      (fun p => decide (p.2 = '^')) = covered.map (·, '^') := by
    induction covered with
    | nil => simp
    | cons c covered ih => simp [List.replicate_succ, ih]
  rw [above, List.zip_append (by simp [Text.blanks]), List.filter_append, hlead, hcovered]
  simp [Function.comp_def]

namespace Location

/-- The number of a line, behind blanks up to the width of the last one. -/
def gutter (a : Location) (n : Nat) : Text :=
  Text.padLeft (Text.ofNat a.last.line).length (Text.ofNat n)

/-- The rows of an excerpt: an empty one, the lines with their numbers, and the carets. -/
def excerptRows (a : Location) (carets : Text) : List Text :=
  let margin := Text.blanks (Text.ofNat a.last.line).length
  (margin ++ " |".toList) ::
    (List.range' a.first.line (a.last.line + 1 - a.first.line)).map
      (fun n => a.gutter n ++ " | ".toList ++ a.source.text.row n) ++
    [margin ++ " | ".toList ++ carets]

/-- The carets point at the stretch `covered`. -/
structure Pointed (a : Location) (covered carets : Text) : Prop where
  ordered : a.first.line ≤ a.last.line
  oneLine : a.first.line = a.last.line → covered ≠ [] →
    carets = Text.blanks (a.first.column - 1) ++ List.replicate covered.length '^' ∧
      Excerpt.above (a.source.text.row a.last.line) carets = covered
  empty : covered = [] → a.last = a.first ∧ carets = Text.blanks (a.first.column - 1) ++ ['^']
  manyLines : a.first.line ≠ a.last.line → carets = List.replicate a.last.column '^' ∧
    (a.source.text.row a.last.line)[a.last.column - 1]? = covered.getLast?

/-- No number up to that of the last line is wider. -/
theorem length_gutter (a : Location) {n : Nat} (hn : n ≤ a.last.line) :
    (a.gutter n).length = (Text.ofNat a.last.line).length := by
  have hpos : 0 < (Text.ofNat a.last.line).length := Nat.length_toDigits_pos
  have hlast : a.last.line < 10 ^ (Text.ofNat a.last.line).length :=
    (Nat.length_toDigits_le_iff (by decide) hpos).mp (Nat.le_refl _)
  have hwidth : (Text.ofNat n).length ≤ (Text.ofNat a.last.line).length :=
    (Nat.length_toDigits_le_iff (by decide) hpos).mpr (Nat.lt_of_le_of_lt hn hlast)
  rw [gutter, Text.padLeft, Text.blanks, List.length_append, List.length_replicate]
  omega

theorem excerpt_render (a : Location) (hfirst : 1 ≤ a.first.line) :
    a.excerpt.render = (a.excerptRows
      (Text.blanks a.excerpt.indent ++ List.replicate a.excerpt.carets '^')).flatMap (· ++ ['\n']) := by
  have hlines : a.excerpt.lines.flatMap
        (fun l => a.excerpt.lineText (Text.ofNat l.1) (' ' :: l.2)) =
      ((List.range' a.first.line (a.last.line + 1 - a.first.line)).map
        (fun n => a.gutter n ++ " | ".toList ++ a.source.text.row n)).flatMap (· ++ ['\n']) := by
    rw [excerpt, List.flatMap_map, List.flatMap_map]
    refine List.flatMap_congr fun n hn => ?_
    have hone : 1 ≤ n := Nat.le_trans hfirst (List.mem_range'_1.mp hn).1
    rw [Source.line?_eq_row _ hone]
    simp [Excerpt.lineText, gutter]
  rw [Excerpt.render, hlines, excerptRows]
  simp [Excerpt.lineText, Text.padLeft, excerpt]

section Pointed

variable {a : Location} {source : Source} {before covered : Text}

theorem Covers.line_le (h : a.Covers source before covered) : a.first.line ≤ a.last.line := by
  rw [h.first, h.last, Position.advance_append, Position.line_advance _ covered.dropLast]
  exact Nat.le_add_right _ _

/-- A stretch on one line has no line feed. -/
theorem Covers.newline_not_mem (h : a.Covers source before covered)
    (hlast : ∀ c ∈ covered.getLast?, c ≠ '\n') (hline : a.first.line = a.last.line) :
    '\n' ∉ covered := by
  rw [h.first, h.last, Position.advance_append, Position.line_advance _ covered.dropLast] at hline
  have hinit : '\n' ∉ covered.dropLast := List.count_eq_zero.mp (by omega)
  intro hmem
  rcases List.eq_nil_or_concat covered with rfl | ⟨init, c, rfl⟩
  · cases hmem
  · simp only [List.concat_eq_append, List.dropLast_concat] at hinit hmem hlast
    rcases List.mem_append.mp hmem with hmem | hmem
    · exact hinit hmem
    · exact hlast c List.getLast?_concat (List.mem_singleton.mp hmem).symm

theorem Covers.last_column (h : a.Covers source before covered) (hflat : '\n' ∉ covered) :
    a.last.column = a.first.column + (covered.length - 1) := by
  have hinit : '\n' ∉ covered.dropLast := fun hmem => hflat (List.mem_of_mem_dropLast hmem)
  rw [h.last, h.first, Position.advance_append, Position.advance_line _ hinit,
    List.length_dropLast]

/-- The last character of a stretch is on the last line, at the last column. -/
theorem Covers.last_character {init : Text} {c : Char} (h : a.Covers source before (init ++ [c]))
    (hnewline : c ≠ '\n') (hreturn : c ≠ '\r') :
    1 ≤ a.last.column ∧ (a.source.text.row a.last.line)[a.last.column - 1]? = some c := by
  have hwithin : before ++ init ++ [c] <+: source.text := by
    rw [List.append_assoc]
    exact h.within
  have hend : a.last = Position.origin.advance (before ++ init) := by
    rw [h.last, List.dropLast_concat]
  obtain ⟨lead, rest, hrow, hcolumn⟩ := Text.row_within hwithin (by simpa using hnewline.symm)
    (by simpa using hreturn) (List.cons_ne_nil c [])
  constructor
  · rw [hend, hcolumn]
    exact Nat.le_add_left 1 _
  · rw [h.origin, hend, hrow, hcolumn, Nat.add_sub_cancel]
    simp

/-- The carets stand below what the location covers. -/
theorem pointed_of_covers (h : a.Covers source before covered)
    (hlast : ∀ c ∈ covered.getLast?, Pattern.isBlank c = false) :
    a.Pointed covered (Text.blanks a.excerpt.indent ++ List.replicate a.excerpt.carets '^') := by
  have hsolid {c b : Char} (hc : c ∈ covered.getLast?) (hb : Pattern.isBlank b = true) : c ≠ b := by
    rintro rfl
    exact absurd hb (by simp [hlast c hc])
  have hnewline : ∀ c ∈ covered.getLast?, c ≠ '\n' := fun _ hc => hsolid hc (by decide)
  have hreturn : ∀ c ∈ covered.getLast?, c ≠ '\r' := fun _ hc => hsolid hc (by decide)
  refine ⟨h.line_le, fun hline hne => ?_, fun hnil => ?_, fun hlines => ?_⟩
  -- on one line each character has its caret
  · have hflat := h.newline_not_mem hnewline hline
    obtain ⟨lead, rest, hrow, hcolumn⟩ := Text.row_within h.within hflat hreturn hne
    have hpos : 0 < covered.length := List.length_pos_iff.mpr hne
    have hcarets : Text.blanks a.excerpt.indent ++ List.replicate a.excerpt.carets '^' =
        Text.blanks (a.first.column - 1) ++ List.replicate covered.length '^' := by
      simp only [excerpt, if_pos hline, h.last_column hflat]
      congr 2 <;> omega
    refine ⟨hcarets, ?_⟩
    rw [← hline, h.origin, h.first, hrow, hcarets, h.first, hcolumn, Nat.add_sub_cancel,
      Excerpt.above_carets]
  -- an empty place has one caret
  · have hplace : a.last = a.first := by
      rw [h.last, h.first, hnil, List.dropLast_nil, List.append_nil]
    refine ⟨hplace, ?_⟩
    simp [excerpt, hplace]
  -- on several lines the carets run from the start of the last line to the last character
  · obtain ⟨init, c, rfl⟩ : ∃ init c, covered = init ++ [c] := by
      rcases List.eq_nil_or_concat covered with rfl | ⟨init, c, rfl⟩
      · exact absurd (by rw [h.first, h.last, List.dropLast_nil, List.append_nil]) hlines
      · exact ⟨init, c, List.concat_eq_append⟩
    obtain ⟨hone, hcharacter⟩ := h.last_character (hnewline c List.getLast?_concat)
      (hreturn c List.getLast?_concat)
    refine ⟨?_, hcharacter.trans List.getLast?_concat.symm⟩
    simp only [excerpt, if_neg hlines]
    rw [Nat.min_eq_left hone, Nat.max_eq_right hone, Nat.sub_add_cancel hone]
    rfl

end Pointed

end Location

/-- The report of a diagnostic points at the characters that its place covers. -/
theorem excerpt_points_at_covered {name text : Text} {strict : Bool} {d : Diagnostic}
    (hd : d ∈ (compile name text strict).diagnostics) :
    ∃ before covered carets, d.location.Covers ⟨name, text⟩ before covered ∧
      d.location.text? = some covered ∧
      d.render = d.stage.label ++ ": ".toList ++ d.message ++ "\n --> ".toList ++
        d.location.render ++ '\n' :: (d.location.excerptRows carets).flatMap (· ++ ['\n']) ++ ['\n'] ∧
      (∀ n, d.location.first.line ≤ n → n ≤ d.location.last.line →
        (d.location.gutter n).length = (Text.ofNat d.location.last.line).length ∧
          (d.location.source.line? n).getD [] = text.row n) ∧
      d.location.Pointed covered carets := by
  obtain ⟨before, covered, hcovers, hlast⟩ := compile_sound hd
  have hfirst : 1 ≤ d.location.first.line := by
    rw [hcovers.first]
    exact Position.one_le_line before
  refine ⟨before, covered, _, hcovers, hcovers.text?, ?_, fun n hle hge => ⟨?_, ?_⟩,
    Location.pointed_of_covers hcovers hlast⟩
  · rw [Diagnostic.render, Location.excerpt_render _ hfirst]
  · exact d.location.length_gutter hge
  · rw [Source.line?_eq_row _ (Nat.le_trans hfirst hle), hcovers.origin]

/-- An undefined name behind a character of two bytes, in an argument that goes on to the next line. -/
def undefinedNameText : Text := "var s = \"é\"; print(t +\r\n s);\n".toList

theorem excerpt_points_at_undefined :
    ∃ d ∈ (compile [] undefinedNameText false).diagnostics,
      ∃ e ∈ (compile [] undefinedNameText false).diagnostics,
      (∃ carets, d.location.Pointed ['t'] carets ∧ carets = Text.blanks 19 ++ ['^']) ∧
        ∃ carets, e.location.Pointed "t +\r\n s".toList carets ∧ carets = ['^', '^'] := by
  have htokens : (Lexer.start ⟨[], undefinedNameText⟩).tokens =
      ((Lexer.start ⟨[], undefinedNameText⟩).advance 40).1 :=
    Lexer.tokens_eq_advance (by decide)
  have hrun : (compile [] undefinedNameText false).diagnostics.map
      (fun d => (d.location.text?, d.location.first, d.location.last)) =
        [(some ['t'], ⟨1, 20⟩, ⟨1, 20⟩), (some "t +\r\n s".toList, ⟨1, 20⟩, ⟨2, 2⟩)] := by
    rw [compile, Lexer.tokenize, htokens]
    decide +kernel
  obtain ⟨d, more, hds, hd, hmore⟩ := List.map_eq_cons_iff.mp hrun
  obtain ⟨e, _, rfl, he, -⟩ := List.map_eq_cons_iff.mp hmore
  simp only [Prod.mk.injEq] at hd he
  have hmem : d ∈ (compile [] undefinedNameText false).diagnostics ∧
      e ∈ (compile [] undefinedNameText false).diagnostics := by simp [hds]
  obtain ⟨-, s, carets, -, hs, -, -, hpointed⟩ := excerpt_points_at_covered hmem.1
  obtain ⟨-, s', carets', -, hs', -, -, hpointed'⟩ := excerpt_points_at_covered hmem.2
  obtain rfl : s = ['t'] := Option.some.inj (hs.symm.trans hd.1)
  obtain rfl : s' = "t +\r\n s".toList := Option.some.inj (hs'.symm.trans he.1)
  refine ⟨d, hmem.1, e, hmem.2, ⟨carets, hpointed, ?_⟩, carets', hpointed', ?_⟩
  · rw [(hpointed.oneLine (by simp [hd]) (by simp)).1, hd.2.1]
    rfl
  · rw [(hpointed'.manyLines (by simp [he])).1, he.2.2]
    rfl

end ImpC
