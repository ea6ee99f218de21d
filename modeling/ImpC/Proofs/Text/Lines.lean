import ImpC.Text.Location
import ImpC.Proofs.Token.Lines

/-!
# Lines and columns

The pieces of a text between its line feeds are its lines, each but the last without the carriage
return at its end. A stretch of text without a line feed is part of the line that its place names, and
its column counts the characters before it there.
-/
namespace ImpC

namespace Text

/-- A line without the carriage return at its end. -/
def chomp (line : Text) : Text := if line.getLast? = some '\r' then line.dropLast else line

/-- Line `n`, counted from one, of a text that is cut at its line feeds. There is nothing past the
end, and no line feed behind the last line. -/
def row (t : Text) (n : Nat) : Text :=
  match (t.splitOn '\n').drop (n - 1) with
  | [] => []
  | [line] => line
  | line :: _ => chomp line

theorem splitOn_newline (t : Text) : List.splitOn '\n' ('\n' :: t) = [] :: t.splitOn '\n' := by
  rw [List.splitOn_cons_eq_if_modifyHead, if_pos (beq_self_eq_true _)]

theorem splitOn_other {c : Char} (hc : c ≠ '\n') (t : Text) :
    List.splitOn '\n' (c :: t) = (t.splitOn '\n').modifyHead (c :: ·) := by
  rw [List.splitOn_cons_eq_if_modifyHead, if_neg (by simpa using hc)]

theorem length_splitOn (t : Text) : (t.splitOn '\n').length = t.count '\n' + 1 := by
  induction t with
  | nil => simp
  | cons c t ih =>
    by_cases hc : c = '\n'
    · rw [hc, splitOn_newline, List.length_cons, ih, List.count_cons_self]
    · rw [splitOn_other hc, List.length_modifyHead, ih, List.count_cons_of_ne hc]

theorem chomp_cons {c : Char} {line : Text} (h : line ≠ [] ∨ c ≠ '\r') :
    chomp (c :: line) = c :: chomp line := by
  unfold chomp
  cases line with
  | nil =>
    have hc : c ≠ '\r' := by simpa using h
    simp [hc]
  | cons d line =>
    rw [List.getLast?_cons_cons, List.dropLast_cons_cons]
    split <;> rfl

theorem chomp_append {s : Text} (t : Text) (h : ∀ c ∈ s.getLast?, c ≠ '\r') :
    ∃ rest, chomp (s ++ t) = s ++ rest := by
  unfold chomp
  split
  · rename_i hlast
    cases t with
    | nil =>
      rw [List.append_nil] at hlast
      exact absurd rfl (h _ hlast)
    | cons d t => exact ⟨_, List.dropLast_append_of_ne_nil (List.cons_ne_nil d t)⟩
  · exact ⟨t, rfl⟩

/-- Lines after a line feed are those of what follows it. -/
theorem row_newline (s t : Text) (n : Nat) :
    row (s ++ '\n' :: t) (s.count '\n' + 1 + (n + 1)) = row t (n + 1) := by
  have hdrop : ((s ++ '\n' :: t).splitOn '\n').drop (s.count '\n' + 1 + n) =
      (t.splitOn '\n').drop n := by
    rw [List.splitOn_append_cons_self, ← length_splitOn, List.drop_length_add_append]
  simp only [row, Nat.add_sub_cancel, ← Nat.add_assoc, hdrop]

theorem row_cons_succ {c : Char} (hc : c ≠ '\n') (t : Text) (n : Nat) :
    row (c :: t) (n + 2) = row t (n + 2) := by
  simp only [row, splitOn_other hc, Nat.add_succ_sub_one]
  cases t.splitOn '\n' <;> rfl

/-- The first line is the part before the line feed. -/
theorem row_one_newline {s : Text} (hs : '\n' ∉ s) (t : Text) : row (s ++ '\n' :: t) 1 = chomp s := by
  rw [row, List.splitOn_append_cons_self_of_not_mem hs, Nat.sub_self, List.drop_zero]
  cases h : t.splitOn '\n' with
  | nil => exact absurd h (List.splitOn_ne_nil _ _)
  | cons line more => rfl

theorem row_one {s : Text} (hs : '\n' ∉ s) : row s 1 = s := by
  rw [row, List.splitOn_eq_singleton hs, Nat.sub_self, List.drop_zero]

/-- A text is a line, or starts with one and a line feed. -/
theorem cut_line (t : Text) : '\n' ∉ t ∨ ∃ line more, '\n' ∉ line ∧ t = line ++ '\n' :: more := by
  by_cases h : '\n' ∈ t
  · obtain ⟨line, more, rfl, hline⟩ := List.eq_append_cons_of_mem h
    exact .inr ⟨line, more, hline, rfl⟩
  · exact .inl h

/-- A character is added to the first line, unless it ends one with the line feed behind it. -/
theorem row_one_cons {c : Char} {t : Text} (hc : c ≠ '\n') (h : t.head? = some '\n' → c ≠ '\r') :
    row (c :: t) 1 = c :: row t 1 := by
  rcases cut_line t with ht | ⟨line, more, hline, rfl⟩
  · rw [row_one ht, row_one (List.not_mem_cons_of_ne_of_not_mem hc.symm ht)]
  · rw [row_one_newline hline, ← List.cons_append,
      row_one_newline (List.not_mem_cons_of_ne_of_not_mem hc.symm hline)]
    apply chomp_cons
    cases line with
    | nil => exact .inr (h rfl)
    | cons d line => exact .inl (List.cons_ne_nil d line)

/-- What is before the first line feed is the first line. -/
theorem getD_row_newline {s t : Text} {ls : List Text} (hs : '\n' ∉ s)
    (h : ∀ n, (ls[n]?).getD [] = t.row (n + 1)) (n : Nat) :
    ((chomp s :: ls)[n]?).getD [] = row (s ++ '\n' :: t) (n + 1) := by
  cases n with
  | zero => exact (row_one_newline hs t).symm
  | succ n =>
    have hrow := row_newline s t n
    rw [List.count_eq_zero.mpr hs, Nat.zero_add, Nat.add_comm 1] at hrow
    rw [List.getElem?_cons_succ, h, hrow]

/-- A character that ends no line belongs to the first line. -/
theorem getD_row_cons {c : Char} {t : Text} {ls : List Text} (hnewline : c ≠ '\n')
    (hreturn : ∀ more, c = '\r' → t = '\n' :: more → False)
    (h : ∀ n, (ls[n]?).getD [] = t.row (n + 1)) (n : Nat) :
    (((c :: ls.headD []) :: ls.tail)[n]?).getD [] = row (c :: t) (n + 1) := by
  have hhead : t.head? = some '\n' → c ≠ '\r' := by
    intro hfeed hc
    obtain ⟨more, rfl⟩ := List.head?_eq_some_iff.mp hfeed
    exact hreturn more hc rfl
  cases n with
  | zero =>
    rw [row_one_cons hnewline hhead, ← h]
    cases ls <;> rfl
  | succ n =>
    rw [row_cons_succ hnewline, ← h]
    cases ls <;> rfl

/-- The lines that are listed are those between the line feeds. -/
theorem lines_eq_row (t : Text) (n : Nat) : (t.lines[n]?).getD [] = t.row (n + 1) := by
  fun_induction lines t generalizing n with
  | case1 => cases n <;> simp [row]
  | case2 t ih => exact getD_row_newline (s := []) (by simp) ih n
  | case3 t ih => exact getD_row_newline (s := ['\r']) (by simp) ih n
  | case4 c t hnewline hreturn hnone ih =>
    rw [hnone] at ih
    exact getD_row_cons hnewline hreturn ih n
  | case5 c t hnewline hreturn line more hlines ih =>
    rw [hlines] at ih
    exact getD_row_cons hnewline hreturn ih n

/-- No line goes past its line feed. -/
theorem newline_not_mem_lines (t : Text) : ∀ line ∈ t.lines, '\n' ∉ line := by
  fun_induction lines t with
  | case1 => exact List.forall_mem_nil _
  | case2 t ih | case3 t ih => exact List.forall_mem_cons.mpr ⟨List.not_mem_nil, ih⟩
  | case4 c t hnewline hreturn hnone ih =>
    exact List.forall_mem_singleton.mpr (by simpa using Ne.symm hnewline)
  | case5 c t hnewline hreturn line more hlines ih =>
    rw [hlines, List.forall_mem_cons] at ih
    refine List.forall_mem_cons.mpr ⟨?_, ih.2⟩
    rw [List.mem_cons, not_or]
    exact ⟨Ne.symm hnewline, ih.1⟩

/-- The lines of a text that is written line by line. A carriage return may stand in a line, but not
at its end. -/
theorem lines_terminated {ts : List Text} (h : ∀ t ∈ ts, '\n' ∉ t ∧ t.getLast? ≠ some '\r') :
    lines (ts.flatMap (· ++ ['\n'])) = ts := by
  have hline (t rest : Text) (ht : '\n' ∉ t) (hlast : t.getLast? ≠ some '\r') :
      lines (t ++ '\n' :: rest) = t :: lines rest := by
    induction t with
    | nil => rw [List.nil_append, lines]
    | cons c t ih =>
      rw [List.mem_cons, not_or] at ht
      have hlast' : t.getLast? ≠ some '\r' := by
        intro hreturn
        exact hlast (by rw [List.getLast?_cons, hreturn]; rfl)
      rw [List.cons_append, lines, ih ht.2 hlast']
      · exact Ne.symm ht.1
      · intro more hc hmore
        cases t with
        | nil => exact hlast (by rw [hc, List.getLast?_singleton])
        | cons d t => exact ht.2 ((List.cons.inj hmore).1 ▸ List.mem_cons_self)
  induction ts with
  | nil => rfl
  | cons t ts ih =>
    rw [List.forall_mem_cons] at h
    rw [List.flatMap_cons, List.append_assoc, List.singleton_append, hline t _ h.1.1 h.1.2, ih h.2]

end Text

namespace Position

theorem one_le_line (t : Text) : 1 ≤ (origin.advance t).line := by
  rw [line_advance]
  exact Nat.le_add_right 1 _

/-- On one line only the column moves. -/
theorem advance_line (p : Position) {t : Text} (h : '\n' ∉ t) :
    p.advance t = ⟨p.line, p.column + t.length⟩ := by
  induction t generalizing p with
  | nil => rfl
  | cons c t ih =>
    have hc : c ≠ '\n' := fun hc => h (hc ▸ List.mem_cons_self)
    have ht : '\n' ∉ t := fun ht => h (List.mem_cons_of_mem c ht)
    rw [advance_cons, ih _ ht, after, if_neg hc, List.length_cons]
    simp only [Position.mk.injEq, true_and]
    omega

/-- What stands after a text is on the line of its place, behind as many characters as the column
says. -/
theorem row_advance (before rest : Text) : ∃ lead, '\n' ∉ lead ∧
    (origin.advance before).column = lead.length + 1 ∧
    (before ++ rest).row (origin.advance before).line = (lead ++ rest).row 1 := by
  by_cases h : '\n' ∈ before
  · obtain ⟨tail, head, hreverse, htail⟩ := List.eq_append_cons_of_mem (List.mem_reverse.mpr h)
    have hbefore : before = head.reverse ++ ['\n'] ++ tail.reverse := by
      rw [← List.reverse_reverse before, hreverse]
      simp
    have htail : '\n' ∉ tail.reverse := by rwa [List.mem_reverse]
    refine ⟨tail.reverse, htail, ?_, ?_⟩
    · rw [hbefore, advance_append, advance_newline, advance_line _ htail]
      exact Nat.add_comm _ _
    · have hline : (origin.advance before).line = head.reverse.count '\n' + 1 + (0 + 1) := by
        rw [hbefore, advance_append, advance_newline, advance_line _ htail]
        exact Nat.add_comm _ _
      have htext : before ++ rest = head.reverse ++ '\n' :: (tail.reverse ++ rest) := by
        rw [hbefore]
        simp
      rw [hline, htext, Text.row_newline]
  · refine ⟨before, h, ?_, ?_⟩
    · rw [advance_line _ h]
      exact Nat.add_comm _ _
    · rw [advance_line _ h]
      rfl

end Position

namespace Text

/-- A stretch of text on one line, by its place. -/
theorem row_within {t before covered : Text} (hwithin : before ++ covered <+: t)
    (hline : '\n' ∉ covered) (hlast : ∀ c ∈ covered.getLast?, c ≠ '\r') (hne : covered ≠ []) :
    ∃ lead rest, t.row (Position.origin.advance before).line = lead ++ (covered ++ rest) ∧
      (Position.origin.advance before).column = lead.length + 1 := by
  obtain ⟨after, rfl⟩ := hwithin
  obtain ⟨lead, hlead, hcolumn, hrow⟩ := Position.row_advance before (covered ++ after)
  rw [List.append_assoc, hrow, ← List.append_assoc]
  have hfront : '\n' ∉ lead ++ covered := by simp [hlead, hline]
  rcases cut_line after with hafter | ⟨line, more, hmore, rfl⟩
  · refine ⟨lead, after, ?_, hcolumn⟩
    rw [row_one (by simp [hlead, hline, hafter]), List.append_assoc]
  · have hreturn : ∀ c ∈ (lead ++ covered).getLast?, c ≠ '\r' := by
      rw [List.getLast?_append_of_ne_nil _ hne]
      exact hlast
    obtain ⟨rest, hrest⟩ := chomp_append line hreturn
    refine ⟨lead, rest, ?_, hcolumn⟩
    rw [← List.append_assoc, row_one_newline (by simp [hlead, hline, hmore]), hrest,
      List.append_assoc]

end Text

theorem Source.line?_eq_row (source : Source) {n : Nat} (hn : 1 ≤ n) :
    (source.line? n).getD [] = source.text.row n := by
  obtain ⟨m, rfl⟩ := Nat.exists_eq_add_of_le' hn
  exact Text.lines_eq_row source.text m

end ImpC
