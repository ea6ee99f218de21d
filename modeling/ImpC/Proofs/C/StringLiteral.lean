import Mathlib.Data.List.Chain
import ImpC.Proofs.C.Literal

/-!
# The values of C string literals

A reader of the value of a string literal: simple escapes, and octal ones of up to three digits, each
as long as possible. Hexadecimal escapes and universal names are not read, and neither is an octal
escape beyond ASCII, which is a byte and no character. The literal emitted for a text has this text
as its value.
-/
namespace ImpC.C

/-- What follows a backslash: the character that both stand for, and the rest. -/
def escaped? (t : Text) : Option (Char × Text) :=
  let digits := (t.take 3).takeWhile isOctal
  let code := Nat.ofDigitChars 8 digits 0
  match t with
  | [] => none
  | c :: rest =>
    if digits = [] then (simpleEscape? c).map (·, rest)
    else if code < 128 then some (.ofNat code, t.drop digits.length)
    else none

/-- The first character of a literal, and the rest of what stands between its quotes. -/
def character? : Text → Option (Char × Text)
  | [] => none
  | c :: t =>
    if c = '\\' then escaped? t
    else if c = '"' ∨ c = '\n' then none
    else some (c, t)

theorem escaped?_lt {t rest : Text} {c : Char} (h : escaped? t = some (c, rest)) :
    rest.length < t.length := by
  unfold escaped? at h
  dsimp only at h
  split at h
  · cases h
  · rename_i d t
    split at h
    · obtain ⟨_, -, heq⟩ := Option.map_eq_some_iff.mp h
      cases heq
      exact Nat.lt_succ_self _
    · rename_i hdigits
      obtain ⟨-, heq⟩ := Option.ite_none_right_eq_some.mp h
      cases heq
      have hpos := List.length_pos_iff.mpr hdigits
      rw [List.length_drop, List.length_cons]
      omega

theorem character?_lt {t rest : Text} {c : Char} (h : character? t = some (c, rest)) :
    rest.length < t.length := by
  cases t with
  | nil => cases h
  | cons d t =>
    unfold character? at h
    dsimp only at h
    split at h
    · exact Nat.lt_succ_of_lt (escaped?_lt h)
    · obtain ⟨-, heq⟩ := Option.ite_none_left_eq_some.mp h
      cases heq
      exact Nat.lt_succ_self _

/-- The text that stands between the quotes of a literal denotes. -/
def characters? (t : Text) : Option Text :=
  if t = [] then some []
  else
    match h : character? t with
    | none => none
    | some (c, rest) =>
      have := character?_lt h
      (characters? rest).map (c :: ·)
termination_by t.length

def stringValue? : Text → Option Text
  | '"' :: t => if t.getLast? = some '"' then characters? t.dropLast else none
  | _ => none

/-- Characters are read off the front of a literal one by one. -/
theorem characters?_cons {t rest : Text} {c : Char} (h : character? t = some (c, rest)) :
    characters? t = (characters? rest).map (c :: ·) := by
  have hne : t ≠ [] := by
    rintro rfl
    cases h
  rw [characters?, if_neg hne]
  split
  · rename_i hnone
    rw [h] at hnone
    cases hnone
  · rename_i d rest' hsome
    rw [h] at hsome
    cases hsome
    rfl

theorem isOctal_digitChar {n : Nat} (hn : n < 8) : isOctal n.digitChar = true := by
  have hall : ∀ n < 8, isOctal n.digitChar = true := by decide
  exact hall n hn

/-- Three octal digits are a number again. -/
theorem ofDigitChars_octal {n : Nat} (hn : n < 128) :
    Nat.ofDigitChars 8 [(n / 64).digitChar, (n / 8 % 8).digitChar, (n % 8).digitChar] 0 = n := by
  have hall : ∀ n < 128,
      Nat.ofDigitChars 8 [(n / 64).digitChar, (n / 8 % 8).digitChar, (n % 8).digitChar] 0 = n := by
    decide
  exact hall n hn

/-- Whatever follows three octal digits is not read with them. -/
theorem escaped?_octal {c : Char} (hc : c.toNat < 128) (rest : Text) :
    escaped? ((c.toNat / 64).digitChar :: (c.toNat / 8 % 8).digitChar ::
      (c.toNat % 8).digitChar :: rest) = some (c, rest) := by
  have hfirst := @isOctal_digitChar (c.toNat / 64) (by omega)
  have hsecond := @isOctal_digitChar (c.toNat / 8 % 8) (by omega)
  have hthird := @isOctal_digitChar (c.toNat % 8) (by omega)
  simp only [escaped?, List.take_succ_cons, List.take_zero, List.takeWhile_cons, hfirst, hsecond,
    hthird, if_true, List.takeWhile_nil, ofDigitChars_octal hc, hc, Char.ofNat_toNat,
    reduceCtorEq, if_false]
  rfl

/-- A character is read back whatever follows it, a digit after an octal escape included. -/
theorem Written.character? {c : Char} {t : Text} (h : Written c t) (rest : Text) :
    character? (t ++ rest) = some (c, rest) := by
  cases h with
  | @simple d hd hoctal hgraphic => simp [C.character?, escaped?, hoctal, hd]
  | octal hc => exact escaped?_octal hc rest
  | plain hquote hbackslash hquestion hgraphic =>
    have hnewline : c ≠ '\n' := by
      rintro rfl
      exact absurd hgraphic (by decide)
    simp [C.character?, hquote, hbackslash, hnewline]

/-- The characters of an escaped text are those of the text. -/
theorem characters?_escaped (t : Text) : characters? (t.flatMap Target.escapeChar) = some t := by
  induction t with
  | nil => rw [List.flatMap_nil, characters?, if_pos rfl]
  | cons c t ih =>
    rw [List.flatMap_cons, characters?_cons ((escapeChar_written c).character? _), ih, Option.map_some]

theorem stringValue?_escape (t : Text) : stringValue? (Target.escape t) = some t := by
  have hbody : stringValue? (Target.escape t) =
      if (t.flatMap Target.escapeChar ++ ['"']).getLast? = some '"' then
        characters? (t.flatMap Target.escapeChar ++ ['"']).dropLast else none := rfl
  rw [hbody, List.getLast?_concat, if_pos rfl, List.dropLast_concat, characters?_escaped]

/-- Different texts have different literals. -/
theorem escape_injective : Function.Injective Target.escape := by
  intro t u h
  have hvalue := stringValue?_escape t
  rw [h, stringValue?_escape] at hvalue
  exact (Option.some.inj hvalue).symm

theorem Written.graphic {c : Char} {t : Text} (h : Written c t) : ∀ d ∈ t, IsGraphic d := by
  have hbackslash : IsGraphic '\\' := by decide
  cases h with
  | simple hd hoctal hgraphic => simp [hbackslash, hgraphic]
  | octal hc =>
    have hdigit : ∀ n < 8, IsGraphic n.digitChar := by decide
    simp only [List.forall_mem_cons, List.not_mem_nil, false_implies, implies_true, and_true]
    exact ⟨hbackslash, hdigit _ (by omega), hdigit _ (by omega), hdigit _ (by omega)⟩
  | plain hquote hbackslash hquestion hgraphic => simp [hgraphic]

theorem escape_graphic (t : Text) : ∀ c ∈ Target.escape t, IsGraphic c := by
  have hquote : IsGraphic '"' := by decide
  intro c hc
  simp only [Target.escape, List.cons_append, List.mem_cons, List.mem_append, List.mem_flatMap,
    List.not_mem_nil, or_false] at hc
  rcases hc with rfl | ⟨d, -, hd⟩ | rfl
  · exact hquote
  · exact (escapeChar_written d).graphic c hd
  · exact hquote

/-- The two characters do not start a trigraph together. -/
def Apart (a b : Char) : Prop := a = '?' → b ≠ '?'

/-- No two question marks meet in what is written, so there are no trigraphs. -/
theorem Written.apart {c : Char} {t : Text} (h : Written c t) :
    t.IsChain Apart ∧ ∀ d ∈ t.head?, d ≠ '?' := by
  cases h with
  | simple hd hoctal hgraphic => simp [Apart]
  | octal hc =>
    have hdigit : ∀ n < 8, n.digitChar ≠ '?' := by decide
    have hfirst := hdigit (c.toNat / 64) (by omega)
    have hsecond := hdigit (c.toNat / 8 % 8) (by omega)
    simp [Apart, hfirst, hsecond]
  | plain hquote hbackslash hquestion hgraphic => simp [hquestion]

theorem flatMap_escapeChar_apart (t : Text) :
    (t.flatMap Target.escapeChar ++ ['"']).IsChain Apart ∧
      ∀ d ∈ (t.flatMap Target.escapeChar ++ ['"']).head?, d ≠ '?' := by
  induction t with
  | nil => simp
  | cons c t ih =>
    obtain ⟨hchain, hhead⟩ := (escapeChar_written c).apart
    rw [List.flatMap_cons, List.append_assoc]
    refine ⟨List.isChain_append.mpr ⟨hchain, ih.1, fun a _ b hb _ => ih.2 b hb⟩, ?_⟩
    intro d hd
    rw [List.head?_append] at hd
    cases hfirst : (Target.escapeChar c).head? with
    | none =>
      rw [hfirst] at hd
      exact ih.2 d hd
    | some e =>
      rw [hfirst] at hd hhead
      exact hhead d hd

/-- No two question marks stand side by side. -/
theorem escape_apart (t : Text) : (Target.escape t).IsChain Apart := by
  obtain ⟨hchain, hhead⟩ := flatMap_escapeChar_apart t
  rw [Target.escape, List.cons_append, List.isChain_cons]
  exact ⟨fun b hb _ => hhead b hb, hchain⟩

theorem lexemes_escape (t : Text) : lexemes (Target.escape t) = [.string (Target.escape t)] := by
  obtain ⟨u, heq, hrun⟩ := isString_escape t
  have hscan := scan_run hrun []
  rw [List.append_nil] at hscan
  have hstart : lexemes (Target.escape t) = scan (.string ['"'] false) u := by rw [heq]; rfl
  rw [hstart, hscan]
  rfl

end ImpC.C
