import ImpC.Program.Resolve
import ImpC.Proofs.C.StringLiteral
import ImpC.Proofs.Token.Accepted

/-!
# Strings keep their value

A string token is a quote, items and a quote, where an item is a character or a backslash with the
character after it. Its value is that of the items, and so is the value of the literal emitted for it.
-/
namespace ImpC

open ImpC.C

/-- What a string literal is made of. -/
inductive Item where
  | plain (c : Char)
  | escaped (c : Char)
  deriving DecidableEq

namespace Item

def spelling : Item → Text
  | .plain c => [c]
  | .escaped c => ['\\', c]

def value : Item → Char
  | .plain c => c
  | .escaped 'n' => '\n'
  | .escaped 't' => '\t'
  | .escaped 'r' => '\r'
  | .escaped '0' => '\x00'
  | .escaped c => c

/-- A quote and a backslash are items only behind a backslash, and the end of the line is none. -/
def IsValid : Item → Prop
  | .plain c => c ≠ '"' ∧ c ≠ '\\' ∧ c ≠ '\n'
  | .escaped c => c ≠ '\n'

def spellings (items : List Item) : Text := items.flatMap spelling

theorem escaped_value (c : Char) : (escaped c).value = Text.unescapeChar c := by
  by_cases hn : c = 'n'
  · rw [hn]
    rfl
  · by_cases ht : c = 't'
    · rw [ht]
      rfl
    · by_cases hr : c = 'r'
      · rw [hr]
        rfl
      · by_cases h0 : c = '0'
        · rw [h0]
          rfl
        · simp [value, Text.unescapeChar, hn, ht, hr, h0]

/-- A text whose end of string is found starts with items and a quote. -/
theorem stringTail?_items {t : Text} {n : Nat} (h : Pattern.stringTail? t = some n) :
    ∃ items : List Item, (∀ i ∈ items, i.IsValid) ∧ (spellings items).length + 1 = n ∧
      ∃ rest, t = spellings items ++ '"' :: rest := by
  fun_induction Pattern.stringTail? t generalizing n with
  | case1 | case3 | case4 | case5 => cases h
  | case2 rest =>
    cases h
    exact ⟨[], by simp, rfl, rest, rfl⟩
  | case6 c t hnewline ih =>
    obtain ⟨m, hm, rfl⟩ := Option.map_eq_some_iff.mp h
    obtain ⟨items, hvalid, hlength, rest, rfl⟩ := ih hm
    refine ⟨.escaped c :: items, List.forall_mem_cons.mpr ⟨hnewline, hvalid⟩, ?_, rest, rfl⟩
    rw [← hlength]
    rfl
  | case7 c t hquote hnewline _ hlone hbackslash ih =>
    obtain ⟨m, hm, rfl⟩ := Option.map_eq_some_iff.mp h
    obtain ⟨items, hvalid, hlength, rest, rfl⟩ := ih hm
    have hne : c ≠ '\\' := by
      rintro rfl
      cases hrest : spellings items ++ '"' :: rest with
      | nil => simp at hrest
      | cons d t => exact hbackslash d t rfl hrest
    refine ⟨.plain c :: items,
      List.forall_mem_cons.mpr ⟨⟨hquote, hne, hnewline⟩, hvalid⟩, ?_, rest, rfl⟩
    rw [← hlength]
    rfl

/-- A backslash is never the last character, so items are taken apart one by one. -/
theorem unescape_spellings {items : List Item} (h : ∀ i ∈ items, i.IsValid) :
    Text.unescape (spellings items) = items.map value := by
  induction items with
  | nil => rfl
  | cons i items ih =>
    rw [List.forall_mem_cons] at h
    cases i with
    | plain c =>
      have hne : c ≠ '\\' := h.1.2.1
      have hcons : spellings (.plain c :: items) = c :: spellings items := rfl
      rw [hcons, Text.unescape, ih h.2, List.map_cons, value]
      · exact fun hc => absurd hc hne
      · exact fun _ _ hc => absurd hc hne
    | escaped c =>
      have hcons : spellings (.escaped c :: items) = '\\' :: c :: spellings items := rfl
      rw [hcons, Text.unescape, ih h.2, List.map_cons, escaped_value]

/-- No backslash is left over at the end, wherever among the items one starts. -/
theorem spellings_ne_backslash {items : List Item} (h : ∀ i ∈ items, i.IsValid) :
    spellings items ≠ ['\\'] := by
  cases items with
  | nil => exact (List.cons_ne_nil _ _).symm
  | cons i items =>
    rw [List.forall_mem_cons] at h
    cases i with
    | plain c =>
      intro heq
      exact h.1.2.1 (List.cons.inj heq).1
    | escaped c =>
      intro heq
      exact List.cons_ne_nil _ _ (List.cons.inj heq).2

end Item

open Item

/-- The text of a string token is a quoted sequence of items. -/
theorem Lexer.tokens_str (l : Lexer) (t : Token) (h : t ∈ l.tokens) (hkind : t.kind = .str) :
    ∃ items : List Item, (∀ i ∈ items, i.IsValid) ∧ t.text = '"' :: (spellings items ++ ['"']) := by
  have haccepts := tokens_rule h (p := .str) (by rw [hkind]; rfl)
  rw [hkind] at haccepts
  obtain ⟨u, rest, htext, htail⟩ := Pattern.accepts_str haccepts
  obtain ⟨items, hvalid, hlength, rest', heq⟩ := stringTail?_items htail
  refine ⟨items, hvalid, ?_⟩
  have hsplit : u ++ rest = (spellings items ++ ['"']) ++ rest' := by rw [heq]; simp
  rw [htext, (List.append_inj hsplit (by simpa using hlength.symm)).1]

theorem Text.unquote_quoted (t : Text) : Text.unquote ('"' :: (t ++ ['"'])) = t := by
  rw [Text.unquote, List.getLast?_concat, if_pos rfl, List.dropLast_concat]

/-- The literal emitted for a text is one string literal of C, and its value is the text. A string
token is made of items between quotes, its value is that of the items, and so is the value of the
literal emitted for it. -/
theorem string_value_preserved :
    (∀ t : Text, IsString (Target.escape t) ∧
      lexemes (Target.escape t) = [.string (Target.escape t)] ∧
      (∀ c ∈ Target.escape t, IsGraphic c) ∧ (Target.escape t).IsChain Apart ∧
      stringValue? (Target.escape t) = some t) ∧
    Function.Injective Target.escape ∧
    ∀ source, ∀ token ∈ (Lexer.start source).tokens, token.kind = .str →
      ∃ items : List Item, (∀ i ∈ items, i.IsValid) ∧
        token.text = '"' :: (spellings items ++ ['"']) ∧
        (∀ k, spellings (items.drop k) ≠ ['\\']) ∧
        Text.unescape (Text.unquote token.text) = items.map value ∧
        ∀ location, stringValue? (Target.literal
          (Resolver.literal location (.str token.text)).1) = some (items.map value) := by
  refine ⟨fun t => ⟨isString_escape t, lexemes_escape t, escape_graphic t, escape_apart t,
    stringValue?_escape t⟩, escape_injective, fun source token htoken hkind => ?_⟩
  obtain ⟨items, hvalid, htext⟩ := Lexer.tokens_str _ token htoken hkind
  have hvalue : Text.unescape (Text.unquote token.text) = items.map value := by
    rw [htext, Text.unquote_quoted, unescape_spellings hvalid]
  refine ⟨items, hvalid, htext, fun k => ?_, hvalue, fun location => ?_⟩
  · exact spellings_ne_backslash fun i hi => hvalid i (List.mem_of_mem_drop hi)
  · rw [← hvalue]
    exact stringValue?_escape _

end ImpC
