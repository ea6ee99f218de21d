import ImpC.Compilation
import ImpC.Proofs.Token.Stretch
import ImpC.Proofs.Grammar.Blame
import ImpC.Proofs.Program.Places

/-!
# The places of diagnostics

Every diagnostic is at a stretch of the source that starts with the first character of a token and ends
with the last character of one, or at the empty stretch behind the text.
-/
namespace ImpC

/-- The location is a stretch of the source that does not end with a blank. -/
def Location.Sound (source : Source) (a : Location) : Prop :=
  ∃ before covered, a.Covers source before covered ∧
    ∀ c ∈ covered.getLast?, Pattern.isBlank c = false

variable {source : Source}

/-- The place of the end of a text is behind it. -/
theorem endLocation_sound (source : Source) :
    (Parser.endLocation (Lexer.start source).tokenize.tokens).Sound source := by
  obtain ⟨ts, last, -, -, hending, -, hcovers, -⟩ := Lexer.tokenize_ends source
  refine ⟨source.text, [], ?_, by simp⟩
  rw [Parser.endLocation, hending]
  exact hcovers

/-- From one token to another. -/
theorem spans_sound {ts : List Token} {a : Location}
    (hin : ts <:+: Parser.body (Lexer.start source).tokenize.tokens) (h : Surface.Spans ts a) :
    a.Sound source := by
  obtain ⟨t, u, ht, hu, rfl⟩ := h
  have hne : ts ≠ [] := by
    intro hnil
    rw [hnil] at ht
    cases ht
  obtain ⟨earlier, run, hrun, hts⟩ := Lexer.exists_body_run hin hne
  exact ⟨_, _, hrun.covers ht hu (hts u (List.mem_of_getLast? hu)).2.2,
    hrun.last_solid (fun v hv => (hts v hv).1) (fun v hv => (hts v hv).2.1)
      fun v hv => (hts v hv).2.2⟩

theorem token_sound {t : Token} (ht : t ∈ Parser.body (Lexer.start source).tokenize.tokens) :
    t.location.Sound source := by
  obtain ⟨before, after, hsplit⟩ := List.append_of_mem ht
  have hin : [t] <:+: Parser.body (Lexer.start source).tokenize.tokens :=
    ⟨before, after, by simp [hsplit]⟩
  exact spans_sound hin ⟨t, t, rfl, rfl, rfl⟩

theorem lexical_sound {e : Located LexicalError} (he : e ∈ (Lexer.start source).tokenize.errors) :
    e.location.Sound source := by
  have hfaults : e ∈ (Lexer.start source).tokenize.tokens.filterMap Lexer.fault? := he
  obtain ⟨t, ht, hfault⟩ := List.mem_filterMap.mp hfaults
  have hlocation : e.location = t.location ∧ t.kind = .unknown := by
    unfold Lexer.fault? at hfault
    split at hfault
    · cases hfault
      exact ⟨rfl, ‹_›⟩
    · cases hfault
      exact ⟨rfl, ‹_›⟩
    · cases hfault
  rw [hlocation.1]
  exact token_sound (Lexer.tokenize_body ht (by simp [hlocation.2]))

theorem syntactic_sound {e : Located SyntaxError}
    (he : e ∈ (parse (Lexer.start source).tokenize.tokens).errors) : e.location.Sound source := by
  by_cases hbody : Parser.body (Lexer.start source).tokenize.tokens = []
  · rw [parse, if_pos (by simpa using hbody)] at he
    rw [List.mem_singleton.mp he]
    exact endLocation_sound source
  · rw [Grammar.parse_errors hbody] at he
    obtain ⟨s, hs, rfl⟩ := List.mem_map.mp he
    obtain ⟨before, hsuffix⟩ := (Grammar.places_blames hbody).suffix s hs
    rw [Stuck.error]
    cases hrest : s.rest with
    | nil => exact endLocation_sound source
    | cons t rest =>
      apply token_sound
      rw [← hsuffix, hrest]
      simp

namespace Target

/-- A report is about a variable or about an argument to print. -/
theorem mem_reports {table : List Variable} {before : List Nat} {sites : List Site}
    {e : Located EmissionError} (h : e ∈ reports table before sites) :
    (∃ v ∈ table, e.location = v.location) ∨ ∃ a, .argument a ∈ sites ∧ e.location = a.location := by
  induction sites generalizing before with
  | nil => cases h
  | cons site sites ih =>
    have hmore {before : List Nat} (h : e ∈ reports table before sites) :
        (∃ v ∈ table, e.location = v.location) ∨
          ∃ a, .argument a ∈ site :: sites ∧ e.location = a.location :=
      (ih h).imp_right fun ⟨a, ha, heq⟩ => ⟨a, List.mem_cons_of_mem _ ha, heq⟩
    cases site with
    | block scope =>
      rcases List.mem_append.mp h with h | h
      · left
        split at h
        · cases h
        · obtain ⟨i, -, hi⟩ := List.mem_filterMap.mp h
          obtain ⟨v, hv, hreport⟩ := Option.bind_eq_some_iff.mp hi
          refine ⟨v, List.mem_of_getElem? hv, ?_⟩
          rw [unsupported?] at hreport
          split at hreport
          · cases hreport
            rfl
          · cases hreport
            rfl
          all_goals cases hreport
      · exact hmore h
    | argument a =>
      rcases List.mem_append.mp h with h | h
      · right
        refine ⟨a, List.mem_cons_self, ?_⟩
        rw [Option.mem_toList, printReport?] at h
        split at h <;> cases h <;> rfl
      · exact hmore h

end Target

/-- All names and expressions of a text are at sound places. -/
theorem assures_sound (source : Source) :
    Surface.Assures (·.location.Sound source) (fun x => ∀ y ∈ x.parts, y.location.Sound source)
      (Parser.body (Lexer.start source).tokenize.tokens) where
  names t ht := token_sound ht
  values us x hin hx := by
    intro y hy
    obtain ⟨part, hpart, hfaithful⟩ := hx.parts y hy
    exact spans_sound (hpart.trans hin) hfaithful.spans

theorem resolved_sound {tree : Tree}
    (h : (parse (Lexer.start source).tokenize.tokens).tree = some tree) :
    let resolved := resolve (Surface.ofTree tree)
    (∀ e ∈ resolved.program.expressions, e.location.Sound source) ∧
      (∀ v ∈ resolved.table, v.location.Sound source) ∧
      ∀ e ∈ resolved.errors, e.location.Sound source := by
  intro resolved
  obtain ⟨hexpressions, hrest⟩ :=
    resolve_keeps (fun x hx => hx) (Surface.parse_all h (assures_sound source))
  refine ⟨fun e he => ?_, hrest⟩
  obtain ⟨x, y, scopes, hx, hy, rfl⟩ := hexpressions e he
  rw [location_expression]
  exact hx y hy

theorem emission_sound {tree : Tree}
    (h : (parse (Lexer.start source).tokenize.tokens).tree = some tree) :
    let resolved := resolve (Surface.ofTree tree)
    ∀ e ∈ (Target.generate resolved.program resolved.table).errors, e.location.Sound source := by
  intro resolved e he
  obtain ⟨hexpressions, htable, -⟩ := resolved_sound h
  have hreports : e ∈ Target.reports resolved.table [] resolved.program.sites := by
    rw [← (Target.program_accounts resolved.program resolved.table).inOrder]
    exact he
  rcases Target.mem_reports hreports with ⟨v, hv, heq⟩ | ⟨a, ha, heq⟩
  · exact heq ▸ htable v hv
  · exact heq ▸ hexpressions a (Block.mem_sites ha)

/-- Every diagnostic is at a stretch of the source that does not end with a blank. -/
theorem compile_sound {name text : Text} {strict : Bool} {d : Diagnostic}
    (hd : d ∈ (compile name text strict).diagnostics) : d.location.Sound ⟨name, text⟩ := by
  have hfront : d ∈ (Lexer.start ⟨name, text⟩).tokenize.errors.map Diagnostic.ofLexical ++
      (parse (Lexer.start ⟨name, text⟩).tokenize.tokens).errors.map Diagnostic.ofSyntactic →
      d.location.Sound ⟨name, text⟩ := by
    intro h
    rcases List.mem_append.mp h with h | h
    · obtain ⟨e, he, rfl⟩ := List.mem_map.mp h
      exact lexical_sound he
    · obtain ⟨e, he, rfl⟩ := List.mem_map.mp h
      exact syntactic_sound he
  cases htree : (parse (Lexer.start ⟨name, text⟩).tokenize.tokens).tree with
  | none =>
    simp only [compile, htree] at hd
    exact hfront hd
  | some tree =>
    simp only [compile, htree] at hd
    rcases List.mem_append.mp hd with hd | hd
    · rcases List.mem_append.mp hd with hd | hd
      · exact hfront hd
      · obtain ⟨e, he, rfl⟩ := List.mem_map.mp hd
        exact (resolved_sound htree).2.2 e he
    · obtain ⟨e, he, rfl⟩ := List.mem_map.mp hd
      exact emission_sound htree e he

end ImpC
