import ImpC.Proofs.Grammar.Walk

/-!
# Depth of walks

More depth keeps an outcome: a call that comes back is not changed by what it would have been allowed
to do. So the outcome of a walk is the same at whatever depth it has one.
-/
namespace ImpC.Walk

open ImpC.Parser ImpC.Grammar

variable {α β : Type} {tokens : List Token}

/-- Where `m` has an outcome it is that of `m'`. -/
def Extends (m m' : Walk α) : Prop := ∀ w x, outcome? m w = some x → outcome? m' w = some x

namespace Extends

variable {m m' : Walk α}

theorem refl (m : Walk α) : Extends m m := fun _ _ h => h

theorem unfinished (m : Walk α) : Extends Walk.unfinished m := by
  intro w x h
  cases h

/-- More depth in each part keeps what the whole gives. -/
theorem bind {f f' : α → Walk β} (hm : Extends m m') (hf : ∀ a, Extends (f a) (f' a)) :
    Extends (m >>= f) (m' >>= f') := by
  intro w x h
  cases hrun : outcome? m w with
  | none =>
    rw [outcome?_bind_none hrun] at h
    cases h
  | some y =>
    obtain ⟨result, w'⟩ := y
    have hrun' := hm w _ hrun
    cases result with
    | error e =>
      rw [outcome?_bind_error hrun] at h
      rw [outcome?_bind_error hrun', h]
    | ok a =>
      rw [outcome?_bind_ok hrun] at h
      rw [outcome?_bind_ok hrun']
      exact hf a w' x h

theorem attempt (h : Extends m m') : Extends (attempt m) (Walk.attempt m') := by
  intro w x hx
  rw [outcome?_attempt] at hx ⊢
  obtain ⟨y, hy, rfl⟩ := Option.map_eq_some_iff.mp hx
  rw [h w y hy]
  rfl

theorem branch {c : Prop} [Decidable c] {n n' : Walk α} (hm : Extends m m') (hn : Extends n n') :
    Extends (if c then m else n) (if c then m' else n') := by
  by_cases hc : c
  · rw [if_pos hc, if_pos hc]
    exact hm
  · rw [if_neg hc, if_neg hc]
    exact hn

end Extends

/-- One call more makes no difference where there is an outcome. -/
def Grows (m : Nat → Walk α) : Prop := ∀ depth, Extends (m depth) (m (depth + 1))

theorem Grows.extends {m : Nat → Walk α} (h : Grows m) {depth more : Nat} (hle : depth ≤ more) :
    Extends (m depth) (m more) := by
  induction hle with
  | refl => exact .refl _
  | step _ ih => exact fun w x hx => h _ w x (ih w x hx)

/-- What is given at any depth is what is given from some depth on. -/
theorem Settles.eq_of_grows {m : Nat → Walk α} (hm : Grows m) {w w' : Walker}
    {result : Except Failure α} (h : Settles m w result w') {depth : Nat}
    {x : Except Failure α × Walker} (hx : outcome? (m depth) w = some x) : x = (result, w') := by
  obtain ⟨least, h⟩ := h
  have hmore := hm.extends (Nat.le_max_left depth least) w x hx
  rw [h _ (Nat.le_max_right depth least)] at hmore
  exact (Option.some.inj hmore).symm

structure ExpressionsGrow (tokens : List Token) (depth : Nat) : Prop where
  tower : ∀ ls, Extends (tower tokens depth ls) (tower tokens (depth + 1) ls)
  operands : ∀ level tighter,
    Extends (operands tokens depth level tighter) (operands tokens (depth + 1) level tighter)
  unary : Extends (unary tokens depth) (unary tokens (depth + 1))
  primary : Extends (primary tokens depth) (primary tokens (depth + 1))
  parenthesized : Extends (parenthesized tokens depth) (parenthesized tokens (depth + 1))
  call : Extends (call tokens depth) (call tokens (depth + 1))
  arguments : Extends (arguments tokens depth) (arguments tokens (depth + 1))
  moreArguments : Extends (moreArguments tokens depth) (moreArguments tokens (depth + 1))
  expression : Extends (expression tokens depth) (expression tokens (depth + 1))

/-- All procedures for expressions call each other with one less depth, so one induction shows them
all. -/
theorem expressions_grow (tokens : List Token) (depth : Nat) : ExpressionsGrow tokens depth := by
  induction depth with
  | zero =>
    refine ⟨fun ls => ?_, fun level tighter => ?_, ?_, ?_, ?_, ?_, ?_, ?_, ?_⟩
    all_goals exact .unfinished _
  | succ depth ih =>
    refine ⟨fun ls => ?_, fun level tighter => ?_, ?_, ?_, ?_, ?_, ?_, ?_, ?_⟩
    · cases ls with
      | nil => exact ih.unary
      | cons level tighter =>
        exact (ih.tower tighter).bind fun first => (ih.operands level tighter).bind fun more => .refl _
    · refine (Extends.refl _).bind fun kind => .branch ?_ (.refl _)
      exact (Extends.refl _).bind fun sign => (ih.tower tighter).bind fun operand =>
        (ih.operands level tighter).bind fun more => .refl _
    · refine (Extends.refl _).bind fun kind => .branch ?_ ?_
      · exact (Extends.refl _).bind fun sign => ih.unary.bind fun operand => .refl _
      · exact ih.primary.bind fun inner => .refl _
    · refine (Extends.refl _).bind fun kind => .branch (.refl _) (.branch ?_ (.branch ?_ (.refl _)))
      · exact (Extends.refl _).bind fun second => .branch (ih.call.bind fun call => .refl _) (.refl _)
      · exact ih.parenthesized.bind fun parts => .refl _
    · exact (Extends.refl _).bind fun opening => ih.expression.bind fun inner => .refl _
    · refine (Extends.refl _).bind fun function => (Extends.refl _).bind fun opening =>
        (Extends.refl _).bind fun kind => .branch (.refl _) ?_
      exact ih.arguments.bind fun arguments => .refl _
    · exact ih.expression.bind fun first => ih.moreArguments.bind fun more => .refl _
    · refine (Extends.refl _).bind fun kind => .branch ?_ (.refl _)
      exact (Extends.refl _).bind fun comma => ih.expression.bind fun argument =>
        ih.moreArguments.bind fun more => .refl _
    · exact (ih.tower levels).bind fun inner => .refl _

theorem declaration_grows (tokens : List Token) : Grows (declaration tokens) := by
  intro depth
  refine (Extends.refl _).bind fun word => (Extends.refl _).bind fun name =>
    (Extends.refl _).bind fun type => Extends.bind ?_ fun value => .refl _
  refine (Extends.refl _).bind fun kind => .branch ?_ (.refl _)
  exact (Extends.refl _).bind fun sign => (expressions_grow tokens depth).expression.bind fun value =>
    .refl _

theorem assignment_grows (tokens : List Token) : Grows (assignment tokens) := by
  intro depth
  exact (Extends.refl _).bind fun target => (Extends.refl _).bind fun sign =>
    (expressions_grow tokens depth).expression.bind fun value => .refl _

theorem callStatement_grows (tokens : List Token) : Grows (callStatement tokens) := by
  intro depth
  exact (expressions_grow tokens depth).call.bind fun call => .refl _

theorem skip_grows (tokens : List Token) : Grows (skip tokens) := by
  intro depth
  induction depth with
  | zero => exact .unfinished _
  | succ depth ih =>
    refine (Extends.refl _).bind fun kind => .branch (.refl _) ?_
    exact (Extends.refl _).bind fun token => .branch (.refl _) ih

theorem synchronize_grows (tokens : List Token) (start : Nat) :
    Grows (synchronize tokens · start) := by
  intro depth
  have hskip := skip_grows tokens depth
  refine (Extends.refl _).bind fun w => .branch ?_ hskip
  refine (Extends.refl _).bind fun token => ?_
  cases token with
  | none => exact hskip
  | some t => exact .branch (.refl _) hskip

theorem resuming_grows (tokens : List Token) (start : Nat) (result : Except Failure Tree) :
    Grows (resuming tokens · start result) := by
  intro depth
  cases result with
  | ok tree => exact .refl _
  | error failure =>
    cases failure with
    | recoverable stuck =>
      exact (Extends.refl _).bind fun _ => (synchronize_grows tokens start depth).bind fun _ => .refl _
    | fatal stuck => exact .refl _
    | empty => exact .refl _

structure StatementsGrow (tokens : List Token) (depth : Nat) : Prop where
  statement : Extends (statement tokens depth) (statement tokens (depth + 1))
  announced : Extends (announced tokens depth) (announced tokens (depth + 1))
  guarded : ∀ word, Extends (guarded tokens depth word) (guarded tokens (depth + 1) word)
  conditional : Extends (conditional tokens depth) (conditional tokens (depth + 1))
  alternative : Extends (alternative tokens depth) (alternative tokens (depth + 1))
  otherwise : Extends (otherwise tokens depth) (otherwise tokens (depth + 1))
  loop : Extends (loop tokens depth) (loop tokens (depth + 1))
  block : Extends (block tokens depth) (block tokens (depth + 1))
  statements : ∀ stops, Extends (statements tokens depth stops) (statements tokens (depth + 1) stops)
  recovering : Extends (recovering tokens depth) (recovering tokens (depth + 1))

/-- The procedures for statements call those for expressions and each other. -/
theorem statements_grow (tokens : List Token) (depth : Nat) : StatementsGrow tokens depth := by
  induction depth with
  | zero =>
    refine ⟨?_, ?_, fun word => ?_, ?_, ?_, ?_, ?_, ?_, fun stops => ?_, ?_⟩
    all_goals exact .unfinished _
  | succ depth ih =>
    refine ⟨?_, ?_, fun word => ?_, ?_, ?_, ?_, ?_, ?_, fun stops => ?_, ?_⟩
    · exact ih.announced.bind fun inner => .refl _
    · refine (Extends.refl _).bind fun kind => ?_
      cases kind with
      | keyword word =>
        cases word with
        | var => exact declaration_grows tokens depth
        | if_ => exact ih.conditional
        | while_ => exact ih.loop
        | _ => exact .refl _
      | openCurly => exact ih.block
      | ident =>
        exact (Extends.refl _).bind fun second =>
          .branch (callStatement_grows tokens depth) (assignment_grows tokens depth)
      | _ => exact .refl _
    · exact (Extends.refl _).bind fun word =>
        (expressions_grow tokens depth).parenthesized.bind fun parts =>
          ih.block.bind fun body => .refl _
    · refine (ih.guarded .if_).bind fun parts => (Extends.refl _).bind fun kind => ?_
      exact .branch (ih.alternative.bind fun rest => .refl _) (.refl _)
    · exact (Extends.refl _).bind fun word => ih.otherwise.bind fun body => .refl _
    · exact (Extends.refl _).bind fun kind => .branch ih.conditional ih.block
    · exact (ih.guarded .while_).bind fun parts => .refl _
    · exact (Extends.refl _).bind fun opening => (ih.statements _).bind fun body => .refl _
    · refine (Extends.refl _).bind fun kind => .branch (.refl _) ?_
      exact ih.recovering.bind fun first => (ih.statements stops).bind fun more => .refl _
    · exact (Extends.refl _).bind fun w => ih.statement.attempt.bind fun result =>
        resuming_grows tokens w.cursor result depth

/-- More depth does not change the outcome of a program that is read. -/
theorem program_grows (tokens : List Token) : Grows (program tokens) := by
  intro depth
  have hgrow := statements_grow tokens depth
  refine (Extends.refl _).bind fun kind => .branch (.refl _) ?_
  exact hgrow.recovering.bind fun first => (hgrow.statements _).bind fun more => .refl _

end ImpC.Walk
