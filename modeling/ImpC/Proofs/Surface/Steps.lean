import ImpC.Surface

/-!
# Programs as written, step by step

A program is walked through in the order of its text: blocks are entered and left, and in between
there are declarations, assignments and calls. The nesting of statements is dealt with here, so that
what is said of all parts of a program can be said of its steps.
-/
namespace ImpC

/-- How a block is entered. -/
inductive Opening (ε : Type) where
  | main
  | plain
  | conditional (condition : ε)
  | loop (condition : ε)
  | otherwise
  | alternative (condition : ε)

namespace Opening

variable {ε φ : Type}

def condition? : Opening ε → Option ε
  | .main | .plain | .otherwise => none
  | .conditional condition | .loop condition | .alternative condition => some condition

def map (f : ε → φ) : Opening ε → Opening φ
  | .main => .main
  | .plain => .plain
  | .conditional condition => .conditional (f condition)
  | .loop condition => .loop (f condition)
  | .otherwise => .otherwise
  | .alternative condition => .alternative (f condition)

/-- An alternative is entered where the block before it is left. -/
def closes : Opening ε → Bool
  | .otherwise | .alternative _ => true
  | .main | .plain | .conditional _ | .loop _ => false

/-- What is around the block that is entered, where `stack` is around the place before it. -/
def outer {α : Type} (opening : Opening ε) (stack : List α) : List α :=
  if opening.closes then stack.tail else stack

@[simp] theorem condition?_map (f : ε → φ) (o : Opening ε) :
    (o.map f).condition? = o.condition?.map f := by
  cases o <;> rfl

@[simp] theorem closes_map (f : ε → φ) (o : Opening ε) : (o.map f).closes = o.closes := by
  cases o <;> rfl

@[simp] theorem outer_map (f : ε → φ) {α : Type} (o : Opening ε) (stack : List α) :
    (o.map f).outer stack = o.outer stack := by
  cases o <;> rfl

theorem map_outer {α β : Type} (f : α → β) (o : Opening ε) (stack : List α) :
    (o.outer stack).map f = o.outer (stack.map f) := by
  rw [outer, outer]
  split
  · exact List.map_tail
  · rfl

theorem mem_of_mem_outer {α : Type} {o : Opening ε} {stack : List α} {a : α}
    (h : a ∈ o.outer stack) : a ∈ stack := by
  rw [outer] at h
  split at h
  · exact List.mem_of_mem_tail h
  · exact h

end Opening

namespace Surface

inductive Step where
  | enter (opening : Opening Expr)
  | declaration (name : Located Text) (type : Option Ty) (initial : Option Expr)
  | assignment (target : Located Text) (value : Expr)
  | call (location : Location) (function : Text) (arguments : List Expr)
  | leave

mutual

def Statement.steps : Statement → List Step
  | .declaration name type initial => [.declaration name type initial]
  | .assignment target value => [.assignment target value]
  | .conditional condition body rest =>
    .enter (.conditional condition) :: (Statement.stepsAll body ++ rest.steps)
  | .loop condition body => .enter (.loop condition) :: (Statement.stepsAll body ++ [.leave])
  | .call location function arguments => [.call location function arguments]
  | .block body => .enter .plain :: (Statement.stepsAll body ++ [.leave])

/-- The steps after the statements of the block before, which is still to be left. -/
def Otherwise.steps : Otherwise → List Step
  | .nothing => [.leave]
  | .block body => .enter .otherwise :: (Statement.stepsAll body ++ [.leave])
  | .conditional condition body rest =>
    .enter (.alternative condition) :: (Statement.stepsAll body ++ rest.steps)

def Statement.stepsAll : List Statement → List Step
  | [] => []
  | s :: ss => s.steps ++ Statement.stepsAll ss

end

/-- The steps of a whole program, whose block is not left. -/
def steps (body : List Statement) : List Step := .enter .main :: Statement.stepsAll body

/-- All but the first step of a program are taken inside a block. -/
def Step.isInner : Step → Bool
  | .enter .main => false
  | _ => true

/-- The number of blocks around the place after a step. -/
def Step.depth (depth : Nat) : Step → Nat
  | .enter opening => if opening.closes then depth else depth + 1
  | .declaration _ _ _ | .assignment _ _ | .call _ _ _ => depth
  | .leave => depth - 1

/-- No step leads out of the blocks that it needs around it, if there are `depth` blocks around the
first one. -/
def Nested : Nat → List Step → Prop
  | _, [] => True
  | depth, s :: steps => (s.isInner = true → 0 < depth) ∧ Nested (s.depth depth) steps

mutual

/-- The steps of a statement open and close as many blocks. -/
theorem Statement.nested (depth : Nat) (more : List Step) (h : Nested (depth + 1) more) :
    ∀ s : Statement, Nested (depth + 1) (s.steps ++ more)
  | .declaration _ _ _ | .assignment _ _ | .call _ _ _ => ⟨fun _ => Nat.succ_pos _, h⟩
  | .conditional _ body rest => by
    have hbody := Statement.nestedAll (depth + 1) _ (rest.nested depth more h) body
    rw [← List.append_assoc] at hbody
    exact ⟨fun _ => Nat.succ_pos _, hbody⟩
  | .loop _ body | .block body => by
    have hleave : Nested (depth + 2) ([.leave] ++ more) := ⟨fun _ => Nat.succ_pos _, h⟩
    have hbody := Statement.nestedAll (depth + 1) _ hleave body
    rw [← List.append_assoc] at hbody
    exact ⟨fun _ => Nat.succ_pos _, hbody⟩

theorem Otherwise.nested (depth : Nat) (more : List Step) (h : Nested (depth + 1) more) :
    ∀ o : Otherwise, Nested (depth + 2) (o.steps ++ more)
  | .nothing => ⟨fun _ => Nat.succ_pos _, h⟩
  | .block body => by
    have hleave : Nested (depth + 2) ([.leave] ++ more) := ⟨fun _ => Nat.succ_pos _, h⟩
    have hbody := Statement.nestedAll (depth + 1) _ hleave body
    rw [← List.append_assoc] at hbody
    exact ⟨fun _ => Nat.succ_pos _, hbody⟩
  | .conditional _ body rest => by
    have hbody := Statement.nestedAll (depth + 1) _ (rest.nested depth more h) body
    rw [← List.append_assoc] at hbody
    exact ⟨fun _ => Nat.succ_pos _, hbody⟩

theorem Statement.nestedAll (depth : Nat) (more : List Step) (h : Nested (depth + 1) more) :
    ∀ ss : List Statement, Nested (depth + 1) (Statement.stepsAll ss ++ more)
  | [] => h
  | s :: ss => by
    rw [Statement.stepsAll, List.append_assoc]
    exact s.nested depth _ (Statement.nestedAll depth more h ss)

end

/-- The steps of a program are nested, from outside of its block. -/
theorem nested_steps (body : List Statement) : Nested 0 (steps body) := by
  have hbody := Statement.nestedAll 0 [] trivial body
  rw [List.append_nil] at hbody
  exact ⟨nofun, hbody⟩

/-- The name that is declared or assigned to. -/
def Step.name? : Step → Option (Located Text)
  | .declaration name _ _ | .assignment name _ => some name
  | .enter _ | .call _ _ _ | .leave => none

def Step.value? : Step → Option Expr
  | .enter opening => opening.condition?
  | .declaration _ _ initial => initial
  | .assignment _ value => some value
  | .call location function arguments => some (.call location function arguments)
  | .leave => none

/-- The name of a step is as asserted, and so is its value. -/
structure Step.All (N : Located Text → Prop) (V : Expr → Prop) (s : Step) : Prop where
  name : ∀ n ∈ s.name?, N n
  value : ∀ x ∈ s.value?, V x

mutual

/-- The names that a statement declares or assigns to are as asserted, and so are its values. -/
def Statement.All (N : Located Text → Prop) (V : Expr → Prop) : Statement → Prop
  | .declaration name _ initial => N name ∧ ∀ x ∈ initial, V x
  | .assignment target value => N target ∧ V value
  | .conditional condition body rest => V condition ∧ Statement.AllOf N V body ∧ rest.All N V
  | .loop condition body => V condition ∧ Statement.AllOf N V body
  | .call place function arguments => V (.call place function arguments)
  | .block body => Statement.AllOf N V body

def Otherwise.All (N : Located Text → Prop) (V : Expr → Prop) : Otherwise → Prop
  | .nothing => True
  | .block body => Statement.AllOf N V body
  | .conditional condition body rest => V condition ∧ Statement.AllOf N V body ∧ rest.All N V

def Statement.AllOf (N : Located Text → Prop) (V : Expr → Prop) : List Statement → Prop
  | [] => True
  | s :: ss => s.All N V ∧ Statement.AllOf N V ss

end

section All

variable {N : Located Text → Prop} {V : Expr → Prop}

theorem Step.all_leave : Step.All N V .leave := ⟨nofun, nofun⟩

/-- A block with its condition, and what follows it. -/
theorem Step.all_block {opening : Opening Expr} {steps more : List Step}
    (hopening : ∀ x ∈ opening.condition?, V x) (hsteps : ∀ s ∈ steps, s.All N V)
    (hmore : ∀ s ∈ more, s.All N V) : ∀ s ∈ .enter opening :: (steps ++ more), s.All N V := by
  rw [List.forall_mem_cons, List.forall_mem_append]
  exact ⟨⟨nofun, hopening⟩, hsteps, hmore⟩

mutual

/-- What holds of all names and values of a statement holds of those in its steps. -/
theorem Statement.All.steps : ∀ {s : Statement}, s.All N V → ∀ t ∈ s.steps, t.All N V
  | .declaration _ _ _, h => List.forall_mem_singleton.mpr ⟨by simpa [Step.name?] using h.1, h.2⟩
  | .assignment _ _, h =>
    List.forall_mem_singleton.mpr ⟨by simpa [Step.name?] using h.1, by simpa [Step.value?] using h.2⟩
  | .conditional _ _ _, h =>
    Step.all_block (by simpa [Opening.condition?] using h.1) (Statement.AllOf.steps h.2.1)
      (Otherwise.All.steps h.2.2)
  | .loop _ _, h =>
    Step.all_block (by simpa [Opening.condition?] using h.1) (Statement.AllOf.steps h.2)
      (List.forall_mem_singleton.mpr Step.all_leave)
  | .call place function arguments, h => by
    have hvalue : V (.call place function arguments) := h
    exact List.forall_mem_singleton.mpr ⟨nofun, by simpa [Step.value?] using hvalue⟩
  | .block _, h =>
    Step.all_block nofun (Statement.AllOf.steps h) (List.forall_mem_singleton.mpr Step.all_leave)

theorem Otherwise.All.steps : ∀ {o : Otherwise}, o.All N V → ∀ t ∈ o.steps, t.All N V
  | .nothing, _ => List.forall_mem_singleton.mpr Step.all_leave
  | .block _, h =>
    Step.all_block nofun (Statement.AllOf.steps h) (List.forall_mem_singleton.mpr Step.all_leave)
  | .conditional _ _ _, h =>
    Step.all_block (by simpa [Opening.condition?] using h.1) (Statement.AllOf.steps h.2.1)
      (Otherwise.All.steps h.2.2)

theorem Statement.AllOf.steps : ∀ {ss : List Statement}, Statement.AllOf N V ss →
    ∀ t ∈ Statement.stepsAll ss, t.All N V
  | [], _ => nofun
  | _ :: _, h => List.forall_mem_append.mpr ⟨Statement.All.steps h.1, Statement.AllOf.steps h.2⟩

end

/-- What is asserted of all statements of a program holds of its steps. -/
theorem all_steps {body : List Statement} (h : Statement.AllOf N V body) :
    ∀ s ∈ steps body, s.All N V :=
  List.forall_mem_cons.mpr ⟨⟨nofun, nofun⟩, h.steps⟩

end All

end Surface

end ImpC
