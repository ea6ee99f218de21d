import ImpC.Proofs.Grammar.Order

/-!
# Walking over tokens

The rules of the grammar as a walk with a cursor over a list of tokens. The walk looks at the token
under the cursor and steps over it, but never over the end of the text. Nothing in the rules says how
often they go round their loops or how deep they nest. Their calls are counted instead, a round of a
loop as one more call inside the last: a walk that is not through at the given depth has no outcome.
-/
namespace ImpC

/-- Where a walk stands, and the mistakes that it has stepped over. -/
structure Walker where
  cursor : Nat
  mistakes : List Stuck

/-- A mistake at the end of the text is fatal. Others can be stepped over. -/
inductive Failure where
  | recoverable (stuck : Stuck)
  | fatal (stuck : Stuck)
  /-- There is no statement at all. -/
  | empty

/-- The outcome of a walk is a result or a failure and where the walk ended. -/
abbrev Walk (α : Type) := ExceptT Failure (StateT Walker Option) α

namespace Walk

open ImpC.Parser ImpC.Grammar

variable (tokens : List Token)

/-- The kind of a token. Behind the last one is the end. -/
def kindAt (n : Nat) : Kind :=
  match tokens[n]? with
  | some t => t.kind
  | none => .eof

/-- The tokens from the cursor up to the end of the text. -/
def ahead (w : Walker) : List Token := body (tokens.drop w.cursor)

def peek : Walk Kind := do return kindAt tokens (← get).cursor

def peekSecond : Walk Kind := do return kindAt tokens ((← get).cursor + 1)

/-- The token under the cursor, which is stepped over unless it is the end. -/
def next : Walk (Option Token) := do
  let w ← get
  match tokens[w.cursor]? with
  | none => return none
  | some t =>
    if t.kind = .eof then return some t
    else
      set { w with cursor := w.cursor + 1 }
      return some t

def fail {α : Type} (expected : Expected) : Walk α := do
  let w ← get
  if kindAt tokens w.cursor = .eof then throw (.fatal ⟨expected, ahead tokens w⟩)
  else throw (.recoverable ⟨expected, ahead tokens w⟩)

def leaf : Walk Tree := do
  match ← next tokens with
  | some t => return .leaf t
  | none => fail tokens .expression

/-- One token that satisfies `p`. Nothing is stepped over if it does not. -/
def expect (expected : Expected) (p : Kind → Bool) : Walk Tree := do
  if p (← peek tokens) then leaf tokens else fail tokens expected

def exactly (kind : Kind) : Walk Tree := expect tokens (.token kind) (· = kind)

def identifier : Walk Tree := expect tokens .identifier (· = .ident)

/-- The result of `m`, also if it is a failure. -/
def attempt {α : Type} (m : Walk α) : Walk (Except Failure α) := ExceptT.lift (ExceptT.run m)

/-- No outcome at this depth. -/
def unfinished {α : Type} : Walk α := ExceptT.mk fun _ => none

mutual

/-- The levels of a list one inside the other. -/
def tower : Nat → List Level → Walk Tree
  | 0, _ => unfinished
  | depth + 1, [] => unary depth
  | depth + 1, level :: tighter => do
    let first ← tower depth tighter
    let more ← operands depth level tighter
    return .node level.rule first more

def operands : Nat → Level → List Level → Walk (List Tree)
  | 0, _, _ => unfinished
  | depth + 1, level, tighter => do
    if isOneOf level.operators (← peek tokens) then
      let sign ← leaf tokens
      let operand ← tower depth tighter
      let more ← operands depth level tighter
      return sign :: operand :: more
    else return []

def unary : Nat → Walk Tree
  | 0 => unfinished
  | depth + 1 => do
    if isSign (← peek tokens) then
      let sign ← leaf tokens
      let operand ← unary depth
      return .node .unary sign [operand]
    else
      let inner ← primary depth
      return .node .unary inner []

def primary : Nat → Walk Tree
  | 0 => unfinished
  | depth + 1 => do
    let kind ← peek tokens
    if isLiteral kind then
      let literal ← leaf tokens
      return .node .primary literal []
    else if kind = .ident then
      if (← peekSecond tokens) = .openParen then
        let call ← call depth
        return .node .primary call []
      else
        let name ← leaf tokens
        return .node .primary name []
    else if kind = .openParen then
      let (opening, inner, closing) ← parenthesized depth
      return .node .primary opening [inner, closing]
    else fail tokens .expression

def parenthesized : Nat → Walk (Tree × Tree × Tree)
  | 0 => unfinished
  | depth + 1 => do
    let opening ← exactly tokens .openParen
    let inner ← expression depth
    let closing ← exactly tokens .closeParen
    return (opening, inner, closing)

def call : Nat → Walk Tree
  | 0 => unfinished
  | depth + 1 => do
    let function ← identifier tokens
    let opening ← exactly tokens .openParen
    if (← peek tokens) = .closeParen then
      let closing ← exactly tokens .closeParen
      return .node .call function [opening, closing]
    else
      let arguments ← arguments depth
      let closing ← exactly tokens .closeParen
      return .node .call function [opening, arguments, closing]

def arguments : Nat → Walk Tree
  | 0 => unfinished
  | depth + 1 => do
    let first ← expression depth
    let more ← moreArguments depth
    return .node .arguments first more

def moreArguments : Nat → Walk (List Tree)
  | 0 => unfinished
  | depth + 1 => do
    if (← peek tokens) = .comma then
      let comma ← leaf tokens
      let argument ← expression depth
      let more ← moreArguments depth
      return comma :: argument :: more
    else return []

def expression : Nat → Walk Tree
  | 0 => unfinished
  | depth + 1 => do
    let inner ← tower depth levels
    return .node .expression inner []

end

def typeClause : Walk Tree := do
  let colon ← exactly tokens .colon
  let type ← expect tokens .type isTypeName
  return .node .typeClause colon [type]

/-- What `m` gives if the token under the cursor has the kind `kind`, else nothing. -/
def optional (kind : Kind) (m : Walk (List Tree)) : Walk (List Tree) := do
  if (← peek tokens) = kind then m else return []

def typePart : Walk (List Tree) := do
  let type ← typeClause tokens
  return [type]

def initializer (depth : Nat) : Walk (List Tree) := do
  let sign ← exactly tokens (.op .assign)
  let value ← expression tokens depth
  return [sign, value]

def declaration (depth : Nat) : Walk Tree := do
  let word ← exactly tokens (.keyword .var)
  let name ← identifier tokens
  let type ← optional tokens .colon (typePart tokens)
  let value ← optional tokens (.op .assign) (initializer tokens depth)
  let stop ← exactly tokens .semicolon
  return .node .declaration word (name :: type ++ value ++ [stop])

def assignment (depth : Nat) : Walk Tree := do
  let target ← identifier tokens
  let sign ← exactly tokens (.op .assign)
  let value ← expression tokens depth
  let stop ← exactly tokens .semicolon
  return .node .assignment target [sign, value, stop]

def callStatement (depth : Nat) : Walk Tree := do
  let call ← call tokens depth
  let stop ← exactly tokens .semicolon
  return .node .callStatement call [stop]

/-- Steps on to behind a semicolon, or to a closing brace, the keyword of another statement or the
end. -/
def skip : Nat → Walk Unit
  | 0 => unfinished
  | depth + 1 => do
    let kind ← peek tokens
    if kind = .eof ∨ isLanding kind then return ()
    else
      let _ ← next tokens
      if kind = .semicolon then return () else skip depth

/-- Steps on to where the next statement may start, over at least one token. -/
def synchronize (depth start : Nat) : Walk Unit := do
  if (← get).cursor = start then
    match ← next tokens with
    | some t => if t.kind = .semicolon ∨ t.kind = .closeCurly then return () else skip tokens depth
    | none => skip tokens depth
  else skip tokens depth

/-- The tokens from `start` to the cursor as a node of their own. There is at least one of them. -/
def skipped (start : Nat) : Walk Tree := do
  let w ← get
  match (tokens.drop start).take (w.cursor - start) with
  | [] => fail tokens .statement
  | t :: ts => return .node .error (.leaf t) (ts.map .leaf)

/-- What comes of a statement from `start` on, with the mistake stepped over if that is possible. -/
def resuming (depth start : Nat) : Except Failure Tree → Walk Tree
  | .error (.recoverable stuck) => do
    modify fun w => { w with mistakes := w.mistakes ++ [stuck] }
    synchronize tokens depth start
    skipped tokens start
  | .error failure => throw failure
  | .ok tree => return tree

mutual

def statement : Nat → Walk Tree
  | 0 => unfinished
  | depth + 1 => do
    let inner ← announced depth
    return .node .statement inner []

/-- The statement that the next tokens announce. -/
def announced : Nat → Walk Tree
  | 0 => unfinished
  | depth + 1 => do
    match ← peek tokens with
    | .keyword .var => declaration tokens depth
    | .keyword .if_ => conditional depth
    | .keyword .while_ => loop depth
    | .openCurly => block depth
    | .ident =>
      if (← peekSecond tokens) = .openParen then callStatement tokens depth
      else assignment tokens depth
    | _ => fail tokens .statement

/-- A keyword, a condition between parentheses and a block. -/
def guarded : Nat → Keyword → Walk (Tree × List Tree)
  | 0, _ => unfinished
  | depth + 1, word => do
    let word ← exactly tokens (.keyword word)
    let (opening, condition, closing) ← parenthesized tokens depth
    let body ← block depth
    return (word, [opening, condition, closing, body])

def conditional : Nat → Walk Tree
  | 0 => unfinished
  | depth + 1 => do
    let (word, parts) ← guarded depth .if_
    if (← peek tokens) = .keyword .else_ then
      let rest ← alternative depth
      return .node .conditional word (parts ++ [rest])
    else return .node .conditional word parts

def alternative : Nat → Walk Tree
  | 0 => unfinished
  | depth + 1 => do
    let word ← exactly tokens (.keyword .else_)
    let body ← otherwise depth
    return .node .alternative word [body]

def otherwise : Nat → Walk Tree
  | 0 => unfinished
  | depth + 1 => do
    if (← peek tokens) = .keyword .if_ then conditional depth else block depth

def loop : Nat → Walk Tree
  | 0 => unfinished
  | depth + 1 => do
    let (word, parts) ← guarded depth .while_
    return .node .loop word parts

def block : Nat → Walk Tree
  | 0 => unfinished
  | depth + 1 => do
    let opening ← exactly tokens .openCurly
    let body ← statements depth (· = .closeCurly)
    let closing ← exactly tokens .closeCurly
    return .node .block opening (body ++ [closing])

/-- Statements up to the end or to a token that `stops`. -/
def statements : Nat → (Kind → Bool) → Walk (List Tree)
  | 0, _ => unfinished
  | depth + 1, stops => do
    let kind ← peek tokens
    if kind = .eof ∨ stops kind then return []
    else
      let first ← recovering depth
      let more ← statements depth stops
      return first :: more

/-- A statement, or the tokens stepped over in place of one. -/
def recovering : Nat → Walk Tree
  | 0 => unfinished
  | depth + 1 => do
    let start := (← get).cursor
    resuming tokens depth start (← attempt (statement depth))

end

def program (depth : Nat) : Walk Tree := do
  if (← peek tokens) = .eof then throw .empty
  else
    let first ← recovering tokens depth
    let more ← statements tokens depth fun _ => false
    let last ← next tokens
    return .node .program first (more ++ last.toList.map .leaf)

end Walk

def Failure.of (s : Stuck) : Failure := if s.rest.isEmpty then .fatal s else .recoverable s

/-- What the reading says that a walk gives. -/
def Reading.answer {α : Type} (r : Reading α) : Except Failure α :=
  match r.result with
  | .ok (a, _) => .ok a
  | .error s => .error (.of s)

def Walker.step (w : Walker) : Walker := { w with cursor := w.cursor + 1 }

namespace Walk

open ImpC.Parser ImpC.Grammar

section Outcomes

variable {α β : Type} {tokens : List Token} {w w' : Walker}

/-- What comes of a walk that starts as `w`, if it ends. -/
def outcome? (m : Walk α) (w : Walker) : Option (Except Failure α × Walker) := (ExceptT.run m).run w

theorem outcome?_bind_ok {m : Walk α} {a : α} (h : outcome? m w = some (.ok a, w'))
    (f : α → Walk β) : outcome? (m >>= f) w = outcome? (f a) w' := by
  show (outcome? m w).bind (fun p => ExceptT.bindCont f p.1 p.2) = _
  rw [h]
  rfl

theorem outcome?_bind_none {m : Walk α} (h : outcome? m w = none) (f : α → Walk β) :
    outcome? (m >>= f) w = none := by
  show (outcome? m w).bind (fun p => ExceptT.bindCont f p.1 p.2) = _
  rw [h]
  rfl

theorem outcome?_bind_error {m : Walk α} {e : Failure} (h : outcome? m w = some (.error e, w'))
    (f : α → Walk β) : outcome? (m >>= f) w = some (.error e, w') := by
  show (outcome? m w).bind (fun p => ExceptT.bindCont f p.1 p.2) = _
  rw [h]
  rfl

/-- An attempt does not fail: a failure is its result. -/
theorem outcome?_attempt (m : Walk α) (w : Walker) :
    outcome? (attempt m) w = (outcome? m w).map fun x => (.ok x.1, x.2) := by
  rw [Option.map_eq_bind]
  rfl

theorem outcome?_get (f : Walker → Walk β) : outcome? (get >>= f) w = outcome? (f w) w := rfl

theorem outcome?_peek (f : Kind → Walk β) :
    outcome? (peek tokens >>= f) w = outcome? (f (kindAt tokens w.cursor)) w := rfl

theorem kindAt_of_nil (h : ahead tokens w = []) : kindAt tokens w.cursor = .eof := by
  rw [ahead, body] at h
  cases hdrop : tokens.drop w.cursor with
  | nil =>
    have hnone : tokens[w.cursor]? = none := by
      rw [← List.head?_drop, hdrop]
      rfl
    rw [kindAt, hnone]
  | cons t ts =>
    have hsome : tokens[w.cursor]? = some t := by
      rw [← List.head?_drop, hdrop]
      rfl
    rw [kindAt, hsome]
    by_contra hkind
    rw [hdrop, List.takeWhile_cons_of_pos (by simpa using hkind)] at h
    cases h

/-- The first token ahead is the one at the cursor. -/
theorem of_cons {t : Token} {ts : List Token} (h : ahead tokens w = t :: ts) :
    tokens[w.cursor]? = some t ∧ t.kind ≠ .eof ∧ ahead tokens w.step = ts := by
  rw [ahead, body] at h
  cases hdrop : tokens.drop w.cursor with
  | nil =>
    rw [hdrop] at h
    cases h
  | cons u us =>
    have hsome : tokens[w.cursor]? = some u := by
      rw [← List.head?_drop, hdrop]
      rfl
    have htail : tokens.drop w.step.cursor = us := by
      rw [Walker.step, ← List.tail_drop, hdrop]
      rfl
    by_cases hkind : u.kind = .eof
    · rw [hdrop, List.takeWhile_cons_of_neg (by simpa using hkind)] at h
      cases h
    · rw [hdrop, List.takeWhile_cons_of_pos (by simpa using hkind)] at h
      obtain ⟨rfl, rfl⟩ := List.cons.inj h
      exact ⟨hsome, hkind, by rw [ahead, htail, body]⟩

theorem kindAt_of_cons {t : Token} {ts : List Token} (h : ahead tokens w = t :: ts) :
    kindAt tokens w.cursor = t.kind := by
  rw [kindAt, (of_cons h).1]

/-- Both parsers see the same next kind. -/
theorem startsWith_iff {ts : List Token} (h : ahead tokens w = ts) (k : Kind) (hk : k ≠ .eof) :
    startsWith k ts = true ↔ kindAt tokens w.cursor = k := by
  cases ts with
  | nil =>
    rw [kindAt_of_nil h]
    constructor
    · intro hstarts
      cases hstarts
    · intro heof
      exact absurd heof.symm hk
  | cons t ts =>
    rw [kindAt_of_cons h]
    exact decide_eq_true_iff

/-- The walk is at the tokens `ts`, which are left of those ahead of `w`, after some mistakes. -/
structure Lands (tokens : List Token) (w : Walker) (ts : List Token) (mistakes : List Stuck)
    (w' : Walker) : Prop where
  ahead : ahead tokens w' = ts
  suffix : ts <:+ Walk.ahead tokens w
  cursor : w'.cursor + ts.length = w.cursor + (Walk.ahead tokens w).length
  mistakes : w'.mistakes = w.mistakes ++ mistakes

theorem Lands.here (w : Walker) : Lands tokens w (Walk.ahead tokens w) [] w :=
  ⟨rfl, List.suffix_refl _, rfl, (List.append_nil _).symm⟩

theorem Lands.step {t : Token} {ts : List Token} (h : Walk.ahead tokens w = t :: ts) :
    Lands tokens w ts [] w.step := by
  refine ⟨(of_cons h).2.2, h ▸ List.suffix_cons t ts, ?_, (List.append_nil _).symm⟩
  rw [h, List.length_cons]
  exact Nat.add_right_comm w.cursor 1 ts.length

/-- Walks one after the other add up their mistakes. -/
theorem Lands.trans {w'' : Walker} {ts us : List Token} {ms ms' : List Stuck}
    (h : Lands tokens w ts ms w') (h' : Lands tokens w' us ms' w'') :
    Lands tokens w us (ms ++ ms') w'' := by
  refine ⟨h'.ahead, ?_, ?_, ?_⟩
  · exact h'.suffix.trans (h.ahead ▸ h.suffix)
  · rw [h'.cursor, h.ahead, h.cursor]
  · rw [h'.mistakes, h.mistakes, List.append_assoc]

/-- The tokens that a walk has stepped over. -/
theorem Lands.passed {ts : List Token} {ms : List Stuck} (h : Lands tokens w ts ms w') :
    (tokens.drop w.cursor).take (w'.cursor - w.cursor) ++ ts = Walk.ahead tokens w := by
  obtain ⟨read, hread⟩ := h.suffix
  have hcursor := h.cursor
  rw [← hread, List.length_append] at hcursor
  have hahead : Walk.ahead tokens w <+: tokens.drop w.cursor := List.takeWhile_prefix _
  have hstart : read <+: tokens.drop w.cursor :=
    (hread ▸ List.prefix_append read ts).trans hahead
  rw [← hread, show w'.cursor - w.cursor = read.length by omega, ← List.prefix_iff_eq_take.mp hstart]

theorem outcome?_next {t : Token} {ts : List Token} (h : ahead tokens w = t :: ts) :
    outcome? (next tokens) w = some (.ok (some t), w.step) := by
  obtain ⟨hsome, hkind, -⟩ := of_cons h
  rw [next, outcome?_get]
  simp only [hsome, if_neg hkind]
  rfl

theorem outcome?_leaf {t : Token} {ts : List Token} (h : ahead tokens w = t :: ts) :
    outcome? (leaf tokens) w = some (.ok (.leaf t), w.step) := by
  rw [leaf, outcome?_bind_ok (outcome?_next h)]
  rfl

/-- A failure leaves the cursor where it is. -/
theorem outcome?_fail (expected : Expected) :
    outcome? (fail tokens expected : Walk α) w =
      some (.error (.of ⟨expected, ahead tokens w⟩), w) := by
  rw [fail, outcome?_get, Failure.of]
  cases h : ahead tokens w with
  | nil =>
    rw [if_pos (kindAt_of_nil h)]
    rfl
  | cons t ts =>
    rw [if_neg (kindAt_of_cons h ▸ (of_cons h).2.1)]
    rfl

theorem of_bind (x : Except Stuck (α × List Token))
    (g : α × List Token → Except Stuck (β × List Token)) :
    Reading.of (x >>= g) = (Reading.of x).andThen fun a ts => .of (g (a, ts)) := by
  cases x <;> rfl

/-- Whatever the depth from some depth on, the walk from `w` has this outcome. -/
def Settles (m : Nat → Walk α) (w : Walker) (result : Except Failure α) (w' : Walker) : Prop :=
  ∃ least, ∀ depth, least ≤ depth → outcome? (m depth) w = some (result, w')

namespace Settles

variable {m : Nat → Walk α} {f : Nat → α → Walk β}

theorem of {result : Except Failure α} (h : ∀ depth, outcome? (m depth) w = some (result, w')) :
    Settles m w result w' := ⟨0, fun depth _ => h depth⟩

/-- There is one outcome at all depths that are enough. -/
theorem unique {r r' : Except Failure α} {w'' : Walker} (h : Settles m w r w')
    (h' : Settles m w r' w'') : r = r' ∧ w' = w'' := by
  obtain ⟨least, h⟩ := h
  obtain ⟨least', h'⟩ := h'
  have heq := (h _ (Nat.le_max_left least least')).symm.trans (h' _ (Nat.le_max_right least least'))
  exact Prod.mk.inj (Option.some.inj heq)

/-- One call more. -/
theorem deeper {result : Except Failure α} (h : Settles (fun depth => m (depth + 1)) w result w') :
    Settles m w result w' := by
  obtain ⟨least, h⟩ := h
  refine ⟨least + 1, fun depth hle => ?_⟩
  obtain ⟨depth, rfl⟩ := Nat.exists_eq_add_of_le' (Nat.le_trans (Nat.le_add_left 1 least) hle)
  exact h depth (Nat.le_of_add_le_add_right hle)

theorem bind_ok {a : α} {r : Except Failure β} {w'' : Walker} (h : Settles m w (.ok a) w')
    (hf : Settles (fun depth => f depth a) w' r w'') :
    Settles (fun depth => m depth >>= f depth) w r w'' := by
  obtain ⟨least, h⟩ := h
  obtain ⟨least', hf⟩ := hf
  refine ⟨max least least', fun depth hle => ?_⟩
  rw [outcome?_bind_ok (h depth (Nat.le_trans (Nat.le_max_left _ _) hle))]
  exact hf depth (Nat.le_trans (Nat.le_max_right _ _) hle)

theorem bind_error {e : Failure} (h : Settles m w (.error e) w') :
    Settles (fun depth => m depth >>= f depth) w (.error e) w' := by
  obtain ⟨least, h⟩ := h
  exact ⟨least, fun depth hle => outcome?_bind_error (h depth hle) (f depth)⟩

theorem attempt {result : Except Failure α} (h : Settles m w result w') :
    Settles (fun depth => attempt (m depth)) w (.ok result) w' := by
  obtain ⟨least, h⟩ := h
  refine ⟨least, fun depth hle => ?_⟩
  rw [outcome?_attempt, h depth hle]
  rfl

end Settles

/-- The walk from `w` ends as the reading of the tokens ahead says. -/
def Follows (tokens : List Token) (w : Walker) (m : Nat → Walk α) (r : Reading α) : Prop :=
  ∃ w', Settles m w r.answer w' ∧ Lands tokens w r.left r.mistakes w'

namespace Follows

variable {m : Nat → Walk α} {f : Nat → α → Walk β} {r : Reading α}

theorem deeper (h : Follows tokens w (fun depth => m (depth + 1)) r) : Follows tokens w m r := by
  obtain ⟨w', hrun, hlands⟩ := h
  exact ⟨w', hrun.deeper, hlands⟩

theorem pure {ts : List Token} (h : ahead tokens w = ts) (a : α) :
    Follows tokens w (fun _ => pure a) (.done a ts) := by
  rw [← h]
  exact ⟨w, .of fun _ => rfl, .here w⟩

theorem fail {ts : List Token} (h : ahead tokens w = ts) (expected : Expected) :
    Follows tokens w (fun _ => (Walk.fail tokens expected : Walk α)) (.of (.error ⟨expected, ts⟩)) := by
  rw [← h]
  exact ⟨w, .of fun _ => outcome?_fail expected, .here w⟩

theorem settles {a : α} {ts : List Token} (h : Follows tokens w m (.done a ts)) :
    ∃ w', Settles m w (.ok a) w' ∧ Lands tokens w ts [] w' := h

/-- A walk in two parts follows a sequence of readings if each part follows its reading. -/
theorem bind {g : α → List Token → Reading β} (hm : Follows tokens w m r)
    (hf : ∀ a ts w', r.result = .ok (a, ts) → Lands tokens w ts r.mistakes w' →
      Follows tokens w' (fun depth => f depth a) (g a ts)) :
    Follows tokens w (fun depth => m depth >>= f depth) (r.andThen g) := by
  obtain ⟨w', hrun, hlands⟩ := hm
  cases hx : r.result with
  | error s =>
    rw [Reading.answer, hx] at hrun
    rw [left_of_error hx] at hlands
    rw [andThen_of_error hx]
    exact ⟨w', hrun.bind_error, hlands⟩
  | ok y =>
    obtain ⟨a, ts⟩ := y
    rw [Reading.answer, hx] at hrun
    rw [left_of_ok hx] at hlands
    obtain ⟨w'', hrun', hlands'⟩ := hf a ts w' hx hlands
    rw [andThen_of_ok hx]
    exact ⟨w'', hrun.bind_ok hrun', hlands.trans hlands'⟩

theorem bind_of {x : Except Stuck (α × List Token)}
    {g : α × List Token → Except Stuck (β × List Token)} (hm : Follows tokens w m (.of x))
    (hf : ∀ a ts w', x = .ok (a, ts) → Lands tokens w ts [] w' →
      Follows tokens w' (fun depth => f depth a) (.of (g (a, ts)))) :
    Follows tokens w (fun depth => m depth >>= f depth) (.of (x >>= g)) := by
  rw [of_bind]
  exact hm.bind hf

theorem bind_done {γ : Type} {m : Nat → Walk β} {f : α → β}
    (hm : Follows tokens w m (r.andThen fun a ts => .done (f a) ts)) (g : β → γ) :
    Follows tokens w (fun depth => m depth >>= fun b => Pure.pure (g b))
      (r.andThen fun a ts => .done (g (f a)) ts) := by
  have hassoc := andThen_assoc r (fun a ts => .done (f a) ts) fun b ts => .done (g b) ts
  rw [show (r.andThen fun a ts => .done (g (f a)) ts) = _ from hassoc.symm]
  exact hm.bind fun b ts w' _ hlands => .pure hlands.ahead (g b)

theorem peek {f : Nat → Kind → Walk α}
    (h : Follows tokens w (fun depth => f depth (kindAt tokens w.cursor)) r) :
    Follows tokens w (fun depth => Walk.peek tokens >>= f depth) r := h

theorem get {f : Nat → Walker → Walk α} (h : Follows tokens w (fun depth => f depth w) r) :
    Follows tokens w (fun depth => get >>= f depth) r := h

theorem peekSecond {f : Nat → Kind → Walk α}
    (h : Follows tokens w (fun depth => f depth (kindAt tokens (w.cursor + 1))) r) :
    Follows tokens w (fun depth => Walk.peekSecond tokens >>= f depth) r := h

theorem branch_pos {c : Prop} [Decidable c] (hc : c) {m' : Nat → Walk α} (h : Follows tokens w m r) :
    Follows tokens w (fun depth => if c then m depth else m' depth) r := by
  simpa only [if_pos hc] using h

theorem branch_neg {c : Prop} [Decidable c] (hc : ¬c) {m' : Nat → Walk α} (h : Follows tokens w m' r) :
    Follows tokens w (fun depth => if c then m depth else m' depth) r := by
  simpa only [if_neg hc] using h

/-- A step over the token under the cursor first. -/
theorem step {m : Walk β} {b : β} {f : Nat → β → Walk α} {t : Token} {ts : List Token}
    (h : ahead tokens w = t :: ts) (hm : outcome? m w = some (.ok b, w.step))
    (hf : Follows tokens w.step (fun depth => f depth b) r) :
    Follows tokens w (fun depth => m >>= f depth) r := by
  obtain ⟨w', hrun, hlands⟩ := hf
  exact ⟨w', (Settles.of fun _ => hm).bind_ok hrun, (Lands.step h).trans hlands⟩

theorem leaf {f : Nat → Tree → Walk α} {t : Token} {ts : List Token}
    (h : ahead tokens w = t :: ts) (hf : Follows tokens w.step (fun depth => f depth (.leaf t)) r) :
    Follows tokens w (fun depth => Walk.leaf tokens >>= f depth) r :=
  step h (outcome?_leaf h) hf

theorem next {f : Nat → Option Token → Walk α} {t : Token} {ts : List Token}
    (h : ahead tokens w = t :: ts) (hf : Follows tokens w.step (fun depth => f depth (some t)) r) :
    Follows tokens w (fun depth => Walk.next tokens >>= f depth) r :=
  step h (outcome?_next h) hf

/-- A token is expected by a condition that the end does not meet. -/
theorem expect {p : Kind → Bool} (hp : p .eof = false) (expected : Expected) {ts : List Token}
    (h : ahead tokens w = ts) :
    Follows tokens w (fun _ => Walk.expect tokens expected p) (.of (token expected p ts)) := by
  refine peek ?_
  cases ts with
  | nil =>
    rw [kindAt_of_nil h, hp]
    exact fail h expected
  | cons t ts =>
    rw [kindAt_of_cons h, token]
    by_cases ht : p t.kind = true
    · refine branch_pos ht ?_
      rw [if_pos ht]
      exact ⟨w.step, .of fun _ => outcome?_leaf h, .step h⟩
    · refine branch_neg ht ?_
      rw [if_neg ht]
      exact fail h expected

/-- The token that is read is the one under the cursor. -/
theorem expect_bind {p : Kind → Bool} (hp : p .eof = false) {expected : Expected}
    {us : List Token} (h : ahead tokens w = us) {f : Nat → Tree → Walk β}
    {g : Tree → List Token → Reading β}
    (hf : ∀ t ts w', us = t :: ts → p t.kind = true → ahead tokens w' = ts →
      Follows tokens w' (fun depth => f depth (.leaf t)) (g (.leaf t) ts)) :
    Follows tokens w (fun depth => Walk.expect tokens expected p >>= f depth)
      ((Reading.of (token expected p us)).andThen g) := by
  refine (expect hp expected h).bind fun a ts w' hx hlands => ?_
  have hread := token_outcome expected p us
  rw [show token expected p us = .ok (a, ts) from hx] at hread
  obtain ⟨t, ht, rfl, hus⟩ := hread
  exact hf t ts w' hus ht hlands.ahead

theorem expect_bind_of {p : Kind → Bool} (hp : p .eof = false) {expected : Expected}
    {us : List Token} (h : ahead tokens w = us) {f : Nat → Tree → Walk β}
    {g : Tree × List Token → Except Stuck (β × List Token)}
    (hf : ∀ t ts w', us = t :: ts → p t.kind = true → ahead tokens w' = ts →
      Follows tokens w' (fun depth => f depth (.leaf t)) (.of (g (.leaf t, ts)))) :
    Follows tokens w (fun depth => Walk.expect tokens expected p >>= f depth)
      (.of (token expected p us >>= g)) := by
  rw [of_bind]
  exact expect_bind hp h hf

end Follows

end Outcomes

/-- The walk follows the reading wherever fewer than `n` tokens are ahead. -/
def FollowsBelow {α : Type} (tokens : List Token) (n : Nat) (m : Nat → Walk α)
    (p : List Token → Reading α) : Prop :=
  ∀ w ts, ahead tokens w = ts → ts.length < n → Follows tokens w m (p ts)

end Walk

end ImpC
