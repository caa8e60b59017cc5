import Mixsheet.Node.OfTokens
import Mixsheet.Proofs.Cursor.Arguments
import Mixsheet.Proofs.Cursor.Scanner
import Mixsheet.Proofs.Node.Lines

/-! # Statements read by number

A stylesheet as a reader finds it that keeps its tokens in one list and moves a cursor over their places. Blocks are
read by a call of the reader on itself, and where a statement ends is found by a loop over the places. The tokens are
those that the scanner finds. -/

namespace Mixsheet

/-- Where a reader stands: the place of the token it reads next, and the white space since the last statement. -/
structure Cursor where
  place : Nat
  spaces : String

namespace Cursor

open Token Node

/-- A reading gives a result or the fault of the text, unless it asks for what is not there or does not end. -/
abbrev Reading : Type → Type := Checked ParseError

/-! ### Tokens and positions -/

section Places

variable (ts : List Token)

/-- The token at a place. Behind the tokens stands an empty one that has no position. -/
def peek (i : Nat) : Token := ts[i]?.getD ⟨.eof, "", 0, 0, .none⟩

/-- No token but the last one is left. -/
def atEnd (i : Nat) : Bool := ts.length ≤ i || (peek ts i).kind == .eof

/-- The place behind a token; there is none behind the last one. -/
def advance (i : Nat) : Nat := if i < ts.length then i + 1 else i

/-- The position of the token at a place, or of the last one. -/
def position? (i : Nat) : Option Position := do
  let t ← ts[min i (← minus? ts.length 1)]?
  return t.position

/-- Where a statement starts and ends that is read between two places. -/
def source? (i j : Nat) : Option Source := do return ⟨← position? ts i, ← position? ts j⟩

/-- Fails with a fault at the place of a token. -/
def fault {α : Type} (fault : ParseFault) (i : Nat) : Reading α := do throw ⟨fault, ← position? ts i⟩

theorem advance_of_lt {ts : List Token} {i : Nat} (h : i < ts.length) : advance ts i = i + 1 := if_pos h

theorem lt_of_atEnd {ts : List Token} {i : Nat} (h : ¬ atEnd ts i = true) : i < ts.length := by
  simp only [atEnd, Bool.or_eq_true, decide_eq_true_eq, not_or, Nat.not_le] at h
  exact h.1

/-- Moves on from a place, with an account of what was seen, up to the end or to the first token where the account
says so. -/
def seek {σ : Type} (stops : σ → Token → Bool) (after : σ → Nat → Token → σ) (s : σ) (i : Nat) : σ × Nat :=
  if h : atEnd ts i = true then (s, i)
  else if stops s (peek ts i) then (s, i)
  else
    have := lt_of_atEnd h
    have := advance_of_lt this
    seek stops after (after s i (peek ts i)) (advance ts i)
termination_by ts.length - i

end Places

/-! ### Statements -/

/-- What is seen of a statement: the brackets that are missing, the place of the one that was opened first of those that
are open, and whether there is a colon outside brackets and a bracket at all. -/
structure Seen where
  closers : List TokenKind
  first? : Option Nat
  colon : Bool
  brackets : Bool

namespace Seen

/-- Nothing is seen of a head yet. -/
def nothing : Seen := ⟨[], none, false, false⟩

/-- A bracket is open that wants `closer`. -/
def opened (s : Seen) (i : Nat) (closer : TokenKind) : Seen :=
  { s with closers := closer :: s.closers, first? := if s.closers = [] then some i else s.first?, brackets := true }

/-- What is seen of a head behind a further token. -/
def after (s : Seen) (i : Nat) (t : Token) : Seen :=
  match t.kind with
  | .leftParen => s.opened i .rightParen
  | .leftBracket => s.opened i .rightBracket
  | .brackets => { s with brackets := true }
  | kind =>
    match s.closers with
    | [] => if kind = .colon then { s with colon := true } else s
    | closer :: outer =>
      if kind = closer then { s with closers := outer, first? := if outer = [] then none else s.first? } else s

/-- The head ends before the token. -/
def stops (s : Seen) (t : Token) : Bool := s.closers.isEmpty && Segment.isStop t

end Seen

section Statements

variable (ts : List Token)

/-- The end of the tokens from `start` up to `stop` without the white space and comments at their end. -/
def trimEnd? (start : Nat) : Nat → Option Nat
  | 0 => some 0
  | last + 1 =>
    if start < last + 1 then do
      if (← ts[last]?).isTrivia then trimEnd? start last else some (last + 1)
    else some (last + 1)

/-- The declaration of the tokens from `start` up to `stop`. -/
def declaration (start stop : Nat) : Reading Node := do
  let run ← slice? ts start stop
  match run.findIdx? (·.kind == .colon) with
  | none => fault ts .unknownWord start
  | some colon =>
    let prop := trimmedText (← slice? run 0 colon)
    if prop = "" then fault ts .unknownWord start
    else
      let value := trimmedText (← slice? run (colon + 1) run.length)
      return .declaration prop value (← source? ts start (max (stop - 1) start))

/-- The place of the first word from the place `i` on and before the place `stop`, or this one, and the text before
it. -/
def name? (stop i : Nat) (before : String) : Option (String × Nat) :=
  if i < stop then do
    let t ← ts[i]?
    if t.kind = .word then return (before, i) else name? stop (i + 1) (before ++ t.text)
  else some (before, i)
termination_by stop - i

/-- The mixin call of the tokens from `start` up to the semicolon at `stop`. -/
def call (spaces : String) (start stop : Nat) : Reading Node := do
  let (before, i) ← name? ts stop start spaces
  if i = stop then fault ts .unknownWord start
  else
    let name ← (ts[i]? : Option Token)
    let rest ← slice? ts (i + 1) stop
    return .call {
      name := name.text
      arguments := ← arguments? rest
      before
      written := Token.join rest
      source := ← source? ts i stop }

variable (block : Cursor → Reading (List Node × Cursor))

/-- The statements of the block whose `{` stands at `brace`, and the place of its `}`. -/
def body (brace : Nat) : Reading (List Node × Nat × Cursor) := do
  let (nodes, c) ← block ⟨advance ts brace, ""⟩
  if (peek ts c.place).kind = .rightBrace then return (nodes, c.place, ⟨advance ts c.place, ""⟩)
  else fault ts .unclosedBlock brace

/-- Reads a rule whose head and `{` are known. -/
def rule (start brace : Nat) : Reading (Node × Cursor) := do
  let selector := trimmedText (← slice? ts start brace)
  let (nodes, stop, c) ← body ts block brace
  return (.rule selector nodes (← source? ts start stop), c)

/-- The statement from the place `start` up to the semicolon at `stop`. -/
def endedStatement (seen : Seen) (spaces : String) (start stop : Nat) : Reading (Node × Cursor) :=
  if seen.colon then do return (← declaration ts start stop, ⟨advance ts stop, ""⟩)
  else if seen.brackets then do return (← call ts spaces start stop, ⟨advance ts stop, ""⟩)
  else fault ts .unknownWord start

/-- The statement from the place `start` up to the `}` or the end at `stop`. -/
def lastStatement (seen : Seen) (start stop : Nat) : Reading (Node × Cursor) :=
  match seen.first? with
  | some bracket => fault ts .unclosedBracket bracket
  | none => do
    let last ← trimEnd? ts start stop
    if seen.colon then return (← declaration ts start last, ⟨stop, ""⟩)
    else if seen.brackets then fault ts .missingSemicolon (← minus? last 1)
    else fault ts .unknownWord start

/-- The statement that starts at the cursor. -/
def statement (c : Cursor) : Reading (Node × Cursor) :=
  let (seen, stop) := seek ts Seen.stops Seen.after .nothing c.place
  match (peek ts stop).kind with
  | .semicolon => endedStatement ts seen c.spaces c.place stop
  | .leftBrace => rule ts block c.place stop
  | _ => lastStatement ts seen c.place stop

/-- The end of the parameters of an at-rule that start at a place. -/
def paramsEnd (i : Nat) : Nat :=
  (seek ts (fun depth t => depth == 0 && Segment.isStop t) (fun depth _ t => Segment.depthAfter depth t) 0 i).2

/-- The at-rule that starts at the cursor. -/
def atRule (c : Cursor) : Reading (Node × Cursor) := do
  let name := atName (peek ts c.place)
  let start := advance ts c.place
  let stop := paramsEnd ts start
  let params := trimmedText (← slice? ts start stop)
  if (peek ts stop).kind = .leftBrace then
    let (nodes, last, behind) ← body ts block stop
    return (.atBlock name params nodes (← source? ts c.place last), behind)
  else
    let next := if (peek ts stop).kind = .semicolon then advance ts stop else stop
    return (.atStatement name params (← source? ts c.place (max (stop - 1) c.place)), ⟨next, ""⟩)

end Statements

/-- The statements from the cursor on, up to the `}` of the block they stand in if they are nested, in no more than
`steps` steps. Those before come last first. -/
def nodes (ts : List Token) (steps : Nat) (nested : Bool) (c : Cursor) (before : List Node) :
    Reading (List Node × Cursor) :=
  match steps with
  | 0 => (none : Option _)
  | steps + 1 =>
    let t := peek ts c.place
    if atEnd ts c.place then pure (before.reverse, c)
    else
      match t.kind with
      | .space => nodes ts steps nested ⟨advance ts c.place, c.spaces ++ t.text⟩ before
      | .semicolon => nodes ts steps nested ⟨advance ts c.place, c.spaces⟩ before
      | .comment => do
        let node := .comment (commentText t.text) (← source? ts c.place c.place)
        nodes ts steps nested ⟨advance ts c.place, ""⟩ (node :: before)
      | .rightBrace => if nested then pure (before.reverse, c) else throw ⟨.unexpectedBrace, t.position⟩
      | .atWord => do
        let (node, c) ← atRule ts (fun c => nodes ts steps true c []) c
        nodes ts steps nested c (node :: before)
      | _ => do
        let (node, c) ← statement ts (fun c => nodes ts steps true c []) c
        nodes ts steps nested c (node :: before)

/-- Reads the tokens of a text as a stylesheet. -/
def stylesheet (ts : List Token) : Reading Stylesheet := do
  let (nodes, c) ← nodes ts (ts.length + 1) false ⟨0, ""⟩ []
  let t := peek ts c.place
  if t.kind = .rightBrace then throw ⟨.unexpectedBrace, t.position⟩
  else return ⟨nodes⟩

/-- Reads a text as a stylesheet. -/
def parse (s : String) : Reading Stylesheet :=
  match (Scanner.tokens s).run with
  | none => (none : Option _)
  | some (.error e) => throw ⟨.lexical e.fault, e.position⟩
  | some (.ok ts) => stylesheet ts

/-! ### The tokens ahead -/

/-- The tokens from a place on. -/
def ahead (ts : List Token) (i : Nat) : List Token := content (ts.drop i)

section Ahead

variable {ts us vs : List Token} {t : Token} {i : Nat}

theorem getElem?_of_ahead (h : ahead ts i = t :: us) : ts[i]? = some t ∧ ahead ts (i + 1) = us := by
  cases hd : ts.drop i with
  | nil =>
    rw [ahead, hd] at h
    cases h
  | cons u rest =>
    have hget : ts[i]? = some u := by
      rw [← List.head?_drop, hd]
      rfl
    have hnext : ts.drop (i + 1) = rest := by
      rw [← List.tail_drop, hd]
      rfl
    rw [ahead, hd, content, List.takeWhile_cons] at h
    split at h
    · obtain ⟨rfl, rfl⟩ := List.cons.inj h
      exact ⟨hget, by rw [ahead, hnext, content]⟩
    · cases h

theorem kind_of_ahead (h : ahead ts i = t :: us) : t.kind ≠ .eof := by
  have ht : t ∈ content (ts.drop i) := by
    rw [← ahead, h]
    exact List.mem_cons_self
  simpa using List.mem_takeWhile_imp ht

theorem lt_of_getElem? (h : ts[i]? = some t) : i < ts.length := (List.getElem?_eq_some_iff.mp h).1

theorem peek_of_getElem? (h : ts[i]? = some t) : peek ts i = t := by rw [peek, h, Option.getD_some]

theorem atEnd_of_ahead (h : ahead ts i = t :: us) : atEnd ts i = false := by
  have hget := (getElem?_of_ahead h).1
  have hlt := lt_of_getElem? hget
  simp [atEnd, peek_of_getElem? hget, kind_of_ahead h, hlt]

theorem atEnd_of_ahead_nil (h : ahead ts i = []) : atEnd ts i = true ∧ (peek ts i).kind = .eof := by
  cases hget : ts[i]? with
  | none =>
    have := List.getElem?_eq_none_iff.mp hget
    simp [atEnd, peek, this]
  | some t =>
    have hd : ts.drop i = t :: ts.drop (i + 1) := by
      obtain ⟨hlt, rfl⟩ := List.getElem?_eq_some_iff.mp hget
      exact List.drop_eq_getElem_cons hlt
    rw [ahead, hd, content, List.takeWhile_cons] at h
    have hkind : t.kind = .eof := by
      by_contra hne
      simp [hne] at h
    simp [atEnd, peek_of_getElem? hget, hkind]

theorem ahead_append (h : ahead ts i = us ++ vs) : ahead ts (i + us.length) = vs := by
  induction us generalizing i with
  | nil => exact h
  | cons u us ih =>
    have := ih (getElem?_of_ahead h).2
    rwa [Nat.add_assoc, Nat.add_comm 1] at this

theorem getElem?_of_ahead_append (h : ahead ts i = us ++ t :: vs) : ts[i + us.length]? = some t :=
  (getElem?_of_ahead (ahead_append h)).1

theorem slice?_of_ahead (hi : i ≤ ts.length) (h : ahead ts i = us ++ vs) : slice? ts i (i + us.length) = some us := by
  have hts : ts = ts.take i ++ us ++ (vs ++ (ts.drop i).dropWhile (·.kind != .eof)) := by
    rw [List.append_assoc, ← List.append_assoc us, ← h, ahead, content, List.takeWhile_append_dropWhile,
      List.take_append_drop]
  rw [hts]
  refine slice?_of_append ?_ rfl
  rw [List.length_take, Nat.min_eq_left hi]

theorem position?_of_getElem? (h : ts[i]? = some t) : position? ts i = some t.position := by
  have hlt := lt_of_getElem? h
  rw [position?, minus?_of_le (by omega)]
  show (ts[min i (ts.length - 1)]? >>= _) = _
  rw [Nat.min_eq_left (by omega), h]
  rfl

theorem fault_of_getElem? {α : Type} (h : ts[i]? = some t) (f : ParseFault) :
    fault ts f i = (throw ⟨f, t.position⟩ : Reading α) := by
  rw [fault, position?_of_getElem? h]
  rfl

theorem source?_of_getElem? {u : Token} {j : Nat} (ht : ts[i]? = some t) (hu : ts[j]? = some u) :
    source? ts i j = some ⟨t.position, u.position⟩ := by
  rw [source?, position?_of_getElem? ht, position?_of_getElem? hu]
  rfl

end Ahead

end Cursor
end Mixsheet
