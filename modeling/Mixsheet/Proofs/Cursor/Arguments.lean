import Mathlib.Data.List.DropRight
import Mixsheet.Argument.OfTokens
import Mixsheet.Proofs.Argument.Cut
import Mixsheet.Proofs.Argument.Places
import Mixsheet.Proofs.Cursor.Access

/-! # Arguments read by number

The arguments of a call as one loop over the places of its tokens, or over the bytes of its text, finds them. The loop
never asks for what is not there, it ends, and it finds the arguments that the run of tokens stands for. -/

namespace Mixsheet.Cursor

open Token

/-! ### Text in one `( … )` -/

section Grouped

open Grouped

/-- The parts of a text between its commas. The text from the byte `i` on is still to be read, and the part that is
being read started at the byte `start`. -/
def parts? (text : List Char) (n : Nesting) (start i : Nat) : List Char → Option (List (List Char))
  | [] => do return [← cut? text start (byteSize text)]
  | c :: rest =>
    if c = ',' ∧ n.isOutside then do
      let part ← cut? text start i
      return part :: (← parts? text n (i + 1) (i + c.utf8Size) rest)
    else
      parts? text (n.after c) start (i + c.utf8Size) rest

/-- The key and the value of a part, if it has a `: `. The part from the byte `i` on is still to be read. -/
def pair? (text : List Char) (n : Nesting) (i : Nat) : List Char → Option (Option (List Char × List Char))
  | [] => some none
  | c :: rest =>
    if c = ':' ∧ n.isOutside then do
      if (← behind? text (i + 1)).head? = some ' ' then
        return some (← upTo? text i, ← behind? text (i + 2))
      else
        pair? text (n.after c) (i + c.utf8Size) rest
    else
      pair? text (n.after c) (i + c.utf8Size) rest

/-- The argument that a text is, if lists in it are no deeper than `depth`. -/
def literal? (depth : Nat) (cs : List Char) : Option Argument :=
  match depth with
  | 0 => none
  | depth + 1 =>
    match listBody? cs with
    | none => some (.text (.ofList cs))
    | some body =>
      if (Text.trim body).isEmpty then some (.list [])
      else do
        let parts ← parts? body .outside 0 0 body
        return .list (← parts.mapM fun part => literal? depth (Text.trim part))

/-- What a part between commas is, by numbered places in it. -/
def piece? (part : List Char) : Option Piece := do
  let part := Text.trim part
  match ← pair? part .outside 0 part with
  | some (key, value) =>
    let value := Text.trim value
    return .pair (.ofList (Text.trim key)) (← literal? (value.length + 1) value)
  | none => return .single (← literal? (part.length + 1) part)

/-- The arguments of a call in one `( … )`. -/
def grouped? (raw : String) : Option (List Argument) :=
  let inner := inside raw
  if (Text.trim inner).isEmpty then some (Piece.arguments false [])
  else do
    let pieces ← (← parts? inner .outside 0 0 inner).mapM piece?
    return Piece.arguments (pieces.any Piece.isPair) pieces

theorem splitCommas_eq (cs : List Char) :
    splitCommas cs = (splitComma .outside cs).1 :: ((splitComma .outside cs).2.map splitCommas).getD [] := by
  cases hs : splitComma .outside cs with
  | mk first tail =>
    cases tail with
    | none => exact splitCommas_of_none hs
    | some tail => exact splitCommas_of_some hs

/-- What is left of a text is cut as it would be alone, and its first part belongs to the part that is being read. -/
theorem parts?_append {text before part rest : List Char} (htext : text = before ++ part ++ rest) (n : Nesting) :
    parts? text n (byteSize before) (byteSize (before ++ part)) rest =
      some ((part ++ (splitComma n rest).1) :: ((splitComma n rest).2.map splitCommas).getD []) := by
  induction rest generalizing before part n with
  | nil =>
    have hcut : cut? text (byteSize before) (byteSize text) = some part := by
      rw [htext, List.append_nil]
      simpa using cut?_append before part []
    rw [parts?, hcut]
    simp [splitComma]
  | cons c rest ih =>
    rw [parts?, splitComma, ← byteSize_snoc]
    split
    · rename_i hcomma
      obtain ⟨rfl, hn⟩ := hcomma
      obtain rfl : n = .outside := by simpa [Nesting.isOutside] using hn
      have hcut : cut? text (byteSize before) (byteSize (before ++ part)) = some part := by
        rw [htext]
        exact cut?_append before part _
      have hrest := @ih (before ++ part ++ [',']) [] (by simpa using htext) .outside
      rw [List.append_nil] at hrest
      have hi : byteSize (before ++ part) + 1 = byteSize (before ++ part ++ [',']) := (byteSize_snoc _ ',').symm
      rw [hcut, hi, Option.map_some, Option.getD_some, splitCommas_eq, List.append_nil]
      exact congrArg (fun o : Option (List (List Char)) => o.bind fun parts => some (part :: parts)) hrest
    · have hrest := @ih before (part ++ [c]) (by simpa using htext) (n.after c)
      rw [← List.append_assoc] at hrest
      rw [hrest]
      simp

theorem parts?_eq (cs : List Char) : parts? cs .outside 0 0 cs = some (splitCommas cs) := by
  rw [splitCommas_eq]
  exact @parts?_append cs [] [] cs rfl .outside

theorem pair?_append {text before rest : List Char} (htext : text = before ++ rest) (n : Nesting) :
    pair? text n (byteSize before) rest = some ((splitPair? n rest).map fun p => (before ++ p.1, p.2)) := by
  induction rest generalizing before n with
  | nil => rfl
  | cons c rest ih =>
    have hrest := @ih (before ++ [c]) (by simpa using htext) (n.after c)
    rw [byteSize_snoc] at hrest
    rw [pair?, splitPair?, hrest]
    by_cases hc : c = ':' ∧ n.isOutside
    · obtain ⟨rfl, hn⟩ := hc
      have hbehind : behind? text (byteSize before + 1) = some rest :=
        behind?_eq_some_iff.mpr ⟨before ++ [':'], by simpa using htext, byteSize_snoc before ':'⟩
      rw [if_pos ⟨rfl, hn⟩, hbehind]
      show (if rest.head? = some ' ' then _ else _) = _
      by_cases hspace : rest.head? = some ' '
      · rw [if_pos hspace, if_pos ⟨rfl, hn, hspace⟩]
        obtain ⟨tail, rfl⟩ := List.head?_eq_some_iff.mp hspace
        have hvalue : behind? text (byteSize before + 2) = some tail :=
          behind?_eq_some_iff.mpr ⟨before ++ [':', ' '], by simpa using htext, byteSize_append before [':', ' ']⟩
        have hkey : upTo? text (byteSize before) = some before := by
          rw [htext]
          exact upTo?_append before _
        rw [hkey, hvalue]
        simp
      · rw [if_neg hspace, if_neg fun h => hspace h.2.2]
        simp [Function.comp_def]
    · rw [if_neg hc, if_neg fun h => hc ⟨h.1, h.2.1⟩]
      simp [Function.comp_def]

theorem pair?_eq (cs : List Char) : pair? cs .outside 0 cs = some (splitPair? .outside cs) := by
  refine (@pair?_append cs [] cs rfl .outside).trans ?_
  simp

theorem mapM_eq_some {α β : Type} {f : α → Option β} {g : α → β} {xs : List α} (h : ∀ x ∈ xs, f x = some (g x)) :
    xs.mapM f = some (xs.map g) := by
  induction xs with
  | nil => rfl
  | cons x xs ih =>
    obtain ⟨hx, hxs⟩ := List.forall_mem_cons.mp h
    rw [List.mapM_cons, hx, ih hxs]
    rfl

/-- Lists in a text are less deep than the text is long. -/
theorem literal?_eq {depth : Nat} {cs : List Char} (h : cs.length < depth) :
    literal? depth cs = some (literal cs) := by
  induction depth generalizing cs with
  | zero => cases h
  | succ depth ih =>
    rw [literal?]
    cases hbody : listBody? cs with
    | none => rw [literal_of_none hbody]
    | some body =>
      have hparts : (splitCommas body).mapM (fun part => literal? depth (Text.trim part)) =
          some ((splitCommas body).map fun part => literal (Text.trim part)) := by
        refine mapM_eq_some fun part hpart => ih ?_
        have htrim := Text.length_trim_le part
        have hlength := length_le_of_mem_splitCommas hpart
        have hlt := length_of_listBody? hbody
        omega
      rw [literal_of_some hbody]
      dsimp only
      split
      · rfl
      · rw [parts?_eq]
        show ((splitCommas body).mapM _ >>= fun parts => some (Argument.list parts)) = _
        rw [hparts]
        rfl

theorem piece?_eq (part : List Char) : piece? part = some (piece part) := by
  unfold piece? piece
  dsimp only
  rw [pair?_eq]
  cases splitPair? .outside (Text.trim part) with
  | none =>
    show (literal? _ _ >>= fun argument => some (Piece.single argument)) = _
    rw [literal?_eq (Nat.lt_succ_self _)]
    rfl
  | some p =>
    show (literal? _ _ >>= fun argument => some (Piece.pair _ argument)) = _
    rw [literal?_eq (Nat.lt_succ_self _)]
    rfl

theorem grouped?_eq (raw : String) : grouped? raw = some (Grouped.arguments raw) := by
  unfold grouped? Grouped.arguments pieces
  dsimp only
  split
  · rfl
  · rw [parts?_eq]
    show ((splitCommas (inside raw)).mapM piece? >>= fun pieces => some _) = _
    rw [mapM_eq_some fun part _ => piece?_eq part]
    rfl

end Grouped

/-! ### Scanned tokens -/

section Scan

open Scan

/-- How far behind the first of some tokens the bracket stands that closes the list that the first one opens. -/
def closingFrom? (depth offset : Nat) : List Token → Option (Option Nat)
  | [] => some none
  | t :: rest =>
    match t.kind with
    | .leftBracket => closingFrom? (depth + 1) (offset + 1) rest
    | .rightBracket => do
      let depth ← minus? depth 1
      if depth = 0 then return some offset else closingFrom? depth (offset + 1) rest
    | _ => closingFrom? depth (offset + 1) rest

/-- The place of the bracket that closes the list that the one at the place `i` opens, or of the end. -/
def closing? (ts : List Token) (i : Nat) : Option Nat := do
  match ← closingFrom? 0 0 (← slice? ts i ts.length) with
  | some offset => return i + offset
  | none => return ts.length

/-- The word or string at the place `i` continues the last argument. -/
def continues? (ts : List Token) (i : Nat) (arguments : List Argument) : Option Bool :=
  match arguments with
  | .text _ :: _ =>
    if i < 2 then some false
    else do
      let space ← ts[← minus? i 1]?
      let t ← ts[← minus? i 2]?
      return space.kind == .space && t.kind != .colon && t.kind != .comma && t.text.toList.getLast? != some ','
  | _ => some false

/-- A word stands right before the place `i`. -/
def followsWord? (ts : List Token) (i : Nat) : Option Bool :=
  if i > 0 then do return (← ts[← minus? i 1]?).kind == .word else some false

/-- How many parentheses of a function are open after a token inside it. -/
def depthAfter? (depth : Nat) (t : Token) : Option Nat :=
  match t.kind with
  | .leftParen => some (depth + 1)
  | .rightParen => minus? depth 1
  | _ => some depth

/-- The arguments of the tokens from the place `i` on, as `Scan.argumentsFrom` reads them, in no more than `steps`
steps. -/
def scan? (steps : Nat) (ts : List Token) (i depth : Nat) (arguments : List Argument) (keyed : Bool) :
    Option (List Argument × Bool) :=
  match steps with
  | 0 => none
  | steps + 1 =>
    if i < ts.length then do
      let t ← ts[i]?
      if depth > 0 then
        scan? steps ts (i + 1) (← depthAfter? depth t) (append arguments t.text) keyed
      else
        match t.kind with
        | .colon => scan? steps ts (i + 1) 0 arguments true
        | .word | .string | .atWord =>
          if ← continues? ts i arguments then
            scan? steps ts (i + 1) 0 (append arguments (", " ++ t.text)) keyed
          else
            scan? steps ts (i + 1) 0 (.text t.text :: arguments) keyed
        | .leftParen => scan? steps ts (i + 1) 1 (append arguments t.text) keyed
        | .rightParen => scan? steps ts (i + 1) 0 (append arguments t.text) keyed
        | .brackets =>
          if ← followsWord? ts i then
            scan? steps ts (i + 1) 0 (append arguments t.text) keyed
          else
            scan? steps ts (i + 1) 0 (.text t.text :: arguments) keyed
        | .leftBracket =>
          let close ← closing? ts i
          let (items, _) ← scan? steps (← slice? ts (i + 1) close) 0 0 [] false
          scan? steps ts (close + 1) 0 (.list items :: arguments) keyed
        | _ => scan? steps ts (i + 1) 0 arguments keyed
    else
      some (arguments.reverse, keyed)

section Before

variable {ts before rest : List Token} {t : Token}

theorem getElem?_of_before (h : ts = before.reverse ++ t :: rest) : ts[before.length]? = some t := by
  rw [h, ← List.length_reverse, List.getElem?_append_right (Nat.le_refl _), Nat.sub_self]
  rfl

theorem continues?_eq (h : ts = before.reverse ++ rest) (arguments : List Argument) :
    continues? ts before.length arguments = some (continuesStack before arguments) := by
  match arguments with
  | [] | .list _ :: _ | .map _ :: _ =>
    match before with
    | [] | [_] | _ :: _ :: _ => rfl
  | .text _ :: _ =>
    match before with
    | [] | [_] => rfl
    | space :: t :: before =>
      have hspace : ts[before.length + 1]? = some space := by
        rw [h, List.reverse_cons, List.append_assoc, ← List.length_cons]
        exact getElem?_of_before rfl
      have ht : ts[before.length]? = some t := by
        rw [h, List.reverse_cons, List.reverse_cons, List.append_assoc, List.append_assoc]
        exact getElem?_of_before rfl
      rw [continues?, List.length_cons, List.length_cons, if_neg (by omega), minus?_add _ 1]
      show (ts[before.length + 1]? >>= _) = _
      rw [hspace, minus?_add _ 2]
      show (ts[before.length]? >>= _) = _
      rw [ht]
      rfl

theorem followsWord?_eq (h : ts = before.reverse ++ rest) :
    followsWord? ts before.length = some (before.head?.any (·.kind == .word)) := by
  cases before with
  | nil => rfl
  | cons t before =>
    have ht : ts[before.length]? = some t := by
      rw [h, List.reverse_cons, List.append_assoc]
      exact getElem?_of_before rfl
    rw [followsWord?, List.length_cons, if_pos (Nat.succ_pos _), minus?_add _ 1]
    show (ts[before.length]? >>= _) = _
    rw [ht]
    rfl

end Before

theorem splitList_of_not {depth : Nat} {t : Token} (h : ¬ (t.kind = .rightBracket ∧ depth = 0)) (rest : List Token) :
    splitList depth (t :: rest) =
      (t :: (splitList (listsAfter depth t.kind) rest).1, (splitList (listsAfter depth t.kind) rest).2) :=
  if_neg h

/-- Behind a bracket that opens a list every closing one has an opening one before it. -/
theorem closingFrom?_eq (depth offset : Nat) (ts : List Token) :
    closingFrom? (depth + 1) offset ts =
      some (if (splitList depth ts).2 = [] then none else some (offset + (splitList depth ts).1.length)) := by
  induction ts generalizing depth offset with
  | nil => rfl
  | cons t rest ih =>
    -- where the list does not end yet
    have hnext : ∀ inner, splitList depth (t :: rest) = (t :: (splitList inner rest).1, (splitList inner rest).2) →
        closingFrom? (inner + 1) (offset + 1) rest =
          some (if (splitList depth (t :: rest)).2 = [] then none
            else some (offset + (splitList depth (t :: rest)).1.length)) := by
      intro inner hsplit
      rw [ih, hsplit, List.length_cons, Nat.add_assoc, Nat.add_comm 1]
    rw [closingFrom?]
    split
    · rename_i hkind
      refine hnext (depth + 1) ?_
      rw [splitList_of_not (by simp [hkind]), hkind]
      rfl
    · rename_i hkind
      rw [minus?_add depth 1]
      cases depth with
      | zero =>
        have hsplit : splitList 0 (t :: rest) = ([], t :: rest) := if_pos ⟨hkind, rfl⟩
        rw [hsplit]
        rfl
      | succ depth =>
        refine hnext depth ?_
        rw [splitList_of_not (fun h => Nat.succ_ne_zero _ h.2), hkind]
        rfl
    · rename_i hleft hright
      have hlists : listsAfter depth t.kind = depth := by
        unfold listsAfter
        split <;> simp_all
      refine hnext depth ?_
      rw [splitList_of_not (fun h => hright h.1), hlists]

theorem closing?_eq {ts before rest : List Token} {t : Token} (h : ts = before.reverse ++ t :: rest)
    (ht : t.kind = .leftBracket) :
    closing? ts before.length = some (before.length + 1 + (splitList 0 rest).1.length) := by
  have hslice : slice? ts before.length ts.length = some (t :: rest) := by
    have := slice?_right before.reverse (t :: rest)
    rwa [← h, List.length_reverse] at this
  have hfrom : closingFrom? 0 0 (t :: rest) =
      some (if (splitList 0 rest).2 = [] then none else some (1 + (splitList 0 rest).1.length)) := by
    rw [closingFrom?, ht]
    exact closingFrom?_eq 0 1 rest
  rw [closing?, hslice]
  show (closingFrom? 0 0 (t :: rest) >>= _) = _
  rw [hfrom]
  have hlength := splitList_length 0 rest
  by_cases hnil : (splitList 0 rest).2 = []
  · rw [if_pos hnil]
    rw [hnil, List.length_nil, Nat.add_zero] at hlength
    rw [hlength]
    show some ts.length = _
    rw [h, List.length_append, List.length_reverse, List.length_cons, Nat.add_assoc, Nat.add_comm 1]
  · rw [if_neg hnil]
    exact congrArg some (Nat.add_assoc _ _ _).symm

theorem depthAfter?_eq {depth : Nat} (h : depth > 0) (t : Token) : depthAfter? depth t = some (depthAfter depth t) := by
  unfold depthAfter? depthAfter
  cases t.kind with
  | rightParen => exact minus?_of_le h
  | _ => rfl

theorem scan?_end {steps : Nat} (hsteps : 0 < steps) {ts : List Token} {i : Nat} (hi : ts.length ≤ i) (depth : Nat)
    (arguments : List Argument) (keyed : Bool) :
    scan? steps ts i depth arguments keyed = some (arguments.reverse, keyed) := by
  cases steps with
  | zero => cases hsteps
  | succ steps => rw [scan?, if_neg (Nat.not_lt.mpr hi)]

theorem scan?_leftBracket {ts before rest : List Token} {t : Token} (h : ts = before.reverse ++ t :: rest)
    (ht : t.kind = .leftBracket) (steps : Nat) (arguments : List Argument) (keyed : Bool) :
    scan? (steps + 1) ts before.length 0 arguments keyed =
      (scan? steps (splitList 0 rest).1 0 0 [] false).bind fun inner =>
        scan? steps ts (before.length + 1 + (splitList 0 rest).1.length + 1) 0 (.list inner.1 :: arguments) keyed := by
  have hslice : slice? ts (before.length + 1) (before.length + 1 + (splitList 0 rest).1.length) =
      some (splitList 0 rest).1 := by
    have := slice?_append (t :: before).reverse (splitList 0 rest).1 (splitList 0 rest).2
    rwa [List.append_assoc, splitList_append, List.length_append, List.length_reverse, List.length_cons,
      List.reverse_cons, List.append_assoc, List.singleton_append, ← h] at this
  have hlt : before.length < ts.length := by simp [h]
  rw [scan?, if_pos hlt, getElem?_of_before h]
  simp only [Option.bind_eq_bind, Option.bind_some, ht, gt_iff_lt, Nat.lt_irrefl, if_false, closing?_eq h ht, hslice]

/-- Every step reads a token, or a list of tokens behind it. -/
theorem scan?_eq {steps : Nat} {ts before rest : List Token} (h : ts = before.reverse ++ rest)
    (hsteps : rest.length < steps) (depth : Nat) (arguments : List Argument) (keyed : Bool) :
    scan? steps ts before.length depth arguments keyed =
      some (argumentsFrom before depth arguments keyed rest) := by
  induction steps generalizing ts before rest depth arguments keyed with
  | zero => cases hsteps
  | succ steps ih =>
    have hlength : ts.length = before.length + rest.length := by
      rw [h, List.length_append, List.length_reverse]
    cases rest with
    | nil =>
      have hend : ts.length ≤ before.length := Nat.le_of_eq hlength
      rw [scan?_end (Nat.succ_pos _) hend, argumentsFrom]
    | cons t rest =>
      rw [List.length_cons] at hsteps hlength
      by_cases hlist : t.kind = .leftBracket ∧ depth = 0
      · obtain ⟨ht, rfl⟩ := hlist
        have hinside := splitList_length 0 rest
        have hlt : (splitList 0 rest).1.length < steps := by omega
        have hinner : scan? steps (splitList 0 rest).1 0 0 [] false =
            some (argumentsFrom [] 0 [] false (splitList 0 rest).1) :=
          @ih _ [] _ rfl hlt 0 [] false
        rw [scan?_leftBracket h ht, argumentsFrom_leftBracket ht, hinner, Option.bind_some]
        have hparts := splitList_append 0 rest
        cases hbehind : (splitList 0 rest).2 with
        | nil =>
          rw [hbehind, List.length_nil] at hinside
          exact scan?_end (by omega) (by omega) 0 _ keyed
        | cons close behind =>
          rw [hbehind, List.length_cons] at hinside
          have hts : ts = (close :: ((splitList 0 rest).1.reverse ++ t :: before)).reverse ++ behind := by
            rw [hbehind] at hparts
            simp [h, hparts]
          have hplace : before.length + 1 + (splitList 0 rest).1.length + 1 =
              (close :: ((splitList 0 rest).1.reverse ++ t :: before)).length := by
            simp only [List.length_cons, List.length_append, List.length_reverse]
            omega
          rw [hplace]
          exact ih hts (by omega) 0 _ keyed
      · have hnext : ∀ depth arguments keyed, scan? steps ts (before.length + 1) depth arguments keyed =
            some (argumentsFrom (t :: before) depth arguments keyed rest) :=
          @ih ts (t :: before) rest (by simpa using h) (by omega)
        rw [scan?, if_pos (by omega), getElem?_of_before h, argumentsFrom]
        show (if depth > 0 then _ else _) = _
        split
        · rename_i hdepth
          rw [depthAfter?_eq hdepth]
          exact hnext _ _ _
        · rename_i hdepth
          cases hkind : t.kind with
          | word | string | atWord =>
            show (continues? ts before.length arguments >>= _) = some (if _ then _ else _)
            rw [continues?_eq h]
            show (if continuesStack before arguments = true then _ else _) = _
            split <;> exact hnext _ _ _
          | brackets =>
            show (followsWord? ts before.length >>= _) = some (if _ then _ else _)
            rw [followsWord?_eq h]
            show (if before.head?.any (·.kind == .word) = true then _ else _) = _
            split <;> exact hnext _ _ _
          | leftBracket => exact absurd ⟨hkind, Nat.eq_zero_of_not_pos hdepth⟩ hlist
          | _ => exact hnext _ _ _

/-- The arguments in tokens, by numbered places among them. -/
def scanned? (ts : List Token) : Option (List Argument) := do
  let (arguments, keyed) ← scan? (ts.length + 1) ts 0 0 [] false
  return Piece.arguments keyed (arguments.map .single)

theorem scanned?_eq (ts : List Token) : scanned? ts = some (Scan.arguments ts) := by
  have h : scan? (ts.length + 1) ts 0 0 [] false = some (argumentsFrom [] 0 [] false ts) :=
    @scan?_eq _ ts [] ts rfl (Nat.lt_succ_self _) 0 [] false
  rw [scanned?, h]
  rfl

end Scan

/-! ### All arguments -/

/-- The place of the last entry that is `p`. -/
def lastPlace? (p : Token → Bool) (ts : List Token) : Option Nat :=
  (ts.reverse.findIdx? p).map (ts.length - 1 - ·)

/-- A run of tokens without the white space and comments at its ends. -/
def trim? (ts : List Token) : Option (List Token) :=
  let start := (ts.findIdx? (!·.isTrivia)).getD ts.length
  slice? ts start (((lastPlace? (!·.isTrivia) ts).map (· + 1)).getD start)

/-- The tokens of a run behind the `(` that it starts with, up to the `)` that ends it, if one does. -/
def inner? (ts : List Token) : Option (List Token) := do
  let stop ← if ts.getLast?.any (·.kind == .rightParen) && ts.length > 1 then minus? ts.length 1 else some ts.length
  slice? ts 1 stop

/-- The arguments that a run of tokens stands for. -/
def arguments? (ts : List Token) : Option (List Argument) := do
  match ← trim? ts with
  | [] => return []
  | t :: rest =>
    if t.kind = .brackets ∧ rest = [] then grouped? t.text
    else if t.kind = .leftParen then scanned? (← inner? (t :: rest))
    else scanned? (t :: rest)

/-- A run is what trimming leaves of it between white space and comments, and that starts and ends with neither. -/
theorem exists_trimTrivia (ts : List Token) : ∃ front back, ts = front ++ trimTrivia ts ++ back ∧
    (∀ t ∈ front ++ back, t.isTrivia = true) ∧ (∀ t ∈ (trimTrivia ts).head?, t.isTrivia = false) ∧
    ∀ t ∈ (trimTrivia ts).getLast?, t.isTrivia = false := by
  have hfront : ts.takeWhile isTrivia ++ dropTrivia ts = ts := List.takeWhile_append_dropWhile
  have hback : trimTrivia ts ++ (dropTrivia ts).rtakeWhile isTrivia = dropTrivia ts :=
    List.rdropWhile_append_rtakeWhile ..
  refine ⟨ts.takeWhile isTrivia, (dropTrivia ts).rtakeWhile isTrivia, ?_, ?_, ?_, ?_⟩
  · rw [List.append_assoc, hback, hfront]
  · exact List.forall_mem_append.mpr ⟨fun t ht => List.mem_takeWhile_imp ht, fun t ht => List.mem_rtakeWhile_imp ht⟩
  · intro t ht
    have hhead : (dropTrivia ts).head? = some t := by
      rw [← hback, List.head?_append, ht]
      rfl
    have hnot := List.head?_dropWhile_not isTrivia ts
    rw [← dropTrivia, hhead] at hnot
    exact hnot
  · intro t ht
    obtain ⟨hne, rfl⟩ := List.mem_getLast?_eq_getLast ht
    exact Bool.eq_false_iff.mpr (List.rdropWhile_last_not isTrivia (dropTrivia ts) hne)

theorem trim?_eq (ts : List Token) : trim? ts = some (trimTrivia ts) := by
  obtain ⟨front, back, hts, htrivia, hhead, hlast⟩ := exists_trimTrivia ts
  obtain ⟨hfront, hback⟩ := List.forall_mem_append.mp htrivia
  have hlength := congrArg List.length hts
  unfold trim?
  generalize trimTrivia ts = run at *
  cases run with
  | nil =>
    have hall : ∀ t ∈ ts, (!t.isTrivia) = false := fun t ht => by
      rw [hts, List.append_nil] at ht
      simp [htrivia t ht]
    have hnone : ts.findIdx? (!·.isTrivia) = none := List.findIdx?_eq_none_iff.mpr hall
    have hlast : lastPlace? (!·.isTrivia) ts = none := by
      rw [lastPlace?, List.findIdx?_eq_none_iff.mpr fun t ht => hall t (List.mem_reverse.mp ht)]
      rfl
    rw [hnone, hlast]
    simpa using slice?_append ts [] []
  | cons first rest =>
    have hfirst : ts.findIdx? (!·.isTrivia) = some front.length := by
      rw [hts, List.append_assoc]
      exact findIdx?_of_append (fun t ht => by simp [hfront t ht]) (by simp [hhead first rfl])
    obtain ⟨init, last, hrun⟩ := (List.eq_nil_or_concat' (first :: rest)).resolve_left (List.cons_ne_nil first rest)
    rw [hrun] at hts hlast hlength ⊢
    have hplace : lastPlace? (!·.isTrivia) ts = some (front.length + init.length) := by
      have hreverse : ts.reverse = back.reverse ++ last :: (front ++ init).reverse := by simp [hts]
      have hlast := hlast last List.getLast?_concat
      rw [lastPlace?, hreverse, findIdx?_of_append (fun t ht => by simp [hback t (List.mem_reverse.mp ht)])
        (by simp [hlast])]
      simp only [List.length_append, List.length_singleton] at hlength
      simp only [Option.map_some, List.length_reverse, Option.some.injEq]
      omega
    rw [hfirst, hplace, hts]
    exact slice?_of_append rfl (by simp; omega)

theorem inner?_eq {t : Token} (h : t.kind = .leftParen) (rest : List Token) :
    inner? (t :: rest) = some (Argument.dropClosing rest) := by
  rcases List.eq_nil_or_concat' rest with rfl | ⟨init, last, rfl⟩
  · simp [inner?, h, slice?, Argument.dropClosing]
  · have hlast : (t :: (init ++ [last])).getLast? = some last := by
      rw [← List.cons_append, List.getLast?_concat]
    rw [inner?, Argument.dropClosing, hlast, List.getLast?_concat]
    by_cases hkind : last.kind = .rightParen
    · rw [if_pos (by simp [hkind]), if_pos (by simp [hkind]), List.length_cons, minus?_add _ 1, List.dropLast_concat]
      have hrun : t :: (init ++ [last]) = [t] ++ init ++ [last] := rfl
      rw [hrun]
      exact slice?_of_append rfl (by simp; omega)
    · rw [if_neg (by simp [hkind]), if_neg (by simp [hkind])]
      simpa using slice?_right [t] (init ++ [last])

theorem arguments?_eq (ts : List Token) : arguments? ts = some (Argument.ofTokens ts) := by
  rw [arguments?, trim?_eq, Argument.ofTokens]
  show (match trimTrivia ts with | [] => _ | t :: rest => _) = _
  cases trimTrivia ts with
  | nil => rfl
  | cons t rest =>
    simp only [grouped?_eq, scanned?_eq]
    split
    · rfl
    split
    · rename_i hparen
      rw [inner?_eq hparen]
      rfl
    · rfl

end Mixsheet.Cursor
