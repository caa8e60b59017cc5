import Mixsheet.Proofs.Cursor.Access

/-! # Characters read by number

The tokens of a text as a scanner finds them that keeps the characters in one list and moves over their places, where
the byte and the position of the next character are counted along. The scanner never asks for what is not there, it
ends, and it finds the tokens of the text, or the same fault. -/

namespace Mixsheet.Scanner

open Lexeme Cursor
open Token (byteSize byteSize_append isUrl ofLexeme ofCharsFrom)

/-- Where a scanner stands: the place, the byte and the position of the character it reads next. -/
structure Spot where
  place : Nat
  offset : Nat
  position : Position

/-- A scan gives a result or the fault of the text, unless it asks for what is not there or does not end. -/
abbrev Scanning : Type → Type := Checked LexicalError

/-! ### The scanner -/

section Scanner

variable (cs : List Char)

/-- The character at a place. Behind the text stand null characters. -/
def char? (i : Nat) : Option Char := if cs.length ≤ i then some '\x00' else cs[i]?

/-- Moves on behind the next character. -/
def advance? (s : Spot) : Option Spot :=
  if s.place < cs.length then do
    let c ← cs[s.place]?
    return ⟨s.place + 1, s.offset + c.utf8Size, s.position.next c⟩
  else some s

/-- Reads on, in no more than `steps` steps, up to the end or to the first character where the scanner does not go
on. -/
def readOn? (goesOn : Char → Char → Bool) (steps : Nat) (s : Spot) (text : List Char) : Option (List Char × Spot) :=
  match steps with
  | 0 => none
  | steps + 1 =>
    if s.place < cs.length then do
      let c ← char? cs s.place
      if goesOn c (← char? cs (s.place + 1)) then readOn? goesOn steps (← advance? cs s) (text ++ [c])
      else return (text, s)
    else some (text, s)

/-- Reads on behind an opening quote, up to the end or to the quote that closes it. -/
def readQuoted? (quote : Char) (steps : Nat) (s : Spot) (text : List Char) : Option (List Char × Spot) :=
  match steps with
  | 0 => none
  | steps + 1 =>
    if s.place < cs.length then do
      let c ← char? cs s.place
      if c = quote then return (text, s)
      else if c = '\\' then do
        let s ← advance? cs s
        if s.place < cs.length then
          readQuoted? quote steps (← advance? cs s) (text ++ ['\\', ← char? cs s.place])
        else return (text ++ ['\\'], s)
      else readQuoted? quote steps (← advance? cs s) (text ++ [c])
    else some (text, s)

/-- Moves on behind the character at the place `last`. -/
def advanceTo? (last steps : Nat) (s : Spot) : Option Spot :=
  match steps with
  | 0 => none
  | steps + 1 => if s.place ≤ last then do advanceTo? last steps (← advance? cs s) else some s

/-- The token of a text between two spots, and the spot behind it. -/
def tokenOf (kind : TokenKind) (text : List Char) (start stop : Spot) : Token × Spot :=
  (⟨kind, .ofList text, start.offset, stop.offset, start.position⟩, stop)

/-- Scans white space. -/
def space? (s : Spot) : Option (Token × Spot) := do
  let (text, stop) ← readOn? cs (fun c _ => Text.isBlank c) (cs.length + 1) s []
  return tokenOf .space text s stop

/-- Whether a comment goes on before two characters. -/
def inComment (c d : Char) : Bool := !(c == '*' && d == '/')

/-- Scans a comment. -/
def comment (s : Spot) : Scanning (Token × Spot) := do
  let (text, stop) ← readOn? cs inComment (cs.length + 1) (← advance? cs (← advance? cs s)) ['/', '*']
  if stop.place < cs.length then
    return tokenOf .comment (text ++ ['*', '/']) s (← advance? cs (← advance? cs stop))
  else throw ⟨.unclosedComment, s.position⟩

/-- Scans a quoted text. -/
def string (s : Spot) : Scanning (Token × Spot) := do
  let quote ← char? cs s.place
  let (text, stop) ← readQuoted? cs quote (cs.length + 1) (← advance? cs s) [quote]
  if stop.place < cs.length then return tokenOf .string (text ++ [quote]) s (← advance? cs stop)
  else throw ⟨.unclosedString, s.position⟩

/-- The next character as a token. -/
def single? (kind : TokenKind) (s : Spot) : Option (Token × Spot) := do
  return tokenOf kind [← char? cs s.place] s (← advance? cs s)

/-- The `(` that stands next, with what it holds if it makes one token with the next `)`. -/
def paren? (afterUrl : Bool) (s : Spot) : Option (Token × Spot) := do
  match (← slice? cs s.place cs.length).findIdx? (· == ')') with
  | none => single? cs .leftParen s
  | some offset =>
    let close := s.place + offset
    if groups afterUrl (← slice? cs (s.place + 1) close) then
      return tokenOf .brackets (← slice? cs s.place (close + 1)) s (← advanceTo? cs close (cs.length + 1) s)
    else single? cs .leftParen s

/-- Whether a word goes on before two characters. -/
def inWord (c d : Char) : Bool := !endsWord c [d]

/-- Scans a word of a kind, whatever its first character is. -/
def word? (kind : TokenKind) (s : Spot) : Option (Token × Spot) := do
  let c ← char? cs s.place
  let (text, stop) ← readOn? cs inWord (cs.length + 1) (← advance? cs s) [c]
  return tokenOf kind text s stop

/-- The token that starts where the scanner stands. -/
def token (before? : Option Token) (s : Spot) : Scanning (Token × Spot) := do
  let c ← char? cs s.place
  if Text.isBlank c then space? cs s
  else if opensComment c [← char? cs (s.place + 1)] then comment cs s
  else if isQuote c then string cs s
  else if c = '(' then paren? cs (before?.any isUrl) s
  else if c = '@' then word? cs .atWord s
  else
    match punctuation? c with
    | some kind => single? cs kind s
    | none => word? cs .word s

/-- The tokens of a text, in no more than `steps` steps. Those before the scanner's place come last first. -/
def scan (steps : Nat) (before : List Token) (s : Spot) : Scanning (List Token) :=
  match steps with
  | 0 => (none : Option _)
  | steps + 1 =>
    if s.place < cs.length then do
      let (t, s) ← token cs before.head? s
      scan steps (t :: before) s
    else pure ((⟨.eof, "", s.offset, s.offset, s.position⟩ : Token) :: before).reverse

end Scanner

/-- The tokens of a text. -/
def tokens (s : String) : Scanning (List Token) := scan s.toList (s.toList.length + 1) [] ⟨0, 0, .first⟩

/-! ### Moves -/

/-- Where a scanner stands behind a text. -/
def Spot.behind (before : List Char) : Spot := ⟨before.length, byteSize before, .after .first before⟩

section Moves

variable {cs before : List Char} {c : Char} {rest : List Char}

theorem char?_eq (h : cs = before ++ rest) : char? cs (Spot.behind before).place = some (rest.head?.getD '\x00') := by
  subst h
  cases rest <;> simp [char?, Spot.behind]

theorem char?_succ_eq (h : cs = before ++ c :: rest) :
    char? cs ((Spot.behind before).place + 1) = some (rest.head?.getD '\x00') := by
  have hcs : cs = before ++ [c] ++ rest := by simp [h]
  simpa [Spot.behind] using char?_eq hcs

theorem advance?_eq (h : cs = before ++ c :: rest) : advance? cs (.behind before) = some (.behind (before ++ [c])) := by
  simp [h, advance?, Spot.behind, byteSize_snoc, Position.after_append]

theorem place_behind_lt (h : cs = before ++ c :: rest) : (Spot.behind before).place < cs.length := by
  simp [h, Spot.behind]

theorem not_place_behind_lt (h : cs = before) : ¬ (Spot.behind before).place < cs.length :=
  h ▸ Nat.lt_irrefl _

end Moves

/-! ### Texts that a scanner reads on -/

/-- Splits a text before the first character where a scanner does not go on. -/
def cutOff (goesOn : Char → Char → Bool) : List Char → List Char × List Char
  | [] => ([], [])
  | c :: rest =>
    if goesOn c (rest.head?.getD '\x00') then (c :: (cutOff goesOn rest).1, (cutOff goesOn rest).2) else ([], c :: rest)

section ReadOn

variable {goesOn : Char → Char → Bool} {cs before rest : List Char} {steps : Nat}

theorem cutOff_append (goesOn : Char → Char → Bool) (cs : List Char) :
    (cutOff goesOn cs).1 ++ (cutOff goesOn cs).2 = cs := by
  induction cs with
  | nil => rfl
  | cons c cs ih =>
    rw [cutOff]
    split <;> simp [ih]

theorem readOn?_eq (h : cs = before ++ rest) (hsteps : rest.length < steps) (text : List Char) :
    readOn? cs goesOn steps (.behind before) text =
      some (text ++ (cutOff goesOn rest).1, .behind (before ++ (cutOff goesOn rest).1)) := by
  induction steps generalizing before rest text with
  | zero => cases hsteps
  | succ steps ih =>
    subst h
    cases rest with
    | nil => simp [readOn?, Spot.behind, cutOff]
    | cons c rest =>
      have hnext := @ih (before ++ [c]) rest (by simp) (Nat.lt_of_succ_lt_succ hsteps) (text ++ [c])
      rw [readOn?, if_pos (place_behind_lt rfl), char?_eq rfl, char?_succ_eq rfl, advance?_eq rfl]
      simp only [Option.bind_eq_bind, Option.bind_some, List.head?_cons, Option.getD_some, cutOff]
      split
      · simpa using hnext
      · simp

theorem opensComment_head (c : Char) (rest : List Char) :
    opensComment c [rest.head?.getD '\x00'] = opensComment c rest := by
  cases rest <;> simp [opensComment]

theorem endsWord_head (c : Char) (rest : List Char) : endsWord c [rest.head?.getD '\x00'] = endsWord c rest := by
  rw [endsWord, endsWord, opensComment_head]

theorem cutOff_blank (cs : List Char) :
    cutOff (fun c _ => Text.isBlank c) cs = (cs.takeWhile Text.isBlank, cs.dropWhile Text.isBlank) := by
  induction cs with
  | nil => rfl
  | cons c cs ih =>
    rw [cutOff, ih, List.takeWhile_cons, List.dropWhile_cons]
    split <;> rfl

theorem cutOff_inWord (cs : List Char) : cutOff inWord cs = splitWord cs := by
  induction cs with
  | nil => rfl
  | cons c cs ih =>
    rw [cutOff, splitWord, inWord, endsWord_head, ih]
    cases endsWord c cs <;> rfl

/-- A comment ends where the scanner does not go on. -/
theorem splitComment?_eq (cs : List Char) :
    (cutOff inComment cs).2 = [] ∧ splitComment? cs = none ∨
      ∃ rest, (cutOff inComment cs).2 = '*' :: '/' :: rest ∧
        splitComment? cs = some ((cutOff inComment cs).1 ++ ['*', '/'], rest) := by
  fun_induction splitComment? cs with
  | case1 rest => exact .inr ⟨rest, rfl, rfl⟩
  | case2 c cs hn ih =>
    have hgoesOn : inComment c (cs.head?.getD '\x00') = true := by
      by_contra hends
      simp only [inComment, Bool.not_eq_true', Bool.not_eq_false, Bool.and_eq_true, beq_iff_eq] at hends
      obtain ⟨rfl, hhead⟩ := hends
      cases cs with
      | nil => cases hhead
      | cons d cs =>
        obtain rfl : d = '/' := hhead
        exact hn cs rfl rfl
    rw [cutOff, if_pos hgoesOn]
    rcases ih with ⟨hnil, hnone⟩ | ⟨rest, hrest, hsome⟩
    · exact .inl ⟨hnil, by rw [hnone]; rfl⟩
    · exact .inr ⟨rest, hrest, by rw [hsome]; rfl⟩
  | case3 => exact .inl ⟨rfl, rfl⟩

/-- A scanner that has read `text` up to `before` reads the rest of a string on to the quote that closes it, or to the
end if none does. -/
inductive ReadsString (quote : Char) (cs before text rest : List Char) (r : Option (List Char × Spot)) : Prop where
  | unclosed (split : splitString? quote rest = none) (read : r = some (text ++ rest, .behind cs))
  | closed {body behind : List Char} (rest_eq : rest = body ++ quote :: behind)
    (split : splitString? quote rest = some (body ++ [quote], behind))
    (read : r = some (text ++ body, .behind (before ++ body)))

theorem ReadsString.prepend {quote : Char} {text : List Char} {r : Option (List Char × Spot)} (taken : List Char)
    (h : ReadsString quote cs (before ++ taken) (text ++ taken) rest r)
    (hsplit : splitString? quote (taken ++ rest) = (splitString? quote rest).map fun p => (taken ++ p.1, p.2)) :
    ReadsString quote cs before text (taken ++ rest) r := by
  rcases h with ⟨hnone, hread⟩ | ⟨hrest, hsome, hread⟩
  · exact .unclosed (by rw [hsplit, hnone]; rfl) (by rw [hread, List.append_assoc])
  · rename_i body behind
    refine @ReadsString.closed _ _ _ _ _ _ (taken ++ body) behind ?_ ?_ ?_
    · rw [hrest, List.append_assoc]
    · rw [hsplit, hsome, Option.map_some, List.append_assoc]
    · rw [hread, List.append_assoc, List.append_assoc]

/-- A string ends where the scanner does not go on. -/
theorem readQuoted?_eq {quote : Char} (hquote : quote ≠ '\\') (h : cs = before ++ rest) (hsteps : rest.length < steps)
    (text : List Char) : ReadsString quote cs before text rest (readQuoted? cs quote steps (.behind before) text) := by
  subst h
  induction steps using Nat.strongRecOn generalizing before rest text with
  | ind steps ih =>
    obtain ⟨steps, rfl⟩ := Nat.exists_eq_succ_of_ne_zero (Nat.ne_zero_of_lt hsteps)
    cases rest with
    | nil => exact .unclosed rfl (by simp [readQuoted?, Spot.behind])
    | cons c rest =>
      have hnext : ∀ taken left, rest = taken ++ left → ReadsString quote (before ++ c :: rest) (before ++ c :: taken)
          (text ++ c :: taken) left
          (readQuoted? (before ++ c :: rest) quote steps (.behind (before ++ c :: taken)) (text ++ c :: taken)) := by
        rintro taken left rfl
        have hlt : left.length < steps := by
          simp only [List.length_cons, List.length_append] at hsteps
          omega
        simpa using @ih steps (Nat.lt_succ_self _) (before ++ c :: taken) left hlt (text ++ c :: taken)
      rw [readQuoted?, if_pos (place_behind_lt rfl), char?_eq rfl]
      simp only [Option.bind_eq_bind, Option.bind_some, List.head?_cons, Option.getD_some,
        @advance?_eq _ before c rest rfl]
      split
      · rename_i hc
        subst hc
        have hsplit : splitString? c (c :: rest) = some ([c], rest) := by
          rw [splitString?]
          · exact if_pos rfl
          · exact fun _ _ hc => absurd hc hquote
        exact .closed (List.nil_append _).symm hsplit (by simp)
      rename_i hc
      split
      · rename_i hbackslash
        subst hbackslash
        cases rest with
        | nil => exact .unclosed (by simp [splitString?, hc]) (by simp [Spot.behind])
        | cons d rest =>
          have hcs : before ++ '\\' :: d :: rest = before ++ ['\\'] ++ d :: rest := by simp
          have hread := hnext [d] rest rfl
          rw [if_pos (place_behind_lt hcs), char?_eq hcs, advance?_eq hcs]
          exact .prepend ['\\', d] (by simpa using hread) rfl
      · rename_i hbackslash
        refine .prepend [c] (hnext [] rest rfl) ?_
        rw [List.singleton_append, splitString?]
        · exact if_neg hc
        · exact fun _ _ hc => absurd hc hbackslash

end ReadOn

/-! ### One token -/

section Tokens

variable {before cs : List Char} {c : Char} {rest : List Char}

/-- The token that a lexeme is behind a text, and the place behind it. -/
def scanned (before : List Char) (c : Char) (l : Lexeme) : Token × Spot :=
  (ofLexeme l c (byteSize before) (.after .first before), .behind (before ++ c :: l.body))

theorem tokenOf_behind (before : List Char) (c : Char) (l : Lexeme) :
    tokenOf l.kind (c :: l.body) (.behind before) (.behind (before ++ c :: l.body)) = scanned before c l := by
  simp [tokenOf, scanned, ofLexeme, Spot.behind, byteSize_append]

theorem space?_eq (hc : Text.isBlank c = true) : space? (before ++ c :: rest) (.behind before) =
    some (scanned before c ⟨.space, rest.takeWhile Text.isBlank, rest.dropWhile Text.isBlank⟩) := by
  have hsteps : (c :: rest).length < (before ++ c :: rest).length + 1 := by
    simp only [List.length_append]
    omega
  rw [space?, readOn?_eq rfl hsteps, cutOff_blank, List.nil_append, List.takeWhile_cons_of_pos hc, ← tokenOf_behind]
  rfl

theorem word?_eq (kind : TokenKind) : word? (before ++ c :: rest) kind (.behind before) =
    some (scanned before c (ofSplit kind (splitWord rest))) := by
  have hcs : before ++ c :: rest = before ++ [c] ++ rest := by simp
  have hsteps : rest.length < (before ++ c :: rest).length + 1 := by
    simp only [List.length_append, List.length_cons]
    omega
  rw [word?, char?_eq rfl, advance?_eq rfl]
  show (readOn? _ _ _ _ [c] >>= _) = _
  rw [readOn?_eq hcs hsteps, cutOff_inWord, List.append_assoc, List.singleton_append, ← tokenOf_behind]
  rfl

theorem single?_eq (kind : TokenKind) : single? (before ++ c :: rest) kind (.behind before) =
    some (scanned before c ⟨kind, [], rest⟩) := by
  rw [single?, char?_eq rfl, advance?_eq rfl, ← tokenOf_behind]
  rfl

theorem advanceTo?_eq {last steps : Nat} {taken : List Char} (hcs : cs = before ++ taken ++ rest)
    (hlast : last + 1 = (before ++ taken).length) (hsteps : taken.length < steps) :
    advanceTo? cs last steps (.behind before) = some (.behind (before ++ taken)) := by
  induction steps generalizing before taken with
  | zero => cases hsteps
  | succ steps ih =>
    cases taken with
    | nil =>
      have hbehind : ¬ (Spot.behind before).place ≤ last := by
        simp [Spot.behind] at hlast ⊢
        omega
      rw [advanceTo?, if_neg hbehind, List.append_nil]
    | cons c taken =>
      have hbefore : (Spot.behind before).place ≤ last := by
        simp [Spot.behind] at hlast ⊢
        omega
      have hnext := @ih (before ++ [c]) taken (by simp [hcs]) (by simp [hlast]) (Nat.lt_of_succ_lt_succ hsteps)
      have hhead : cs = before ++ c :: (taken ++ rest) := by simp [hcs]
      rw [advanceTo?, if_pos hbefore, advance?_eq hhead]
      simpa using hnext

theorem paren?_eq (u : Bool) : paren? (before ++ '(' :: rest) u (.behind before) =
    some (scanned before '(' (match splitBrackets? u rest with
      | some parts => ofSplit .brackets parts
      | none => ⟨.leftParen, [], rest⟩)) := by
  have hahead : slice? (before ++ '(' :: rest) (Spot.behind before).place (before ++ '(' :: rest).length =
      some ('(' :: rest) := slice?_right before ('(' :: rest)
  rw [paren?, hahead]
  show (match ('(' :: rest).findIdx? (· == ')') with | none => _ | some offset => _) = _
  by_cases hmem : ')' ∈ rest
  · obtain ⟨inner, behind, rfl, hinner⟩ := List.eq_append_cons_of_mem hmem
    have hopening : ∀ c ∈ '(' :: inner, (c == ')') = false :=
      List.forall_mem_cons.mpr ⟨by decide, fun c hc => beq_false_of_ne (ne_of_mem_of_not_mem hc hinner)⟩
    have hclose : ('(' :: (inner ++ ')' :: behind)).findIdx? (· == ')') = some ('(' :: inner).length :=
      findIdx?_of_append hopening rfl
    have hinside : slice? (before ++ '(' :: (inner ++ ')' :: behind)) (before.length + 1)
        (before.length + ('(' :: inner).length) = some inner := by
      have hcs : before ++ '(' :: (inner ++ ')' :: behind) = before ++ ['('] ++ inner ++ ')' :: behind := by simp
      rw [hcs]
      exact slice?_of_append (by simp) (by simp; omega)
    have hcs : before ++ '(' :: (inner ++ ')' :: behind) = before ++ '(' :: (inner ++ [')']) ++ behind := by simp
    have hwhole : slice? (before ++ '(' :: (inner ++ ')' :: behind)) before.length
        (before.length + ('(' :: inner).length + 1) = some ('(' :: (inner ++ [')'])) := by
      rw [hcs]
      exact slice?_of_append rfl (by simp; omega)
    have hadvance : advanceTo? (before ++ '(' :: (inner ++ ')' :: behind)) (before.length + ('(' :: inner).length)
        ((before ++ '(' :: (inner ++ ')' :: behind)).length + 1) (.behind before) =
        some (.behind (before ++ '(' :: (inner ++ [')']))) := by
      refine advanceTo?_eq hcs ?_ ?_
      · simp only [List.length_append, List.length_cons, List.length_nil]
        omega
      · simp only [List.length_append, List.length_cons, List.length_nil]
        omega
    rw [hclose, splitBrackets?_append_cons hinner]
    show (slice? _ (before.length + 1) (before.length + _) >>= _) = _
    rw [hinside]
    show (if groups u inner = true then _ else _) = _
    split
    · show (slice? _ before.length (before.length + _ + 1) >>= _) = _
      rw [hwhole]
      show (advanceTo? _ (before.length + _) _ _ >>= _) = _
      rw [hadvance, ← tokenOf_behind]
      rfl
    · exact single?_eq .leftParen
  · have hnone : ('(' :: rest).findIdx? (· == ')') = none :=
      List.findIdx?_eq_none_iff.mpr
        (List.forall_mem_cons.mpr ⟨by decide, fun c hc => beq_false_of_ne (ne_of_mem_of_not_mem hc hmem)⟩)
    rw [hnone, splitBrackets?_of_notMem hmem]
    exact single?_eq .leftParen

/-- What a scanner finds behind a text: a token and the place behind it, or the fault that stands there. -/
def found (before : List Char) (c : Char) : Except LexicalFault Lexeme → Scanning (Token × Spot)
  | .error fault => throw ⟨fault, .after .first before⟩
  | .ok l => pure (scanned before c l)

theorem comment_eq : comment (before ++ '/' :: '*' :: rest) (.behind before) =
    found before '/' (match splitComment? rest with
      | some (body, rest) => .ok ⟨.comment, '*' :: body, rest⟩
      | none => .error .unclosedComment) := by
  have hstar : before ++ '/' :: '*' :: rest = before ++ ['/'] ++ '*' :: rest := by simp
  have hcs : before ++ '/' :: '*' :: rest = before ++ ['/'] ++ ['*'] ++ rest := by simp
  have hsteps : rest.length < (before ++ '/' :: '*' :: rest).length + 1 := by
    simp only [List.length_append, List.length_cons]
    omega
  have hread := @readOn?_eq inComment _ _ _ _ hcs hsteps ['/', '*']
  rw [comment, lift_bind (advance?_eq rfl), lift_bind (advance?_eq hstar), lift_bind hread]
  have happend := cutOff_append inComment rest
  rcases splitComment?_eq rest with ⟨hnil, hnone⟩ | ⟨behind, hbehind, hsome⟩
  · rw [hnil, List.append_nil] at happend
    rw [happend, hnone]
    exact if_neg (not_place_behind_lt hcs)
  · rw [hbehind] at happend
    generalize (cutOff inComment rest).1 = body at *
    subst happend
    have hend : before ++ '/' :: '*' :: (body ++ '*' :: '/' :: behind) =
        before ++ ['/'] ++ ['*'] ++ body ++ '*' :: '/' :: behind := by simp
    have hslash : before ++ '/' :: '*' :: (body ++ '*' :: '/' :: behind) =
        before ++ ['/'] ++ ['*'] ++ body ++ ['*'] ++ '/' :: behind := by simp
    have hstop : before ++ ['/'] ++ ['*'] ++ body ++ ['*'] ++ ['/'] = before ++ '/' :: '*' :: (body ++ ['*', '/']) := by
      simp
    dsimp only
    rw [if_pos (place_behind_lt hend), lift_bind (advance?_eq hend), lift_bind (advance?_eq hslash), hstop, hsome,
      found, ← tokenOf_behind]
    rfl

theorem string_eq (hc : isQuote c = true) : string (before ++ c :: rest) (.behind before) =
    found before c (match splitString? c rest with
      | some parts => .ok (ofSplit .string parts)
      | none => .error .unclosedString) := by
  have hfirst : char? (before ++ c :: rest) (Spot.behind before).place = some c := char?_eq rfl
  have hcs : before ++ c :: rest = before ++ [c] ++ rest := by simp
  have hsteps : rest.length < (before ++ c :: rest).length + 1 := by
    simp only [List.length_append, List.length_cons]
    omega
  have hread := readQuoted?_eq (ne_backslash_of_isQuote hc) hcs hsteps [c]
  rw [string, lift_bind hfirst, lift_bind (advance?_eq rfl)]
  rcases hread with ⟨hsplit, hread⟩ | ⟨hrest, hsplit, hread⟩
  · rw [hsplit, lift_bind hread]
    exact if_neg (not_place_behind_lt rfl)
  · rename_i body behind
    subst hrest
    have hend : before ++ c :: (body ++ c :: behind) = before ++ [c] ++ body ++ c :: behind := by simp
    have hstop : before ++ [c] ++ body ++ [c] = before ++ c :: (body ++ [c]) := by simp
    rw [lift_bind hread]
    dsimp only
    rw [if_pos (place_behind_lt hend), lift_bind (advance?_eq hend), hstop, hsplit, found, ← tokenOf_behind]
    rfl

theorem token_eq (before? : Option Token) : token (before ++ c :: rest) before? (.behind before) =
    found before c (Lexeme.read (before?.any isUrl) c rest) := by
  have hfirst : char? (before ++ c :: rest) (Spot.behind before).place = some c := char?_eq rfl
  rw [token, lift_bind hfirst, Lexeme.read]
  by_cases hblank : Text.isBlank c = true
  · rw [if_pos hblank, if_pos hblank, space?_eq hblank]
    rfl
  rw [if_neg hblank, if_neg hblank, lift_bind (char?_succ_eq rfl)]
  simp only [opensComment_head]
  by_cases hcomment : opensComment c rest = true
  · rw [if_pos hcomment, if_pos hcomment]
    obtain ⟨rfl, ds, rfl⟩ := opensComment_iff.mp hcomment
    exact comment_eq
  rw [if_neg hcomment, if_neg hcomment]
  by_cases hquote : isQuote c = true
  · rw [if_pos hquote, if_pos hquote]
    exact string_eq hquote
  rw [if_neg hquote, if_neg hquote]
  by_cases hparen : c = '('
  · rw [if_pos hparen, if_pos hparen]
    subst hparen
    rw [paren?_eq]
    cases splitBrackets? (before?.any isUrl) rest <;> rfl
  rw [if_neg hparen, if_neg hparen]
  by_cases hat : c = '@'
  · rw [if_pos hat, if_pos hat, word?_eq]
    rfl
  rw [if_neg hat, if_neg hat]
  cases punctuation? c with
  | some kind =>
    dsimp only
    rw [single?_eq]
    rfl
  | none =>
    dsimp only
    rw [word?_eq]
    rfl

theorem scan_eq {steps : Nat} {ts : List Token} (h : cs = before ++ rest) (hsteps : rest.length < steps) :
    scan cs steps ts (.behind before) =
      some ((ofCharsFrom ts.head? (byteSize before) (.after .first before) rest).map (ts.reverse ++ ·)) := by
  induction steps generalizing before rest ts with
  | zero => cases hsteps
  | succ steps ih =>
    subst h
    cases rest with
    | nil =>
      rw [scan, if_neg (by simp [Spot.behind]), Token.ofCharsFrom_nil]
      simp [Spot.behind]
      rfl
    | cons c rest =>
      rw [scan, if_pos (place_behind_lt rfl), token_eq]
      cases hl : Lexeme.read (ts.head?.any isUrl) c rest with
      | error fault =>
        rw [Token.ofCharsFrom_error hl]
        rfl
      | ok l =>
        have happend := Lexeme.append_of_read hl
        have hlt : l.rest.length < steps := by
          have := Lexeme.rest_length_le hl
          simp only [List.length_cons] at hsteps
          omega
        have hcs : before ++ c :: rest = before ++ c :: l.body ++ l.rest := by simp [happend]
        have hnext := @ih (before ++ c :: l.body) l.rest
          (ofLexeme l c (byteSize before) (.after .first before) :: ts) hcs hlt
        rw [Token.ofCharsFrom_ok hl, ← byteSize_append, ← Position.after_append]
        show scan _ steps (_ :: ts) (.behind _) = _
        rw [hnext, List.head?_cons, List.reverse_cons]
        cases ofCharsFrom (some _) (byteSize (before ++ c :: l.body)) (.after .first (before ++ c :: l.body))
          l.rest with
        | error e => rfl
        | ok us => simp [Except.map]

end Tokens

/-- The scanner comes to an end, finds all that it asks for, and reads the tokens of the text. -/
theorem tokens_eq (s : String) : tokens s = some (Token.ofText s) := by
  have h : tokens s = some ((Token.ofText s).map ([] ++ ·)) := @scan_eq [] _ s.toList _ [] rfl (Nat.lt_succ_self _)
  rw [h]
  cases Token.ofText s <;> rfl

end Mixsheet.Scanner
