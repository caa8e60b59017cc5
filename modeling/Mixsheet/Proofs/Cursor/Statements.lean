import Mixsheet.Proofs.Argument.Slot
import Mixsheet.Proofs.Cursor.Reader
import Mixsheet.Proofs.Node.Faults
import Mixsheet.Proofs.Node.RoundTrip

/-! # A reader with a cursor reads what stands in the text

The reader that moves a cursor over the places of the tokens finds the statements that the segments of the tokens come
to, or the same fault, and a step for each token is enough. What its calls on itself return to is the stack of open
blocks that the segments are read with. -/

namespace Mixsheet

namespace Cursor

open Token Node

/-! ### Where a statement ends -/

/-- What was seen behind some tokens that stand from a place on. -/
def seeAll {σ : Type} (after : σ → Nat → Token → σ) (s : σ) (i : Nat) : List Token → σ
  | [] => s
  | t :: rest => seeAll after (after s i t) (i + 1) rest

/-- A reader that keeps an account of the brackets moves on to where the tokens ahead are cut. -/
theorem seek_eq {σ τ : Type} (a : Account τ) (account : σ → τ) {Valid : σ → Prop} {stops : σ → Token → Bool}
    {after : σ → Nat → Token → σ} (hstops : ∀ s t, stops s t = (a.closed (account s) && Segment.isStop t))
    (hafter : ∀ s i t, Valid s → account (after s i t) = a.after (account s) t ∧ Valid (after s i t))
    (ts : List Token) {s : σ} (hs : Valid s) (i : Nat) :
    seek ts stops after s i =
      (seeAll after s i (a.split (account s) (ahead ts i)).1, i + (a.split (account s) (ahead ts i)).1.length) := by
  induction hus : ahead ts i generalizing s i with
  | nil =>
    rw [seek, dif_pos (atEnd_of_ahead_nil hus).1]
    rfl
  | cons t rest ih =>
    obtain ⟨hget, hnext⟩ := getElem?_of_ahead hus
    obtain ⟨haccount, hvalid⟩ := hafter s i t hs
    rw [seek, dif_neg (by simp [atEnd_of_ahead hus]), peek_of_getElem? hget, Account.split, hstops]
    by_cases h : a.closed (account s) = true ∧ Segment.isStop t = true
    · rw [if_pos h, if_pos (by simp [h.1, h.2])]
      rfl
    · rw [if_neg h, if_neg (by simpa using h)]
      show seek ts stops after (after s i t) (advance ts i) = _
      rw [advance_of_lt (lt_of_getElem? hget), ih hvalid _ hnext, haccount]
      simp only [seeAll, List.length_cons, Prod.mk.injEq, true_and]
      omega

namespace Seen

variable {s : Seen} {i : Nat} {t : Token}

theorem closers_after (h : Segment.Closers s.closers) (i : Nat) :
    (s.after i t).closers = Segment.missing s.closers t := by
  cases hclosers : s.closers with
  | nil => cases hkind : t.kind <;> simp [after, Segment.missing, opened, hkind, hclosers]
  | cons closer outer =>
    have hne : TokenKind.brackets ≠ closer := by
      rintro rfl
      rcases h .brackets (by simp [hclosers]) with hkind | hkind <;> cases hkind
    cases hkind : t.kind with
    | leftParen | leftBracket | brackets => simp [after, Segment.missing, opened, hkind, hclosers, hne]
    | _ =>
      simp only [after, Segment.missing, hkind, hclosers]
      split
      · rfl
      · exact hclosers

theorem colon_after (i : Nat) : (s.after i t).colon = (s.colon || decide (s.closers = []) && t.kind == .colon) := by
  cases hclosers : s.closers with
  | nil => cases hkind : t.kind <;> simp [after, opened, hkind, hclosers]
  | cons closer outer => cases hkind : t.kind <;> simp [after, opened, hkind, hclosers, apply_ite Seen.colon]

theorem brackets_after (i : Nat) : (s.after i t).brackets =
    (s.brackets || (t.kind == .leftParen || t.kind == .leftBracket || t.kind == .brackets)) := by
  cases hclosers : s.closers with
  | nil => cases hkind : t.kind <;> simp [after, opened, hkind, hclosers]
  | cons closer outer => cases hkind : t.kind <;> simp [after, opened, hkind, hclosers, apply_ite Seen.brackets]

/-- Where brackets are open, the place of the first one is that of the token `opened?`. -/
def Marks (ts : List Token) (s : Seen) (opened? : Option Token) : Prop :=
  if s.closers = [] then s.first? = none else ∃ i t, s.first? = some i ∧ ts[i]? = some t ∧ opened? = some t

theorem Marks.after {ts : List Token} {opened? : Option Token} (h : s.Marks ts opened?) {i : Nat}
    (hget : ts[i]? = some t) : (s.after i t).Marks ts (if s.closers = [] then some t else opened?) := by
  unfold Marks at *
  cases hclosers : s.closers with
  | nil =>
    rw [if_pos hclosers] at h
    cases hkind : t.kind <;> simp [Seen.after, opened, hkind, hclosers, h, hget]
  | cons closer outer =>
    rw [if_neg (by simp [hclosers])] at h
    obtain ⟨j, u, hfirst, hu, rfl⟩ := h
    cases hkind : t.kind with
    | leftParen | leftBracket | brackets => simp [Seen.after, opened, hkind, hclosers, hfirst, hu]
    | _ =>
      by_cases hcloses : t.kind = closer <;> rw [hkind] at hcloses
      · subst hcloses
        by_cases houter : outer = [] <;> simp [Seen.after, hkind, hclosers, houter, hfirst, hu]
      · simp [Seen.after, hkind, hclosers, hcloses, hfirst, hu]

section SeeAll

variable {ts us vs : List Token}

theorem colon_seeAll (h : Segment.Closers s.closers) (i : Nat) (us : List Token) :
    (seeAll Seen.after s i us).colon = (s.colon || (Segment.outside s.closers us).any (·.kind == .colon)) := by
  induction us generalizing s i with
  | nil => simp [seeAll, Segment.outside]
  | cons t us ih =>
    have hclosers := closers_after (t := t) h i
    rw [seeAll, ih (hclosers ▸ h.missing t), hclosers, colon_after, Segment.outside]
    split
    · rename_i hnil
      simp [hnil, Bool.or_assoc]
    · rename_i hne
      simp [hne]

theorem brackets_seeAll (i : Nat) (us : List Token) :
    (seeAll Seen.after s i us).brackets = (s.brackets || hasBrackets us) := by
  induction us generalizing s i with
  | nil => simp [seeAll, hasBrackets]
  | cons t us ih =>
    rw [seeAll, ih, brackets_after, hasBrackets, hasBrackets, List.any_cons, Bool.or_assoc]

theorem first_seeAll {opened? : Option Token} (h : Segment.Closers s.closers) (hs : s.Marks ts opened?) {i : Nat}
    (hus : ahead ts i = us ++ vs) :
    (seeAll Seen.after s i us).first? = none ∧ Segment.unclosed? s.closers opened? us = none ∨
      ∃ j b, (seeAll Seen.after s i us).first? = some j ∧ ts[j]? = some b ∧
        Segment.unclosed? s.closers opened? us = some b := by
  induction us generalizing s opened? i with
  | nil =>
    unfold Marks at hs
    rw [Segment.unclosed?]
    split at hs
    · rename_i hnil
      exact .inl ⟨hs, if_pos hnil⟩
    · rename_i hne
      obtain ⟨j, b, hfirst, hb, rfl⟩ := hs
      exact .inr ⟨j, b, hfirst, hb, if_neg hne⟩
  | cons t us ih =>
    obtain ⟨hget, hnext⟩ := getElem?_of_ahead hus
    have hclosers := closers_after (t := t) h i
    have := ih (hclosers ▸ h.missing t) (hs.after hget) hnext
    rwa [hclosers] at this

end SeeAll

theorem seek_nothing (ts : List Token) (i : Nat) :
    seek ts stops after nothing i = (seeAll after nothing i (Segment.splitHead [] (ahead ts i)).1,
      i + (Segment.splitHead [] (ahead ts i)).1.length) := by
  have hafter : ∀ s i t, Segment.Closers s.closers →
      (after s i t).closers = Segment.missing s.closers t ∧ Segment.Closers (after s i t).closers := fun s i t h => by
    rw [closers_after h]
    exact ⟨rfl, h.missing t⟩
  have hnothing : Segment.Closers nothing.closers := nofun
  rw [Segment.splitHead_eq]
  exact seek_eq Segment.headAccount Seen.closers (fun _ _ => rfl) hafter ts hnothing i

/-- What is seen of a run of tokens that starts a statement. -/
structure Of (ts run : List Token) (s : Seen) : Prop where
  colon : s.colon = hasColon run
  brackets : s.brackets = hasBrackets run
  first : s.first? = none ∧ Segment.unclosed? [] none run = none ∨
    ∃ j b, s.first? = some j ∧ ts[j]? = some b ∧ Segment.unclosed? [] none run = some b

theorem of_seeAll {ts run vs : List Token} (h : ahead ts i = run ++ vs) :
    (seeAll after nothing i run).Of ts run := by
  have hnothing : Segment.Closers nothing.closers := nofun
  exact ⟨colon_seeAll hnothing i run, brackets_seeAll i run, first_seeAll hnothing rfl h⟩

end Seen

theorem paramsEnd_eq (ts : List Token) (i : Nat) :
    paramsEnd ts i = i + (Segment.splitParams 0 (ahead ts i)).1.length := by
  have hstops : ∀ depth t,
      (depth == 0 && Segment.isStop t) = (Segment.paramsAccount.closed depth && Segment.isStop t) := fun _ _ => rfl
  have hafter : ∀ depth (_ : Nat) t, True → Segment.depthAfter depth t = Segment.paramsAccount.after depth t ∧ True :=
    fun _ _ _ _ => ⟨rfl, trivial⟩
  rw [Segment.splitParams_eq]
  exact congrArg Prod.snd (seek_eq Segment.paramsAccount id hstops hafter ts trivial i)

/-! ### Statements without a block -/

section Runs

variable {ts run vs : List Token} {t : Token} {i : Nat}

theorem dropTriviaEnd_concat (ts : List Token) (t : Token) :
    dropTriviaEnd (ts ++ [t]) = if t.isTrivia = true then dropTriviaEnd ts else ts ++ [t] :=
  List.rdropWhile_concat isTrivia ts t

theorem lastPosition_cons (t : Token) (ts : List Token) :
    lastPosition t.position (t :: ts) = lastPosition t.position ts := by
  rw [lastPosition, lastPosition, List.getLast?_cons]
  cases ts.getLast? <;> rfl

theorem exists_last (h : ahead ts i = t :: run ++ vs) :
    ∃ u, ts[i + run.length]? = some u ∧ lastPosition t.position (t :: run) = u.position := by
  rw [lastPosition_cons]
  rcases List.eq_nil_or_concat' run with rfl | ⟨init, last, rfl⟩
  · exact ⟨t, (getElem?_of_ahead h).1, rfl⟩
  · have hlast : ts[i + (t :: init).length]? = some last :=
      @getElem?_of_ahead_append ts (t :: init) vs last i (by simpa using h)
    refine ⟨last, by simpa using hlast, ?_⟩
    rw [lastPosition, List.getLast?_concat]
    rfl

/-- A run of tokens that stands at a place starts there and ends at its last token. -/
theorem source?_run (h : ahead ts i = t :: run ++ vs) :
    source? ts i (max (i + (t :: run).length - 1) i) = some ⟨t.position, lastPosition t.position (t :: run)⟩ := by
  obtain ⟨u, hu, hlast⟩ := exists_last h
  have hmax : max (i + (t :: run).length - 1) i = i + run.length := by
    rw [List.length_cons]
    omega
  rw [hmax, source?_of_getElem? (getElem?_of_ahead h).1 hu, hlast]

theorem declaration_eq (h : ahead ts i = t :: run ++ vs) (hcolon : hasColon (t :: run) = true) :
    declaration ts i (i + (t :: run).length) = some (declarationOf t.position (t :: run)) := by
  have hget := (getElem?_of_ahead h).1
  have hslice := slice?_of_ahead (Nat.le_of_lt (lt_of_getElem? hget)) h
  have hsource := source?_run h
  generalize t :: run = us at *
  obtain ⟨c, rest, hrest, hkind⟩ := exists_colon hcolon
  have hus : us.takeWhile (·.kind != .colon) ++ c :: rest = us := by
    rw [← hrest]
    exact List.takeWhile_append_dropWhile
  have hfront : ∀ u ∈ us.takeWhile (·.kind != .colon), (u.kind == .colon) = false := fun u hu => by
    simpa using List.mem_takeWhile_imp hu
  have hbehind : (us.dropWhile (·.kind != .colon)).drop 1 = rest := by rw [hrest]; rfl
  rw [declaration, declarationOf, lift_bind hslice, hbehind]
  generalize us.takeWhile (·.kind != .colon) = front at *
  have hplace : us.findIdx? (·.kind == .colon) = some front.length := by
    rw [← hus]
    exact findIdx?_of_append hfront (by simp [hkind])
  have hprop : slice? us 0 front.length = some front := by
    rw [← hus]
    exact slice?_left front (c :: rest)
  have hvalue : slice? us (front.length + 1) us.length = some rest := by
    have := slice?_right (front ++ [c]) rest
    rwa [List.append_assoc, List.singleton_append, hus, List.length_append] at this
  rw [hplace]
  dsimp only
  rw [lift_bind hprop]
  split
  · rw [fault_of_getElem? hget]
    rfl
  · rw [lift_bind hvalue, lift_bind hsource]
    rfl

theorem name?_eq (h : ahead ts i = run ++ vs) (before : String) :
    name? ts (i + run.length) i before =
      some (before ++ join (run.takeWhile (·.kind != .word)), i + (run.takeWhile (·.kind != .word)).length) := by
  induction run generalizing i before with
  | nil => simp [name?]
  | cons t run ih =>
    obtain ⟨hget, hnext⟩ := getElem?_of_ahead h
    rw [name?, if_pos (by simp), hget]
    show (if t.kind = .word then some (before, i) else _) = _
    by_cases hkind : t.kind = .word
    · rw [if_pos hkind, List.takeWhile_cons_of_neg (by simp [hkind])]
      simp
    · have hlength : i + (t :: run).length = i + 1 + run.length := by
        rw [List.length_cons]
        omega
      rw [if_neg hkind, List.takeWhile_cons_of_pos (by simp [hkind]), hlength, ih hnext, join_cons,
        String.append_assoc, List.length_cons]
      simp only [Option.some.injEq, Prod.mk.injEq, true_and]
      omega

theorem trimEnd?_eq (h : ahead ts i = run ++ vs) :
    trimEnd? ts i (i + run.length) = some (i + (dropTriviaEnd run).length) := by
  induction run using List.reverseRecOn generalizing vs with
  | nil => cases i <;> simp [trimEnd?, dropTriviaEnd]
  | append_singleton run t ih =>
    rw [List.append_assoc] at h
    have hget : ts[i + run.length]? = some t := getElem?_of_ahead_append h
    have hlength : i + (run ++ [t]).length = i + run.length + 1 := by
      rw [List.length_append]
      rfl
    rw [hlength, trimEnd?, if_pos (by omega), hget, dropTriviaEnd_concat]
    show (if t.isTrivia = true then _ else _) = _
    split
    · exact ih h
    · rw [hlength]

theorem call_eq {stop : Token} (spaces : String) (h : ahead ts i = t :: run ++ stop :: vs) :
    call ts spaces i (i + (t :: run).length) = some (callOf spaces t.position (t :: run) stop.position) := by
  have hget := (getElem?_of_ahead h).1
  have hstop := getElem?_of_ahead_append h
  have hfault := fault_of_getElem? (α := Node) hget .unknownWord
  have hname := name?_eq h spaces
  generalize t :: run = us at *
  have hus : us.takeWhile (·.kind != .word) ++ us.dropWhile (·.kind != .word) = us := List.takeWhile_append_dropWhile
  rw [call, hname, callOf]
  show (if i + (us.takeWhile (·.kind != .word)).length = i + us.length then _ else _) = _
  cases hd : us.dropWhile (·.kind != .word) with
  | nil =>
    rw [hd, List.append_nil] at hus
    rw [hus, if_pos rfl, hfault]
    rfl
  | cons name rest =>
    have hlength := congrArg List.length hus
    rw [hd, List.length_append, List.length_cons] at hlength
    rw [hd] at hus
    generalize us.takeWhile (·.kind != .word) = front at *
    rw [← hus, List.append_assoc] at h
    have hn : ts[i + front.length]? = some name := getElem?_of_ahead_append h
    have hrest : slice? ts (i + front.length + 1) (i + us.length) = some rest := by
      have hlt := lt_of_getElem? hn
      have := slice?_of_ahead (Nat.succ_le_of_lt hlt) (getElem?_of_ahead (ahead_append h)).2
      rwa [Nat.add_assoc _ 1, Nat.add_comm 1, Nat.add_assoc, hlength] at this
    rw [if_neg (by omega), lift_bind hn, lift_bind hrest, lift_bind (arguments?_eq rest),
      lift_bind (source?_of_getElem? hn hstop)]
    rfl

end Runs

/-! ### Faults and results -/

/-- A reading comes to the fault that a text has, or to a result with a property. -/
def Tracks {α β : Type} (x : Except ParseError β) (r : Reading α) (post : α → Prop) : Prop :=
  (∃ e, r = some (.error e) ∧ x = .error e) ∨ ∃ a, r = some (.ok a) ∧ post a

section Tracks

variable {α β γ : Type} {x : Except ParseError β} {r : Reading α} {post : α → Prop} {post' : γ → Prop}

theorem tracks_pure {a : α} (h : post a) : Tracks x (pure a) post := .inr ⟨a, rfl, h⟩

theorem tracks_throw {e : ParseError} (h : x = .error e) : Tracks x (throw e : Reading α) post := .inl ⟨e, rfl, h⟩

theorem tracks_except {y : Except ParseError α} {next : α → Except ParseError β} (h : x = y.bind next) :
    Tracks x (some y : Reading α) fun a => x = next a := by
  cases y with
  | error e => exact .inl ⟨e, rfl, h⟩
  | ok a => exact .inr ⟨a, rfl, h⟩

theorem Tracks.bind (h : Tracks x r post) {f : α → Reading γ} (hf : ∀ a, post a → Tracks x (f a) post') :
    Tracks x (r >>= f) post' := by
  rcases h with ⟨e, rfl, he⟩ | ⟨a, rfl, ha⟩
  · exact .inl ⟨e, rfl, he⟩
  · exact hf a ha

end Tracks

/-! ### Segments ahead -/

/-- What the segments of some tokens come to. -/
def outcome (p : Progress) (ts : List Token) : Except ParseError (List Node) :=
  (p.run (Segment.ofTokens ts)).bind Progress.finish

section Outcome

variable {p : Progress} {t : Token} {us vs : List Token}

theorem outcome_nil : outcome p [] = p.finish := by
  rw [outcome, Segment.ofTokens_nil]
  rfl

theorem outcome_step {s : Segment} (h : Segment.ofTokens us = s :: Segment.ofTokens vs) :
    outcome p us = (p.step s).bind fun q => outcome q vs := by
  rw [outcome, h, Progress.run]
  cases p.step s <;> rfl

/-- A statement is cut where its brackets are closed, also if it has no tokens before its block. -/
theorem ofTokens_statement (h : Segment.startsHead t.kind = true ∨ t.kind = .leftBrace) :
    Segment.ofTokens (t :: us) =
      .statement t.position (Segment.splitHead [] (t :: us)).1
        (Segment.splitEnding (Segment.splitHead [] (t :: us)).2).1 ::
        Segment.ofTokens (Segment.splitEnding (Segment.splitHead [] (t :: us)).2).2 := by
  rcases h with h | h
  · exact Segment.ofTokens_head h
  · have hsplit : Segment.splitHead [] (t :: us) = ([], t :: us) := if_pos ⟨rfl, by simp [Segment.isStop, h]⟩
    rw [hsplit, Segment.ofTokens_leftBrace h]
    simp [Segment.splitEnding, h]

end Outcome

/-! ### Blocks -/

section Blocks

variable {ts : List Token} {x : Except ParseError (List Node)} {before : List Node} {blocks : List OpenBlock}

/-- A reader of statements stops at the end or, in a block, at a `}`, behind no more than `size` tokens, and what is
left leads where the text leads. -/
structure Reached (ts : List Token) (x : Except ParseError (List Node)) (blocks : List OpenBlock) (nested : Bool)
    (size : Nat) (r : List Node × Cursor) : Prop where
  stops : ∀ t us, ahead ts r.2.place = t :: us → nested = true ∧ t.kind = .rightBrace
  shorter : (ahead ts r.2.place).length ≤ size
  outcome_eq : x = outcome ⟨r.2.spaces, r.1.reverse, blocks⟩ (ahead ts r.2.place)

/-- A reader of a statement moves on, and what is left leads where the text leads. -/
structure Moved (ts : List Token) (x : Except ParseError (List Node)) (before : List Node) (blocks : List OpenBlock)
    (size : Nat) (r : Node × Cursor) : Prop where
  shorter : (ahead ts r.2.place).length < size
  outcome_eq : x = outcome ⟨r.2.spaces, r.1 :: before, blocks⟩ (ahead ts r.2.place)

/-- The reader reads what is in a block of less than `size` tokens. -/
def ReadsBlocks (ts : List Token) (size : Nat) (block : Cursor → Reading (List Node × Cursor)) : Prop :=
  ∀ c blocks x, (ahead ts c.place).length < size → x = outcome ⟨c.spaces, [], blocks⟩ (ahead ts c.place) →
    Tracks x (block c) (Reached ts x blocks true (ahead ts c.place).length)

/-- A reader of a statement without a block moves on behind it. -/
theorem tracks_completed {size next : Nat} {p : Progress} {vs : List Token} {y : Except ParseError Node}
    (hnext : ahead ts next = vs) (hsize : vs.length < size) (hx : x = (y.map p.add).bind fun q => outcome q vs) :
    Tracks x ((some y : Reading Node) >>= fun node => pure (node, ⟨next, ""⟩)) (Moved ts x p.nodes p.blocks size) := by
  have hadd : (y.map p.add).bind (fun q => outcome q vs) = y.bind fun node => outcome (p.add node) vs := by
    cases y <;> rfl
  rw [hadd] at hx
  refine (tracks_except hx).bind fun node hnode => tracks_pure ⟨?_, ?_⟩
  · rwa [hnext]
  · rw [hnext]
    exact hnode

theorem tracks_semicolon {size : Nat} {p : Progress} {t stop : Token} {i : Nat} {run vs : List Token} {seen : Seen}
    (h : ahead ts i = t :: run ++ stop :: vs) (hseen : seen.Of ts (t :: run)) (hsize : vs.length < size)
    (hx : x = (p.statement t.position (t :: run) (.semicolon stop.position)).bind fun q => outcome q vs) :
    Tracks x (endedStatement ts seen p.spaces i (i + (t :: run).length)) (Moved ts x p.nodes p.blocks size) := by
  have hstop := getElem?_of_ahead_append h
  have hvs : ahead ts (advance ts (i + (t :: run).length)) = vs := by
    rw [advance_of_lt (lt_of_getElem? hstop)]
    exact (getElem?_of_ahead (ahead_append h)).2
  rw [Progress.statement] at hx
  rw [endedStatement, hseen.colon, hseen.brackets]
  split
  · rename_i hcolon
    rw [if_pos hcolon] at hx
    rw [declaration_eq h hcolon]
    exact tracks_completed hvs hsize hx
  · rename_i hcolon
    rw [if_neg hcolon] at hx
    split
    · rename_i hbrackets
      rw [if_pos hbrackets] at hx
      rw [call_eq p.spaces h]
      exact tracks_completed hvs hsize hx
    · rename_i hbrackets
      rw [if_neg hbrackets] at hx
      rw [fault_of_getElem? (getElem?_of_ahead h).1]
      exact tracks_throw hx

theorem tracks_last {size : Nat} {p : Progress} {t : Token} {i : Nat} {run vs : List Token} {seen : Seen}
    (h : ahead ts i = t :: run ++ vs) (ht : Segment.startsHead t.kind = true) (hseen : seen.Of ts (t :: run))
    (hsize : vs.length < size)
    (hx : x = (p.statement t.position (t :: run) .last).bind fun q => outcome q vs) :
    Tracks x (lastStatement ts seen i (i + (t :: run).length)) (Moved ts x p.nodes p.blocks size) := by
  have hvs : ahead ts (i + (t :: run).length) = vs := ahead_append h
  rw [Progress.statement] at hx
  rw [lastStatement, hseen.colon, hseen.brackets]
  rcases hseen.first with ⟨hfirst, hclosed⟩ | ⟨j, b, hfirst, hb, hopen⟩ <;> rw [hfirst]
  · -- what is left of the statement starts with its first token
    have hstarts : Segment.StartsHead (t :: run) := ⟨t, rfl, ht⟩
    obtain ⟨trivia, hrun, -, hsig, hstart⟩ := exists_dropTriviaEnd hstarts
    have htrim := trimEnd?_eq h
    rw [hclosed] at hx
    rw [← hasColon_congr hsig] at hx ⊢
    generalize dropTriviaEnd (t :: run) = us at *
    cases us with
    | nil =>
      obtain ⟨u, hu, -⟩ := hstart
      cases hu
    | cons u us =>
      obtain ⟨rfl, rfl⟩ := List.cons.inj hrun
      have hus : ahead ts i = t :: us ++ (trivia ++ vs) := by simpa using h
      dsimp only at hx ⊢
      rw [lift_bind htrim]
      split
      · rename_i hcolon
        rw [if_pos hcolon] at hx
        rw [declaration_eq hus hcolon]
        exact tracks_completed hvs hsize hx
      · rename_i hcolon
        rw [if_neg hcolon] at hx
        split
        · rename_i hbrackets
          obtain ⟨last, hlast, hposition⟩ := exists_last hus
          have hplace : minus? (i + (t :: us).length) 1 = some (i + us.length) :=
            minus?_eq_some_iff.mpr (by rw [List.length_cons]; omega)
          rw [if_pos hbrackets, hposition] at hx
          rw [lift_bind hplace, fault_of_getElem? hlast]
          exact tracks_throw hx
        · rename_i hbrackets
          rw [if_neg hbrackets] at hx
          rw [fault_of_getElem? (getElem?_of_ahead h).1]
          exact tracks_throw hx
  · rw [hopen] at hx
    dsimp only
    rw [fault_of_getElem? hb]
    exact tracks_throw hx

variable {size : Nat} {block : Cursor → Reading (List Node × Cursor)} (hblock : ReadsBlocks ts size block)

include hblock

theorem tracks_body {brace : Nat} {t : Token} {us : List Token} (hbrace : ahead ts brace = t :: us)
    (hsize : us.length < size) (header : Header) (start : Position)
    (hx : x = outcome ⟨"", [], ⟨header, start, t.position, before⟩ :: blocks⟩ us) :
    Tracks x (body ts block brace) fun r => ∃ close, ts[r.2.1]? = some close ∧
      Moved ts x before blocks size (header.node r.1 ⟨start, close.position⟩, r.2.2) := by
  obtain ⟨hget, hnext⟩ := getElem?_of_ahead hbrace
  have hlt := lt_of_getElem? hget
  rw [body, advance_of_lt hlt]
  refine Tracks.bind (hblock ⟨brace + 1, ""⟩ _ x (by rwa [hnext]) (by rwa [hnext])) ?_
  rintro ⟨nodes, c⟩ ⟨hstops, hshorter, houtcome⟩
  dsimp only at *
  cases hahead : ahead ts c.place with
  | nil =>
    rw [if_neg (by simp [(atEnd_of_ahead_nil hahead).2]), fault_of_getElem? hget]
    rw [hahead, outcome_nil] at houtcome
    exact tracks_throw houtcome
  | cons close vs =>
    obtain ⟨hclose, hvs⟩ := getElem?_of_ahead hahead
    have hkind := (hstops close vs hahead).2
    rw [if_pos (by rw [peek_of_getElem? hclose, hkind])]
    refine tracks_pure ⟨close, hclose, ?_, ?_⟩
    · dsimp only
      rw [hahead, hnext, List.length_cons] at hshorter
      rw [advance_of_lt (lt_of_getElem? hclose), hvs]
      omega
    · dsimp only
      rw [hahead, outcome_step (Segment.ofTokens_rightBrace hkind)] at houtcome
      rw [advance_of_lt (lt_of_getElem? hclose), hvs, houtcome]
      simp [Progress.step, Progress.close, Except.bind]

theorem tracks_rule {p : Progress} {t brace : Token} {i : Nat} {run vs : List Token}
    (hi : ts[i]? = some t) (h : ahead ts i = run ++ brace :: vs) (hsize : vs.length < size)
    (hx : x = (p.statement t.position run (.block brace.position)).bind fun q => outcome q vs) :
    Tracks x (rule ts block i (i + run.length)) (Moved ts x p.nodes p.blocks size) := by
  have hslice := slice?_of_ahead (Nat.le_of_lt (lt_of_getElem? hi)) h
  rw [rule, lift_bind hslice]
  refine (tracks_body hblock (ahead_append h) hsize (.rule (trimmedText run)) t.position hx).bind ?_
  rintro ⟨nodes, stop, c⟩ ⟨close, hclose, hmoved⟩
  dsimp only at *
  rw [lift_bind (source?_of_getElem? hi hclose)]
  exact tracks_pure hmoved

theorem tracks_statement {c : Cursor} {t : Token} {us : List Token} (hus : ahead ts c.place = t :: us)
    (ht : Segment.startsHead t.kind = true ∨ t.kind = .leftBrace) (hsize : us.length < size)
    (hx : x = outcome ⟨c.spaces, before, blocks⟩ (t :: us)) :
    Tracks x (statement ts block c) (Moved ts x before blocks size) := by
  have hget := (getElem?_of_ahead hus).1
  have hsplit := Segment.splitHead_append [] (t :: us)
  have hhead : (Segment.splitHead [] (t :: us)).1 = [] ∧ (Segment.splitHead [] (t :: us)).2 = t :: us ∧
      t.kind = .leftBrace ∨
      Segment.startsHead t.kind = true ∧ ∃ run, (Segment.splitHead [] (t :: us)).1 = t :: run := by
    rcases ht with ht | ht
    · exact .inr ⟨ht, _, congrArg Prod.fst (Segment.splitHead_cons ht)⟩
    · have hcut : Segment.splitHead [] (t :: us) = ([], t :: us) := if_pos ⟨rfl, by simp [Segment.isStop, ht]⟩
      exact .inl ⟨congrArg Prod.fst hcut, congrArg Prod.snd hcut, ht⟩
  have hstops : ∀ u vs, (Segment.splitHead [] (t :: us)).2 = u :: vs → Segment.isStop u = true := by
    intro u vs htail
    rw [Segment.splitHead_eq] at htail
    exact (Account.closed_of_split htail).2
  rw [outcome_step (ofTokens_statement ht)] at hx
  change x = (Progress.statement _ _ _ _).bind _ at hx
  rw [statement, Seen.seek_nothing, hus]
  dsimp only
  generalize (Segment.splitHead [] (t :: us)).1 = head at *
  generalize (Segment.splitHead [] (t :: us)).2 = tail at *
  have hlength := congrArg List.length hsplit
  rw [List.length_append, List.length_cons] at hlength
  rw [← hus] at hsplit
  have hseen := Seen.of_seeAll hsplit.symm
  have hbehind := ahead_append hsplit.symm
  cases tail with
  | nil =>
    rw [(atEnd_of_ahead_nil hbehind).2]
    rcases hhead with ⟨-, hnil, -⟩ | ⟨hstart, run, rfl⟩
    · cases hnil
    · exact tracks_last hsplit.symm hstart hseen (by simp at hlength ⊢; omega) hx
  | cons u vs =>
    rw [List.length_cons] at hlength
    rw [peek_of_getElem? (getElem?_of_ahead hbehind).1]
    have hkind : u.kind = .semicolon ∨ u.kind = .leftBrace ∨ u.kind = .rightBrace := by
      simpa [Segment.isStop, or_assoc] using hstops u vs rfl
    rw [Segment.splitEnding] at hx
    rcases hkind with hkind | hkind | hkind <;> rw [hkind] at hx ⊢
    · rcases hhead with ⟨-, heq, hbrace⟩ | ⟨hstart, run, rfl⟩
      · obtain ⟨rfl, -⟩ := List.cons.inj heq
        rw [hkind] at hbrace
        cases hbrace
      · exact tracks_semicolon hsplit.symm hseen (by omega) hx
    · exact tracks_rule hblock hget hsplit.symm (by omega) hx
    · rcases hhead with ⟨-, heq, hbrace⟩ | ⟨hstart, run, rfl⟩
      · obtain ⟨rfl, -⟩ := List.cons.inj heq
        rw [hkind] at hbrace
        cases hbrace
      · have hlt : (u :: vs).length < size := by
          simp only [List.length_cons] at hlength ⊢
          omega
        exact tracks_last hsplit.symm hstart hseen hlt hx

theorem tracks_atRule {c : Cursor} {t : Token} {us : List Token} (hus : ahead ts c.place = t :: us)
    (ht : t.kind = .atWord) (hsize : us.length < size)
    (hx : x = outcome ⟨c.spaces, before, blocks⟩ (t :: us)) :
    Tracks x (atRule ts block c) (Moved ts x before blocks size) := by
  obtain ⟨hget, hnext⟩ := getElem?_of_ahead hus
  have hlt := lt_of_getElem? hget
  have hsplit := Segment.splitParams_append 0 us
  have hstops : ∀ u vs, (Segment.splitParams 0 us).2 = u :: vs → Segment.isStop u = true := by
    intro u vs htail
    rw [Segment.splitParams_eq] at htail
    exact (Account.closed_of_split htail).2
  rw [outcome_step (Segment.ofTokens_atWord ht)] at hx
  change x = outcome (Progress.atRule _ _ _ _) _ at hx
  rw [atRule, advance_of_lt hlt, paramsEnd_eq, hnext, peek_of_getElem? hget]
  generalize (Segment.splitParams 0 us).1 = params at *
  generalize (Segment.splitParams 0 us).2 = tail at *
  have hlength := congrArg List.length hsplit
  rw [List.length_append] at hlength
  rw [← hsplit] at hus hnext
  have hslice := slice?_of_ahead (Nat.succ_le_of_lt hlt) hnext
  have hbehind := ahead_append hnext
  rw [← List.cons_append] at hus
  have hsource := source?_run hus
  rw [List.length_cons, ← Nat.add_assoc, Nat.add_right_comm, lastPosition_cons] at hsource
  dsimp only
  rw [lift_bind hslice]
  -- a statement, read up to the place `next`
  have hstatement : ∀ next, (ahead ts next).length < size →
      x = outcome ((⟨c.spaces, before, blocks⟩ : Progress).atRule t params .last) (ahead ts next) →
      Tracks x (do
        return (.atStatement (atName t) (trimmedText params)
          (← source? ts c.place (max (c.place + 1 + params.length - 1) c.place)), ⟨next, ""⟩) : Reading (Node × Cursor))
        (Moved ts x before blocks size) := by
    intro next hshorter hnext
    rw [lift_bind hsource]
    exact tracks_pure ⟨hshorter, hnext⟩
  cases tail with
  | nil =>
    rw [(atEnd_of_ahead_nil hbehind).2, if_neg (by simp), if_neg (by simp)]
    refine hstatement _ ?_ ?_ <;> rw [hbehind]
    · simp at hlength ⊢
      omega
    · exact hx
  | cons u vs =>
    rw [List.length_cons] at hlength
    obtain ⟨hu, hvs⟩ := getElem?_of_ahead hbehind
    have hkind : u.kind = .semicolon ∨ u.kind = .leftBrace ∨ u.kind = .rightBrace := by
      simpa [Segment.isStop, or_assoc] using hstops u vs rfl
    rw [peek_of_getElem? hu]
    rw [Segment.splitEnding] at hx
    rcases hkind with hkind | hkind | hkind <;> rw [hkind] at hx ⊢
    · rw [if_neg (by simp), if_pos rfl, advance_of_lt (lt_of_getElem? hu)]
      refine hstatement _ ?_ ?_ <;> rw [hvs]
      · omega
      · exact hx
    · rw [if_pos rfl]
      refine (tracks_body hblock hbehind (by omega) (.atRule (atName t) (trimmedText params)) t.position hx).bind ?_
      rintro ⟨nodes, stop, behind⟩ ⟨close, hclose, hmoved⟩
      dsimp only at *
      rw [lift_bind (source?_of_getElem? hget hclose)]
      exact tracks_pure hmoved
    · rw [if_neg (by simp), if_neg (by simp)]
      refine hstatement _ ?_ ?_ <;> rw [hbehind]
      · simp only [List.length_cons]
        omega
      · exact hx

end Blocks

/-! ### All statements -/

theorem tracks_nodes {ts : List Token} {steps : Nat} {nested : Bool} {c : Cursor} {before : List Node}
    {blocks : List OpenBlock} {x : Except ParseError (List Node)} (hsteps : (ahead ts c.place).length < steps)
    (hnested : nested = false → blocks = []) (hx : x = outcome ⟨c.spaces, before, blocks⟩ (ahead ts c.place)) :
    Tracks x (nodes ts steps nested c before) (Reached ts x blocks nested (ahead ts c.place).length) := by
  induction steps generalizing nested c before blocks x with
  | zero => cases hsteps
  | succ steps ih =>
    rw [nodes]
    cases hus : ahead ts c.place with
    | nil =>
      rw [hus] at hx
      rw [if_pos (atEnd_of_ahead_nil hus).1]
      refine tracks_pure ⟨fun t us h => ?_, ?_, ?_⟩
      · rw [hus] at h
        cases h
      · rw [hus]
      · rw [hus, List.reverse_reverse]
        exact hx
    | cons t us =>
      rw [hus, List.length_cons] at hsteps
      rw [hus] at hx
      obtain ⟨hget, hnext⟩ := getElem?_of_ahead hus
      have hblock : ReadsBlocks ts (us.length + 1) fun c => nodes ts steps true c [] :=
        fun c blocks x hsize hx => ih (hsize.trans_le (Nat.le_of_lt_succ hsteps)) nofun hx
      -- what is read behind the statement that starts here
      have hbehind : ∀ c before, (ahead ts c.place).length < us.length + 1 →
          x = outcome ⟨c.spaces, before, blocks⟩ (ahead ts c.place) →
          Tracks x (nodes ts steps nested c before) (Reached ts x blocks nested (t :: us).length) := by
        intro c before hsize hx
        refine (ih (hsize.trans_le (Nat.le_of_lt_succ hsteps)) hnested hx).imp_right ?_
        rintro ⟨r, hr, hreached⟩
        exact ⟨r, hr, hreached.stops, hreached.shorter.trans (Nat.le_of_lt hsize), hreached.outcome_eq⟩
      have hone : ∀ spaces before, x = outcome ⟨spaces, before, blocks⟩ us →
          Tracks x (nodes ts steps nested ⟨c.place + 1, spaces⟩ before)
            (Reached ts x blocks nested (t :: us).length) := by
        intro spaces before hx
        refine hbehind ⟨c.place + 1, spaces⟩ before ?_ ?_ <;> rw [hnext]
        · exact Nat.lt_succ_self _
        · exact hx
      rw [atEnd_of_ahead hus, peek_of_getElem? hget, advance_of_lt (lt_of_getElem? hget)]
      dsimp only
      rw [if_neg Bool.false_ne_true]
      cases hkind : t.kind with
      | space =>
        rw [outcome_step (Segment.ofTokens_space hkind)] at hx
        exact hone _ _ hx
      | semicolon =>
        rw [outcome_step (Segment.ofTokens_semicolon hkind)] at hx
        exact hone _ _ hx
      | comment =>
        rw [outcome_step (Segment.ofTokens_comment hkind)] at hx
        dsimp only
        rw [lift_bind (source?_of_getElem? hget hget)]
        exact hone _ _ hx
      | rightBrace =>
        cases nested with
        | false =>
          obtain rfl := hnested rfl
          rw [outcome_step (Segment.ofTokens_rightBrace hkind)] at hx
          exact tracks_throw hx
        | true =>
          refine tracks_pure ⟨fun u vs h => ?_, ?_, ?_⟩
          · obtain ⟨rfl, -⟩ := List.cons.inj (hus.symm.trans h)
            exact ⟨rfl, hkind⟩
          · rw [hus]
          · rw [hus, List.reverse_reverse]
            exact hx
      | atWord =>
        exact (tracks_atRule hblock hus hkind (Nat.lt_succ_self _) hx).bind fun r hr =>
          hbehind r.2 _ hr.shorter hr.outcome_eq
      | eof => exact absurd hkind (kind_of_ahead hus)
      | leftBrace =>
        exact (tracks_statement hblock hus (.inr hkind) (Nat.lt_succ_self _) hx).bind fun r hr =>
          hbehind r.2 _ hr.shorter hr.outcome_eq
      | _ =>
        have hstart : Segment.startsHead t.kind = true := by rw [hkind]; rfl
        exact (tracks_statement hblock hus (.inl hstart) (Nat.lt_succ_self _) hx).bind fun r hr =>
          hbehind r.2 _ hr.shorter hr.outcome_eq

theorem stylesheet_eq (ts : List Token) : stylesheet ts = some ((Node.ofTokens (content ts)).map .mk) := by
  have hsub : (ahead ts 0).Sublist ts := List.takeWhile_sublist _
  have hsteps : (ahead ts 0).length < ts.length + 1 := Nat.lt_succ_of_le hsub.length_le
  have hnodes : Tracks (Node.ofTokens (content ts)) (nodes ts (ts.length + 1) false ⟨0, ""⟩ [])
      (Reached ts (Node.ofTokens (content ts)) [] false (ahead ts 0).length) :=
    tracks_nodes hsteps (fun _ => rfl) rfl
  rcases hnodes with ⟨e, hr, hx⟩ | ⟨⟨found, c⟩, hr, hreached⟩
  · rw [stylesheet, hr, hx]
    rfl
  · have hend : ahead ts c.place = [] := by
      cases hus : ahead ts c.place with
      | nil => rfl
      | cons t us => cases (hreached.stops t us hus).1
    have hx := hreached.outcome_eq
    rw [hend, outcome_nil] at hx
    rw [stylesheet, hr, hx]
    show (if (peek ts c.place).kind = .rightBrace then _ else _) = _
    rw [if_neg (by simp [(atEnd_of_ahead_nil hend).2])]
    simp only [Progress.finish, List.reverse_reverse]
    rfl

/-- The reader comes to an end, finds all that it asks for, and reads what stands in the text. -/
theorem parse_eq (s : String) : parse s = some (Stylesheet.parse s) := by
  unfold parse Stylesheet.parse
  rw [Scanner.tokens_eq]
  cases Token.ofText s with
  | error e => rfl
  | ok ts => exact stylesheet_eq ts

end Cursor

/-- Of every text the reader that goes by numbers comes to an end and finds all that it asks for. What it comes to is
the stylesheet of the text, or its error, which is at the first character of a token or at the quote or the `/*` that is
never closed. -/
theorem Stylesheet.parse_total (s : String) : Cursor.parse s = some (Stylesheet.parse s) ∧
    ((∃ sheet, Stylesheet.parse s = .ok sheet) ∨
      ∃ e, Stylesheet.parse s = .error e ∧ Located s e ∧ 1 ≤ e.position.line ∧ 1 ≤ e.position.column) := by
  refine ⟨Cursor.parse_eq s, ?_⟩
  cases h : Stylesheet.parse s with
  | ok sheet => exact .inl ⟨sheet, rfl⟩
  | error e =>
    have hlocated := located_of_parse h
    exact .inr ⟨e, rfl, hlocated, hlocated.pos⟩

end Mixsheet
