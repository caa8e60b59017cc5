import Mixsheet.Proofs.Argument.Plain
import Mixsheet.Proofs.Node.Leads

/-! # The tokens of plain calls

A plain text is spelled by tokens that are read as it wherever it stands, and the scan takes these tokens
as the pieces that the text is cut into. -/

namespace Mixsheet.Grouped

open Token Text Lexeme Scan

/-- Tokens spell a text: they are read as it before every text that `Before` allows, they have no
parentheses, and they close their square brackets. -/
structure Spells (Before : List Char → Prop) (ts : List Token) (cs : List Char) : Prop where
  chars : Token.chars ts = cs
  reads : ∀ u k, Before k → Reads u ts k
  balanced : Balanced .leftBracket .rightBracket ts
  parens : ∀ t ∈ ts, t.kind ≠ .leftParen ∧ t.kind ≠ .rightParen

/-- A word ends before the text, and white space ends before it. -/
def Stops (k : List Char) : Prop := Delimits k ∧ ∀ c ∈ k.head?, isBlank c = false

theorem stops_cons {c : Char} {kind : TokenKind} (h : punctuation? c = some kind) (k : List Char) :
    Stops (c :: k) := by
  refine ⟨by simp [Delimits, endsWord, h], fun d hd => ?_⟩
  obtain rfl := Option.some.inj hd
  exact (punctuation?_some h).1

theorem delimits_blank_append {w k : List Char} (hw : Blank w) (hk : Delimits k) : Delimits (w ++ k) := by
  cases w with
  | nil => exact hk
  | cons c w =>
    have := hw c List.mem_cons_self
    simp [Delimits, endsWord, this]

/-! ### Runs of tokens -/

section Spells

variable {P Q : List Char → Prop} {ts us : List Token} {cs ds : List Char}

theorem spells_nil (P : List Char → Prop) : Spells P [] [] := ⟨rfl, fun _ _ _ => trivial, .nil, nofun⟩

theorem Spells.append (h : Spells P ts cs) (hu : Spells Q us ds) (hbefore : ∀ k, Q k → P (ds ++ k)) :
    Spells Q (ts ++ us) (cs ++ ds) := by
  refine ⟨by rw [chars_append, h.chars, hu.chars], fun u k hk => ?_, balanced_append h.balanced hu.balanced, ?_⟩
  · refine Reads.append.mpr ⟨h.reads u _ ?_, hu.reads _ k hk⟩
    rw [hu.chars]
    exact hbefore k hk
  · exact List.forall_mem_append.mpr ⟨h.parens, hu.parens⟩

theorem Spells.mono (h : Spells P ts cs) (hQ : ∀ k, Q k → P k) : Spells Q ts cs :=
  ⟨h.chars, fun u k hk => h.reads u k (hQ k hk), h.balanced, h.parens⟩

/-- The token of one character. -/
def charToken (kind : TokenKind) (c : Char) : Token := ofKind kind [c]

theorem readAs_charToken {c : Char} {kind : TokenKind} (h : punctuation? c = some kind) (u : Bool) (k : List Char) :
    ReadAs u (charToken kind c) k := Node.readAs_punctuation h u k

theorem spells_charToken {c : Char} {kind : TokenKind} (h : punctuation? c = some kind)
    (hbracket : kind = .comma ∨ kind = .colon) : Spells (fun _ => True) [charToken kind c] [c] := by
  refine ⟨by simp [charToken], fun u k _ => ⟨readAs_charToken h u _, trivial⟩, ?_, ?_⟩
  · refine .token ?_ ?_ .nil <;> (rcases hbracket with rfl | rfl <;> nofun)
  · refine List.forall_mem_singleton.mpr ?_
    rcases hbracket with rfl | rfl <;> exact ⟨nofun, nofun⟩

theorem Spells.brackets (h : Spells Stops ts cs) :
    Spells Delimits (charToken .leftBracket '[' :: (ts ++ [charToken .rightBracket ']'])) ('[' :: (cs ++ [']'])) := by
  refine ⟨by simp [charToken, h.chars], fun u k _ => ⟨readAs_charToken rfl u _, ?_⟩, .pair rfl rfl h.balanced .nil, ?_⟩
  · refine Reads.append.mpr ⟨h.reads _ _ ?_, readAs_charToken rfl _ _, trivial⟩
    exact stops_cons rfl k
  · refine List.forall_mem_cons.mpr ⟨⟨nofun, nofun⟩, List.forall_mem_append.mpr ⟨h.parens, ?_⟩⟩
    exact List.forall_mem_singleton.mpr ⟨nofun, nofun⟩

/-! ### White space -/

/-- The tokens of white space: one, or none if there is none. -/
def spaces (w : List Char) : List Token := if w = [] then [] else [ofKind .space w]

theorem gap_spaces (w : List Char) : Gap (spaces w) := by
  unfold spaces
  split
  · exact .inl rfl
  · exact .inr ⟨_, rfl, rfl⟩

theorem spells_spaces {w : List Char} (hw : Blank w) :
    Spells (fun k => ∀ c ∈ k.head?, isBlank c = false) (spaces w) w := by
  unfold spaces
  split
  · rename_i hnil
    subst hnil
    exact spells_nil _
  · rename_i hne
    refine ⟨by simp, fun u k hk => ⟨Node.readAs_space hw hne hk u, trivial⟩, .token nofun nofun .nil, ?_⟩
    exact List.forall_mem_singleton.mpr ⟨nofun, nofun⟩

/-- White space at both ends of a text is tokens of its own. -/
theorem Spells.between (h : Spells Delimits ts cs) (hcs : Solid cs) {before after : List Char} (hbefore : Blank before)
    (hafter : Blank after) :
    Spells Stops (spaces before ++ (ts ++ spaces after)) (before ++ (cs ++ after)) := by
  have hback : Spells Stops (ts ++ spaces after) (cs ++ after) :=
    h.append ((spells_spaces hafter).mono fun k hk => hk.2) fun k hk => delimits_blank_append hafter hk.1
  refine (spells_spaces hbefore).append hback fun k _ c hc => hcs.tight.head c ?_
  rwa [List.append_assoc, List.head?_append_of_ne_nil _ hcs.ne] at hc

end Spells

/-! ### Words -/

/-- A word goes on over the characters that belong to words. -/
theorem splitWord_append_of_inert {cs : List Char} (h : ∀ c ∈ cs, Inert c ∧ c ≠ '/') (k : List Char) :
    splitWord (cs ++ k) = (cs ++ (splitWord k).1, (splitWord k).2) := by
  induction cs with
  | nil => rfl
  | cons c cs ih =>
    obtain ⟨⟨hc, hslash⟩, hcs⟩ := List.forall_mem_cons.mp h
    have hends : endsWord c (cs ++ k) = false := by
      simp [endsWord, opensComment, hc.blank, hc.quote, hc.paren, hc.punctuation, hslash]
    rw [List.cons_append, splitWord, hends, if_neg Bool.false_ne_true, ih hcs]
    rfl

theorem splitWord_of_inert {cs k : List Char} (h : ∀ c ∈ cs, Inert c ∧ c ≠ '/') (hk : Delimits k) :
    splitWord (cs ++ k) = (cs, k) := by
  have hend : splitWord k = ([], k) := splitWord_append_of_delimits [] hk
  rw [splitWord_append_of_inert h, hend, List.append_nil]

theorem exists_word {cs : List Char} (h : IsWord cs) :
    ∃ t : Token, (t.kind = .word ∨ t.kind = .atWord) ∧ t.text = .ofList cs ∧ Spells Delimits [t] cs := by
  obtain ⟨c, ds, rfl⟩ := List.exists_cons_of_ne_nil h.1
  obtain ⟨⟨hc, hslash⟩, hds⟩ := List.forall_mem_cons.mp h.2
  have hkind : ∃ kind, (kind = .word ∨ kind = .atWord) ∧
      ∀ u k, Delimits k → Reading u c (ds ++ k) ⟨kind, ds, k⟩ := by
    by_cases hat : c = '@'
    · subst hat
      refine ⟨.atWord, .inr rfl, fun u k hk => ?_⟩
      have := @Reading.atWord u (ds ++ k)
      rwa [splitWord_of_inert hds hk] at this
    · refine ⟨.word, .inl rfl, fun u k hk => ?_⟩
      have hends : endsWord c (ds ++ k) = false := by
        simp [endsWord, opensComment, hc.blank, hc.quote, hc.paren, hc.punctuation, hslash]
      have := @Reading.word u c (ds ++ k) hends hat
      rwa [splitWord_of_inert hds hk] at this
  obtain ⟨kind, hword, hreading⟩ := hkind
  refine ⟨ofKind kind (c :: ds), hword, rfl, by simp, fun u k hk => ⟨?_, trivial⟩, .token ?_ ?_ .nil, ?_⟩
  · exact ⟨c, ds ++ k, _, hreading u k hk, rfl, by simp, by simp⟩
  · rcases hword with rfl | rfl <;> simp
  · rcases hword with rfl | rfl <;> simp
  · refine List.forall_mem_singleton.mpr ?_
    rcases hword with rfl | rfl <;> simp

/-! ### Plain pieces -/

/-- Parts with commas between are spelled by the tokens of the parts with commas between. -/
theorem Between.exists_parts {α : Type} {S : List Token → α → Prop} {parts : List (List Char × α)} {cs : List Char}
    (h : Between (parts.map (·.1)) cs)
    (hparts : ∀ p ∈ parts, Solid p.1 ∧ ∃ ts, Spells Delimits ts p.1 ∧ S ts p.2) :
    ∃ ts, Spells Stops ts cs ∧ Parts S ts (parts.map (·.2)) := by
  generalize hlists : parts.map (·.1) = lists at h
  induction h generalizing parts with
  | @one part before after before_ after_ =>
    obtain ⟨p, tail, rfl, rfl, htail⟩ := List.map_eq_cons_iff.mp hlists
    obtain rfl := List.map_eq_nil_iff.mp htail
    obtain ⟨hsolid, ts, hspells, hts⟩ := hparts _ List.mem_cons_self
    exact ⟨_, hspells.between hsolid before_ after_, [(ts, p.2)], List.forall_mem_singleton.mpr hts,
      .one (gap_spaces before) (gap_spaces after), rfl⟩
  | @more part before after cs lists before_ after_ _ ih =>
    obtain ⟨p, tail, rfl, rfl, htail⟩ := List.map_eq_cons_iff.mp hlists
    obtain ⟨⟨hsolid, ts, hspells, hts⟩, hrest⟩ := List.forall_mem_cons.mp hparts
    obtain ⟨us, hus, parts', hparts', hseparated, hvalues⟩ := ih hrest htail
    have hcomma := (spells_charToken (c := ',') rfl (.inl rfl)).append hus fun _ _ => trivial
    have hpart := (hspells.between hsolid before_ after_).append hcomma fun k _ => stops_cons rfl _
    refine ⟨_, ?_, (ts, p.2) :: parts', List.forall_mem_cons.mpr ⟨hts, hparts'⟩,
      @Separated.more _ _ _ _ _ (charToken .comma ',') (gap_spaces before) (gap_spaces after) rfl hseparated, ?_⟩
    · simpa using hpart
    · rw [List.map_cons, hvalues]
      rfl

theorem Value.exists_slot {cs : List Char} {argument : Argument} (h : Value cs argument) :
    ∃ ts, Spells Delimits ts cs ∧ Slot ts argument := by
  induction h with
  | @word cs word_ =>
    obtain ⟨t, hkind, htext, hspells⟩ := exists_word word_
    have hvalue : IsValue t := hkind.imp_right .inr
    have hslot := Slot.stack (.one (.value hvalue))
    rw [String.intercalate_singleton, join, chars_cons, htext] at hslot
    exact ⟨_, hspells, by simpa using hslot⟩
  | empty blank =>
    have hspaces := (spells_spaces blank).mono (Q := Stops) fun k hk => hk.2
    exact ⟨_, hspaces.brackets, .empty rfl (gap_spaces _) rfl⟩
  | list values between ih =>
    obtain ⟨ts, hspells, parts, hslots, hseparated, hvalues⟩ :=
      between.exists_parts fun p hp => ⟨(values p hp).shaped.solid, ih p hp⟩
    rw [← hvalues]
    exact ⟨_, hspells.brackets, .list rfl hslots hseparated hspells.balanced rfl⟩

/-- A key with its value is spelled by the tokens of both, with a colon between. -/
theorem exists_entry {t : Token} {us : List Token} {key before after cs : List Char} {argument : Argument}
    (hvalue : IsValue t) (hkey : Spells Delimits [t] key) (hbefore : Blank before) (hafter : Blank after)
    (hcs : Solid cs) (hus : Spells Delimits us cs) (hslot : Slot us argument) :
    ∃ ts, Spells Delimits ts (key ++ (before ++ ':' :: ' ' :: (after ++ cs))) ∧ IsPiece ts (.pair t.text argument) := by
  have hblank : Blank (' ' :: after) := List.forall_mem_cons.mpr ⟨by decide, hafter⟩
  have hgap : Spells Delimits (spaces (' ' :: after) ++ us) (' ' :: after ++ cs) := by
    refine (spells_spaces hblank).append hus fun k _ c hc => hcs.tight.head c ?_
    rwa [List.head?_append_of_ne_nil _ hcs.ne] at hc
  have hcolon := (spells_charToken (c := ':') rfl (.inr rfl)).append hgap fun _ _ => trivial
  have hfront := (spells_spaces hbefore).append hcolon fun k _ => (stops_cons (c := ':') rfl _).2
  have hall := hkey.append hfront fun k _ => by
    rw [List.append_assoc]
    exact delimits_blank_append hbefore (stops_cons (c := ':') rfl _).1
  have hentry : Keyed (t :: (spaces before ++ charToken .colon ':' :: (spaces (' ' :: after) ++ us)))
      (t.text, argument) := .mk hvalue (gap_spaces before) rfl (gap_spaces _) hslot
  refine ⟨_, ?_, .entry hentry⟩
  simpa using hall

theorem PlainPiece.exists_piece {cs : List Char} {piece : Piece} (h : PlainPiece cs piece) :
    ∃ ts, Spells Delimits ts cs ∧ IsPiece ts piece := by
  cases h with
  | value value_ =>
    obtain ⟨ts, hspells, hslot⟩ := value_.exists_slot
    exact ⟨ts, hspells, .slot hslot⟩
  | entry key_ before_ after_ value_ =>
    obtain ⟨t, hkind, htext, hkey⟩ := exists_word key_
    obtain ⟨us, hus, hslot⟩ := value_.exists_slot
    rw [← htext]
    exact exists_entry (hkind.imp_right .inr) hkey before_ after_ value_.shaped.solid hus hslot

theorem PlainParts.exists_parts {cs : List Char} {pieces : List Piece} (h : PlainParts cs pieces) :
    ∃ ts, Spells Stops ts cs ∧ Parts IsPiece ts pieces := by
  obtain ⟨parts, hparts, hbetween, rfl⟩ := h
  exact hbetween.exists_parts fun p hp => ⟨(hparts p hp).isPart.solid, (hparts p hp).exists_piece⟩

end Mixsheet.Grouped
