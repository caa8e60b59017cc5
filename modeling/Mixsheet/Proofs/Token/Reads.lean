import Mixsheet.Proofs.Token.Lexeme
import Mixsheet.Proofs.Token.Partition

/-! # Tokens in other surroundings

Tokens of a text are read again where the same characters stand in another text. `Reads` says that
tokens are read at the head of their characters with a given text behind them; `Reads.change` puts
another text there. Two things may keep it from that: the last token may go on into the text behind,
and a `(` without its `)` is a token of its own only as long as no `)` behind makes it more. -/

namespace Mixsheet.Token

open Lexeme

/-- A token is read at the head of its characters and the text `k` behind them; `u` says that the token
before it is the word `url`. -/
def ReadAs (u : Bool) (t : Token) (k : List Char) : Prop :=
  ∃ c cs l, Reading u c cs l ∧ l.kind = t.kind ∧ t.text.toList = c :: l.body ∧ l.rest = k

/-- Tokens are read one after the other at the head of their characters and the text `k` behind them;
`u` says that the token before them is the word `url`. -/
def Reads : Bool → List Token → List Char → Prop
  | _, [], _ => True
  | u, t :: ts, k => ReadAs u t (chars ts ++ k) ∧ Reads t.isUrl ts k

/-- The last token is the word `url`; `u` says so where there is none. -/
def endsUrl (u : Bool) : List Token → Bool
  | [] => u
  | t :: ts => endsUrl t.isUrl ts

theorem Reads.singleton {u : Bool} {t : Token} {k : List Char} (h : ReadAs u t k) : Reads u [t] k :=
  ⟨h, trivial⟩

theorem Reads.append {u : Bool} {ts us : List Token} {k : List Char} :
    Reads u (ts ++ us) k ↔ Reads u ts (chars us ++ k) ∧ Reads (endsUrl u ts) us k := by
  induction ts generalizing u with
  | nil => exact ⟨fun h => ⟨trivial, h⟩, fun h => h.2⟩
  | cons t ts ih =>
    simp only [List.cons_append, Reads, endsUrl, ih, chars_append, List.append_assoc]
    exact and_assoc.symm

theorem Reads.of_suffix {u : Bool} {ts us : List Token} {k : List Char} (h : Reads u ts k) (hus : us <:+ ts) :
    ∃ v, Reads v us k := by
  obtain ⟨front, rfl⟩ := hus
  exact ⟨_, (Reads.append.mp h).2⟩

theorem endsUrl_append (u : Bool) (ts us : List Token) :
    endsUrl u (ts ++ us) = endsUrl (endsUrl u ts) us := by
  induction ts generalizing u with
  | nil => rfl
  | cons t ts ih => exact ih t.isUrl

theorem isUrl_of_kind_ne {t : Token} (h : t.kind ≠ .word) : t.isUrl = false := by
  simp [isUrl, h]

/-! ### One token -/

section ReadAs

variable {u : Bool} {t : Token} {k : List Char}

theorem ReadAs.follows (h : ReadAs u t k) : Follows u t.kind k := by
  obtain ⟨c, cs, l, hr, hkind, -, rfl⟩ := h
  exact hkind ▸ hr.follows

theorem ReadAs.change (h : ReadAs u t k) {k' : List Char} (hk : Follows u t.kind k') : ReadAs u t k' := by
  obtain ⟨c, cs, l, hr, hkind, htext, -⟩ := h
  exact ⟨c, l.body ++ k', { l with rest := k' }, hr.change (hkind ▸ hk), hkind, htext, rfl⟩

theorem ReadAs.toList_ne (h : ReadAs u t k) : t.text.toList ≠ [] := by
  obtain ⟨c, cs, l, -, -, htext, -⟩ := h
  rw [htext]
  exact List.cons_ne_nil c l.body

/-- A token of one character is that character. -/
theorem ReadAs.punctuation (h : ReadAs u t k) {c : Char} (hc : punctuation? c = some t.kind) :
    t.text.toList = [c] := by
  obtain ⟨d, cs, l, hr, hkind, htext, -⟩ := h
  obtain ⟨rfl, hbody⟩ := hr.punctuation_inv (hkind ▸ hc)
  rw [htext, hbody]

/-- Only a `(` looks at the token before it. -/
theorem ReadAs.of_kind (h : ReadAs u t k) (hb : t.kind ≠ .brackets) (hp : t.kind ≠ .leftParen) (v : Bool) :
    ReadAs v t k := by
  obtain ⟨c, cs, l, hr, hkind, htext⟩ := h
  refine ⟨c, cs, l, ?_, hkind, htext⟩
  cases hr with
  | space blank => exact .space blank
  | comment split => exact .comment split
  | string quote split => exact .string quote split
  | brackets split => exact absurd hkind.symm hb
  | leftParen split => exact absurd hkind.symm hp
  | atWord => exact .atWord
  | punctuation punctuation => exact .punctuation punctuation
  | word plain at_ => exact .word plain at_

/-- Behind the word `url` a token is read as elsewhere, unless it is a `(`. -/
theorem ReadAs.afterUrl (h : ReadAs false t k) (hp : t.kind ≠ .leftParen) (v : Bool) : ReadAs v t k := by
  by_cases hb : t.kind = .brackets
  · cases v with
    | false => exact h
    | true =>
      obtain ⟨c, cs, l, hr, hkind, htext, hrest⟩ := h
      obtain ⟨rfl, hsplit⟩ := hr.brackets_inv (hkind.trans hb)
      exact ⟨'(', cs, ⟨.brackets, l.body, l.rest⟩, .brackets (splitBrackets?_afterUrl hsplit), hb.symm, htext, hrest⟩
  · exact h.of_kind hb hp v

theorem ReadAs.afterUrl_of_leftParen (h : ReadAs u t k) (ht : t.kind = .leftParen)
    (hk : splitBrackets? true k = none) : ReadAs true t k := by
  obtain ⟨c, cs, l, hr, hkind, htext, rfl⟩ := h
  obtain ⟨rfl, rfl⟩ := hr.leftParen_inv (hkind.trans ht)
  exact ⟨'(', cs, _, .leftParen hk, hkind, htext, rfl⟩

/-- A word that ends before a token ends there whatever comes behind the token. -/
theorem ReadAs.delimits (h : ReadAs u t k) (hd : Delimits (t.text.toList ++ k)) (k' : List Char) :
    Delimits (t.text.toList ++ k') := by
  obtain ⟨c, cs, l, hr, -, htext, rfl⟩ := h
  rw [htext, List.cons_append, Delimits, hr.append] at hd
  rw [htext, List.cons_append, Delimits]
  by_cases hc : opensComment c cs = true
  · obtain ⟨rfl, ds, rfl⟩ := opensComment_iff.mp hc
    cases hr with
    | comment split => rfl
    | space blank => exact absurd blank (by decide)
    | string quote split => cases quote
    | punctuation punctuation => cases punctuation
    | word plain at_ => cases plain
  · rw [endsWord, Bool.eq_false_iff.mpr hc, Bool.or_false] at hd
    rw [endsWord, hd, Bool.true_or]

theorem ReadAs.delimits_of_kind (h : ReadAs u t k) (hkind : t.kind ≠ .word ∧ t.kind ≠ .atWord) (k' : List Char) :
    Delimits (t.text.toList ++ k') := by
  refine h.delimits ?_ k'
  obtain ⟨c, cs, l, hr, hk, htext, rfl⟩ := h
  rw [htext, List.cons_append, hr.append]
  exact hr.delimits (hk ▸ hkind)

end ReadAs

theorem Reads.readAs {u : Bool} {ts : List Token} {k : List Char} (h : Reads u ts k) {t : Token}
    (ht : t ∈ ts) : ∃ v r, ReadAs v t r := by
  induction ts generalizing u with
  | nil => cases ht
  | cons t' ts ih =>
    rcases List.mem_cons.mp ht with rfl | ht
    · exact ⟨u, _, h.1⟩
    · exact ih h.2 ht

/-! ### Another text behind -/

/-- Every `(` has a `)` behind it. -/
def ParensClosed : List Token → Prop
  | [] => True
  | t :: ts => (t.kind = .leftParen → ∃ t' ∈ ts, t'.kind = .rightParen) ∧ ParensClosed ts

theorem ParensClosed.of_append {ts us : List Token} (h : ParensClosed (ts ++ us)) : ParensClosed us := by
  induction ts with
  | nil => exact h
  | cons t ts ih => exact ih h.2

theorem ParensClosed.append {ts us : List Token} (h : ParensClosed ts) (hu : ParensClosed us) :
    ParensClosed (ts ++ us) := by
  induction ts with
  | nil => exact hu
  | cons t ts ih =>
    refine ⟨fun ht => ?_, ih h.2⟩
    obtain ⟨t', ht', hkind⟩ := h.1 ht
    exact ⟨t', List.mem_append_left us ht', hkind⟩

/-- The text may stand behind the tokens without a change to them. -/
structure Before (ts : List Token) (k : List Char) : Prop where
  space : ∀ t ∈ ts.getLast?, t.kind = .space → ∀ c ∈ k.head?, Text.isBlank c = false
  word : ∀ t ∈ ts.getLast?, t.kind = .word ∨ t.kind = .atWord → Delimits k
  parens : ParensClosed ts ∨ k = []

/-- Tokens are read the same when another text is behind them, if that leaves the last one as it is and makes none of
their `(` more than it was. -/
theorem Reads.change_of {u : Bool} {ts : List Token} {k : List Char} (h : Reads u ts k) {k' : List Char}
    (hspace : ∀ t ∈ ts.getLast?, t.kind = .space → ∀ c ∈ k'.head?, Text.isBlank c = false)
    (hword : ∀ t ∈ ts.getLast?, t.kind = .word ∨ t.kind = .atWord → Delimits k')
    (hparens : ∀ v t us, t :: us <:+ ts → t.kind = .leftParen → splitBrackets? v (chars us ++ k) = none →
      splitBrackets? v (chars us ++ k') = none) : Reads u ts k' := by
  induction ts generalizing u with
  | nil => trivial
  | cons t ts ih =>
    have hf := h.1.follows
    refine ⟨h.1.change ⟨fun ht => ?_, fun ht => ?_, fun ht => hparens u t ts (List.suffix_refl _) ht (hf.leftParen ht)⟩,
      ih h.2 (fun v hv => hspace v ?_) (fun v hv => hword v ?_)
        fun v t' us hus => hparens v t' us (hus.trans (List.suffix_cons t ts))⟩
    · cases ts with
      | nil => exact hspace t rfl ht
      | cons t' ts =>
        have := hf.space ht
        obtain ⟨c, cs, hc⟩ := List.exists_cons_of_ne_nil h.2.1.toList_ne
        rw [chars_cons, List.append_assoc, hc] at this ⊢
        exact this
    · cases ts with
      | nil => exact hword t rfl ht
      | cons t' ts =>
        have := hf.word ht
        rw [chars_cons, List.append_assoc] at this ⊢
        exact h.2.1.delimits this _
    all_goals
      cases ts with
      | nil => cases hv
      | cons t' ts => exact hv

/-- Tokens are read the same when the text behind them is another one that may stand there. -/
theorem Reads.change {u : Bool} {ts : List Token} {k : List Char} (h : Reads u ts k) {k' : List Char}
    (hk : Before ts k') : Reads u ts k' := by
  refine h.change_of hk.space hk.word fun v t us hus ht hnone => ?_
  refine splitBrackets?_eq_none hnone (hk.parens.imp_left fun hp => ?_)
  obtain ⟨front, rfl⟩ := hus
  obtain ⟨x, hx, hkind⟩ := hp.of_append.1 ht
  obtain ⟨w, r, hread⟩ := h.readAs (List.mem_append_right front (List.mem_cons_of_mem t hx))
  have htext : x.text.toList = [')'] := hread.punctuation (by rw [hkind]; rfl)
  exact List.mem_flatMap.mpr ⟨x, hx, by rw [htext]; exact List.mem_cons_self⟩

/-! ### The tokens of a text -/

/-- A token without its place. -/
def bare (t : Token) : Token := ⟨t.kind, t.text, 0, 0, .none⟩

/-- A token of a kind at no place. -/
def ofKind (kind : TokenKind) (cs : List Char) : Token := ⟨kind, .ofList cs, 0, 0, .none⟩

@[simp] theorem text_ofKind (kind : TokenKind) (cs : List Char) : (ofKind kind cs).text = .ofList cs := rfl

@[simp] theorem kind_ofKind (kind : TokenKind) (cs : List Char) : (ofKind kind cs).kind = kind := rfl

/-- The tokens before the one at the end of the text. -/
def content (ts : List Token) : List Token := ts.takeWhile (·.kind != .eof)

theorem content_cons {t : Token} (h : t.kind ≠ .eof) (ts : List Token) :
    content (t :: ts) = t :: content ts :=
  List.takeWhile_cons_of_pos (by simpa using h)

@[simp] theorem isUrl_bare (t : Token) : t.bare.isUrl = t.isUrl := rfl

theorem reads_of_ofCharsFrom {before? : Option Token} {start : Nat} {position : Position} {cs : List Char}
    {ts : List Token} (h : ofCharsFrom before? start position cs = .ok ts) :
    Reads (before?.any isUrl) (content ts) [] ∧ chars (content ts) = cs := by
  induction hn : cs.length using Nat.strongRecOn generalizing before? start position cs ts with
  | ind n ih =>
    cases cs with
    | nil =>
      rw [ofCharsFrom_nil] at h
      cases h
      exact ⟨trivial, rfl⟩
    | cons c cs =>
      cases hl : Lexeme.read (before?.any isUrl) c cs with
      | error fault =>
        rw [ofCharsFrom_error hl] at h
        cases h
      | ok lexeme =>
        rw [ofCharsFrom_ok hl] at h
        obtain ⟨us, hu, rfl⟩ := map_eq_ok_iff.mp h
        have hlt : lexeme.rest.length < n := by
          have := Lexeme.rest_length_le hl
          simp only [List.length_cons] at hn
          omega
        obtain ⟨hreads, hchars⟩ := ih _ hlt hu rfl
        have htext := toList_text_ofLexeme lexeme c start position
        rw [content_cons (kind_of_read hl)]
        refine ⟨⟨⟨c, cs, lexeme, reading_of_read hl, rfl, htext, ?_⟩, hreads⟩, ?_⟩
        · rw [List.append_nil, hchars]
        · rw [chars_cons, htext, hchars, List.cons_append, Lexeme.append_of_read hl]

theorem ofCharsFrom_of_reads {before? : Option Token} {us : List Token}
    (h : Reads (before?.any isUrl) us []) (start : Nat) (position : Position) :
    ∃ ts, ofCharsFrom before? start position (chars us) = .ok ts ∧ (content ts).map bare = us.map bare := by
  induction us generalizing before? start position with
  | nil => exact ⟨_, ofCharsFrom_nil before? start position, rfl⟩
  | cons u us ih =>
    obtain ⟨⟨c, cs, l, hr, hkind, htext, hrest⟩, htail⟩ := h
    rw [List.append_nil] at hrest
    have htoken : (ofLexeme l c start position).bare = u.bare := by
      rw [bare, bare, ← hkind, ← @String.ofList_toList u.text, htext]
      rfl
    have hchars : chars (u :: us) = c :: cs := by
      rw [chars_cons, htext, ← hrest, List.cons_append, hr.append]
    have hurl : Reads (ofLexeme l c start position).isUrl us [] := by
      rwa [← isUrl_bare, htoken]
    obtain ⟨ts, hts, hbare⟩ := @ih (some (ofLexeme l c start position)) hurl
      (start + byteSize (c :: l.body)) (position.after (c :: l.body))
    refine ⟨ofLexeme l c start position :: ts, ?_, ?_⟩
    · rw [hchars, ofCharsFrom_ok hr.read_eq, hrest, hts]
      rfl
    · rw [content_cons (kind_of_read hr.read_eq), List.map_cons, List.map_cons, htoken, hbare]

theorem reads_of_ofText {s : String} {ts : List Token} (h : ofText s = .ok ts) :
    Reads false (content ts) [] ∧ chars (content ts) = s.toList :=
  reads_of_ofCharsFrom h

/-- Tokens that are read with nothing behind are the tokens of their text, wherever they stood. -/
theorem ofText_of_reads {us : List Token} (h : Reads false us []) :
    ∃ ts, ofText (join us) = .ok ts ∧ (content ts).map bare = us.map bare := by
  have := @ofCharsFrom_of_reads none us h 0 .first
  rwa [← @String.toList_ofList (chars us)] at this

end Mixsheet.Token
