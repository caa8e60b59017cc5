import Mixsheet.Proofs.Token.Comment
import Mixsheet.Proofs.Token.Faults
import Mixsheet.Proofs.Token.SubRun

/-! # What tokens look like

The characters of a token follow from its kind: white space is blank, a string stands between two equal quotes, a
comment between a `/*` and the next `*/`, a word holds nothing that ends one. White space does not stand beside white
space, nor a word beside a word. A text has no tokens only where a string or a comment in it does not end, and the text
before that place has. -/

namespace Mixsheet

namespace Lexeme

/-- The characters that end a word wherever they stand, white space aside. -/
def delimiters : List Char := ['(', ')', '[', ']', '\x7b', '\x7d', ':', ';', ',', '"', '\'']

/-- The text holds nothing that ends a word: no white space, no delimiter and no `/*`. -/
structure Unbroken (cs : List Char) : Prop where
  chars : ∀ c ∈ cs, Text.isBlank c = false ∧ c ∉ delimiters
  comment : ¬ ['/', '*'] <:+: cs

/-- The characters that a token of a kind may have; `afterUrl` says that the token before it is the word `url`. -/
inductive Spelling (afterUrl : Bool) : TokenKind → List Char → Prop where
  | space {cs : List Char} (some_ : cs ≠ []) (blank : Text.Blank cs) : Spelling afterUrl .space cs
  | comment {inner : List Char} (open_ : ¬ ['*', '/'] <:+: inner) :
    Spelling afterUrl .comment (['/', '*'] ++ inner ++ ['*', '/'])
  | string {quote : Char} {inner : List Char} (isQuote : isQuote quote = true) (quoted : Quoted quote inner) :
    Spelling afterUrl .string ([quote] ++ inner ++ [quote])
  | brackets {inner : List Char} (paren : ')' ∉ inner)
    (plain : (∀ c ∈ inner, c ∉ ungroupable) ∨
      (afterUrl = true ∧ ∀ c ∈ (Text.trimStart inner).head?, isQuote c = false)) :
    Spelling afterUrl .brackets (['('] ++ inner ++ [')'])
  | leftParen : Spelling afterUrl .leftParen ['(']
  | word {cs : List Char} (some_ : cs ≠ []) (unbroken : Unbroken cs) (head : cs.head? ≠ some '@') :
    Spelling afterUrl .word cs
  | atWord {cs : List Char} (unbroken : Unbroken ('@' :: cs)) : Spelling afterUrl .atWord ('@' :: cs)
  | punctuation {kind : TokenKind} {c : Char} (char : charOf? kind = some c) : Spelling afterUrl kind [c]
  | eof : Spelling afterUrl .eof []

/-! ### Each kind -/

theorem plain_iff {cs : List Char} : Plain cs ↔ ¬ ['*', '/'] <:+: cs := by
  induction cs with
  | nil => simp [Plain]
  | cons c cs ih =>
    have hprefix : ['*', '/'] <+: c :: cs ↔ c = '*' ∧ cs.head? = some '/' := by
      cases cs <;> simp [List.cons_prefix_cons, eq_comm]
    rw [Plain, ih, List.infix_cons_iff, hprefix]
    tauto

theorem spelling_comment {u : Bool} {cs body rest : List Char} (h : splitComment? cs = some (body, rest)) :
    Spelling u .comment ('/' :: '*' :: body) := by
  obtain ⟨inner, rfl, hplain⟩ := plain_of_splitComment? h
  exact .comment (plain_iff.mp (plain_append.mp hplain).1)

theorem spelling_string {u : Bool} {q : Char} {cs body rest : List Char} (hq : isQuote q = true)
    (h : splitString? q cs = some (body, rest)) : Spelling u .string (q :: body) := by
  obtain ⟨inner, hinner, rfl⟩ := exists_quoted h
  rw [splitString?_quoted (ne_backslash_of_isQuote hq) hinner] at h
  obtain ⟨rfl, -⟩ := Prod.mk.inj (Option.some.inj h)
  exact .string hq hinner

theorem ungroupable_of_groups {u : Bool} {inner : List Char} (h : groups u inner = true) :
    (∀ c ∈ inner, c ∉ ungroupable) ∨ (u = true ∧ ∀ c ∈ (Text.trimStart inner).head?, isQuote c = false) := by
  cases u with
  | false => exact .inl (by simpa [groups] using h)
  | true =>
    refine .inr ⟨rfl, fun c hc => ?_⟩
    rw [Text.trimStart, ← List.find?_not_eq_head?_dropWhile, Option.mem_def] at hc
    rw [groups, if_pos rfl, hc] at h
    simpa using h

theorem spelling_brackets {u : Bool} {cs body rest : List Char} (h : splitBrackets? u cs = some (body, rest)) :
    Spelling u .brackets ('(' :: body) := by
  by_cases hmem : ')' ∈ cs
  · obtain ⟨inner, behind, rfl, hinner⟩ := List.eq_append_cons_of_mem hmem
    rw [splitBrackets?_append_cons hinner] at h
    split at h
    · rename_i hgroups
      obtain ⟨rfl, -⟩ := Prod.mk.inj (Option.some.inj h)
      exact .brackets hinner (ungroupable_of_groups hgroups)
    · cases h
  · rw [splitBrackets?_of_notMem hmem] at h
    cases h

theorem Inert.not_delimiter {c : Char} (h : Inert c) : c ∉ delimiters := by
  have hquote := h.quote
  have hparen := h.paren
  have hpunctuation := h.punctuation
  intro hc
  simp only [delimiters, List.mem_cons, List.not_mem_nil, or_false] at hc
  rcases hc with rfl | rfl | rfl | rfl | rfl | rfl | rfl | rfl | rfl | rfl | rfl <;> contradiction

/-- A word goes on only as long as no comment starts. -/
theorem no_comment_in_word {c : Char} {cs : List Char} (h : opensComment c cs = false) :
    ¬ ['/', '*'] <:+: c :: (splitWord cs).1 := by
  induction cs generalizing c with
  | nil => simp [splitWord, List.infix_cons_iff, List.cons_prefix_cons]
  | cons d ds ih =>
    rw [splitWord]
    by_cases hd : endsWord d ds = true
    · simp [hd, List.infix_cons_iff, List.cons_prefix_cons]
    · have hnext : opensComment d ds = false := by
        rw [endsWord, Bool.not_eq_true, Bool.or_eq_false_iff] at hd
        exact hd.2
      rw [if_neg hd, List.infix_cons_iff, not_or]
      refine ⟨fun hprefix => ?_, ih hnext⟩
      obtain ⟨hslash, hprefix⟩ := List.cons_prefix_cons.mp hprefix
      obtain ⟨hstar, -⟩ := List.cons_prefix_cons.mp hprefix
      rw [← hslash, ← hstar] at h
      cases h

/-- The first token of a text is spelled as its kind asks. -/
theorem Reading.spelling {u : Bool} {c : Char} {cs : List Char} {l : Lexeme} (h : Reading u c cs l) :
    Spelling u l.kind (c :: l.body) := by
  have hinert := h.inert
  cases h with
  | space blank =>
    refine .space (List.cons_ne_nil _ _) (List.forall_mem_cons.mpr ⟨blank, fun d hd => ?_⟩)
    exact List.mem_takeWhile_imp hd
  | comment split => exact spelling_comment split
  | string quote split => exact spelling_string quote split
  | brackets split => exact spelling_brackets split
  | leftParen split => exact .leftParen
  | atWord =>
    have hchars := hinert (.inr rfl)
    exact .atWord ⟨fun d hd => ⟨(hchars d hd).blank, (hchars d hd).not_delimiter⟩, no_comment_in_word rfl⟩
  | punctuation punctuation => exact .punctuation (punctuation?_eq_some.mp punctuation)
  | word plain at_ =>
    have hchars := hinert (.inl rfl)
    have hcomment : opensComment c cs = false := by
      rw [endsWord, Bool.or_eq_false_iff] at plain
      exact plain.2
    refine .word (List.cons_ne_nil _ _) ⟨fun d hd => ?_, no_comment_in_word hcomment⟩ ?_
    · exact ⟨(hchars d hd).blank, (hchars d hd).not_delimiter⟩
    · simpa using at_

/-- No word ends before a word. -/
theorem Reading.not_delimits {u : Bool} {c : Char} {cs : List Char} {l : Lexeme} (h : Reading u c cs l)
    (hl : l.kind = .word ∨ l.kind = .atWord) : ¬ Delimits (c :: cs) := by
  rw [Delimits]
  cases h with
  | atWord =>
    have hat : endsWord '@' cs = false := rfl
    simp [hat]
  | word plain at_ => simp [plain]
  | punctuation punctuation =>
    have hchar := punctuation?_eq_some.mp punctuation
    rcases hl with hl | hl <;> (dsimp only at hl; subst hl; cases hchar)
  | _ => rcases hl with hl | hl <;> cases hl

end Lexeme

namespace Token

open Lexeme

/-- Two tokens may stand side by side: not both of them are white space, and not both of them are words. -/
structure Beside (t u : Token) : Prop where
  spaces : t.kind = .space → u.kind ≠ .space
  words : t.kind = .word ∨ t.kind = .atWord → ¬ (u.kind = .word ∨ u.kind = .atWord)

/-- The tokens are spelled as their kinds ask, and each may stand beside the next. -/
structure Lexical (ts : List Token) : Prop where
  spelled : ∀ before t behind, ts = before ++ t :: behind →
    Spelling (before.getLast?.any isUrl) t.kind t.text.toList
  beside : ts.IsChain Beside

/-- The text has tokens up to the place of the error, and a string or a comment that does not end starts there. -/
def FailsAt (s : String) (e : LexicalError) : Prop :=
  ∃ before c rest ts, s.toList = before ++ c :: rest ∧ ofText (.ofList before) = .ok ts ∧
    e.position = .after .first before ∧ Unclosed c rest e.fault ∧
    e.fault.message = if isQuote c then "Unclosed string" else "Unclosed comment"

theorem ReadAs.spelling {u : Bool} {t : Token} {k : List Char} (h : ReadAs u t k) :
    Spelling u t.kind t.text.toList := by
  obtain ⟨c, cs, l, hr, hkind, htext, -⟩ := h
  rw [← hkind, htext]
  exact hr.spelling

theorem ReadAs.beside {u v : Bool} {t t' : Token} {k : List Char} (h : ReadAs u t (t'.text.toList ++ k))
    (h' : ReadAs v t' k) : Beside t t' := by
  have hfollows := h.follows
  obtain ⟨c, cs, l, hr, hkind, htext, rfl⟩ := h'
  rw [htext, List.cons_append, hr.append] at hfollows
  constructor
  · intro ht ht'
    have hblank := (hr.space_inv (hkind.trans ht')).1
    rw [hfollows.space ht c rfl] at hblank
    cases hblank
  · intro ht ht'
    exact hr.not_delimits (hkind ▸ ht') (hfollows.word ht)

theorem Reads.isChain {u : Bool} {ts : List Token} {k : List Char} (h : Reads u ts k) : ts.IsChain Beside := by
  induction ts generalizing u with
  | nil => exact .nil
  | cons t ts ih =>
    refine List.isChain_cons.mpr ⟨fun t' ht' => ?_, ih h.2⟩
    obtain ⟨ts', rfl⟩ := List.head?_eq_some_iff.mp ht'
    have hread := h.1
    rw [chars_cons, List.append_assoc] at hread
    exact hread.beside h.2.1

theorem endsUrl_eq_any (ts : List Token) : endsUrl false ts = ts.getLast?.any isUrl := by
  rcases List.eq_nil_or_concat ts with rfl | ⟨front, t, rfl⟩
  · rfl
  · rw [List.concat_eq_append, endsUrl_append, List.getLast?_concat]
    rfl

/-- Tokens that are read one after the other, with the one at the end of the text behind them. -/
theorem Reads.lexical {ts : List Token} {e : Token} (h : Reads false ts []) (he : e.written = (.eof, "")) :
    Lexical (ts ++ [e]) := by
  obtain ⟨hkind, htext⟩ := Prod.mk.inj he
  constructor
  · intro before t behind hts
    rcases List.eq_nil_or_concat behind with rfl | ⟨front, last, rfl⟩
    · obtain ⟨rfl, hlast⟩ := List.append_inj' hts rfl
      obtain rfl := List.singleton_inj.mp hlast
      rw [hkind, htext]
      exact .eof
    · rw [List.concat_eq_append, ← List.cons_append, ← List.append_assoc] at hts
      obtain ⟨rfl, -⟩ := List.append_inj' hts rfl
      have hread := (Reads.append.mp h).2.1
      rw [endsUrl_eq_any] at hread
      exact hread.spelling
  · refine List.isChain_append.mpr ⟨h.isChain, .singleton e, fun t _ u hu => ?_⟩
    obtain rfl := List.mem_singleton.mp (List.mem_of_mem_head? hu)
    constructor <;> simp [hkind]

theorem message_of_unclosed {c : Char} {cs : List Char} {fault : LexicalFault} (h : Unclosed c cs fault) :
    fault.message = if isQuote c then "Unclosed string" else "Unclosed comment" := by
  cases h with
  | string hquote hunclosed => rw [if_pos hquote]; rfl
  | comment hunclosed => rfl

/-- The tokens of a text are spelled as their kinds ask, and a text without tokens fails behind tokens of it, where a
string or a comment starts that does not end. -/
theorem ofText_grammar (s : String) :
    match ofText s with
    | .ok ts => Lexical ts
    | .error e => FailsAt s e := by
  cases h : ofText s with
  | ok ts =>
    obtain ⟨e, hts, he⟩ := exists_eof h
    rw [hts]
    exact (reads_of_ofText h).1.lexical he
  | error e =>
    obtain ⟨ts, c, rest, hs, hreads, hunclosed, hposition⟩ := @unclosed_of_ofCharsFrom none [] _ _ h
    obtain ⟨us, hus, -⟩ := ofText_of_reads hreads.alone
    exact ⟨chars ts, c, rest, us, hs, hus, hposition, hunclosed, message_of_unclosed hunclosed⟩

/-- The star of a `/*` does not close its comment. -/
example : ofText "/*/" = .error ⟨.unclosedComment, .first⟩ := by decide +kernel

end Token
end Mixsheet
