import Mixsheet.Proofs.Token.Reads

/-! # Where a text has no tokens

A text has no tokens if a quote or a `/*` in it is never closed, and its error is the place of that quote or of that
`/*`, behind the tokens that are read before. -/

namespace Mixsheet

namespace Lexeme

/-- A text between two quotes: none of its characters is the quote, unless a backslash takes it along. -/
inductive Quoted (quote : Char) : List Char → Prop where
  | nil : Quoted quote []
  | char {c : Char} {cs : List Char} (ne_quote : c ≠ quote) (ne_backslash : c ≠ '\\') (rest : Quoted quote cs) :
    Quoted quote (c :: cs)
  | escape {c : Char} {cs : List Char} (rest : Quoted quote cs) : Quoted quote ('\\' :: c :: cs)

/-- The character and the text behind it start a string or a comment that does not end. -/
inductive Unclosed : Char → List Char → LexicalFault → Prop where
  | string {quote : Char} {cs : List Char} (isQuote : isQuote quote = true)
    (unclosed : ∀ body rest, Quoted quote body → cs ≠ body ++ quote :: rest) : Unclosed quote cs .unclosedString
  | comment {cs : List Char} (unclosed : ¬ ['*', '/'] <:+: cs) : Unclosed '/' ('*' :: cs) .unclosedComment

theorem splitString?_quoted {q : Char} (hq : q ≠ '\\') {body : List Char} (h : Quoted q body) (rest : List Char) :
    splitString? q (body ++ q :: rest) = some (body ++ [q], rest) := by
  induction h with
  | nil =>
    rw [List.nil_append, splitString?]
    · rw [if_pos rfl]
      rfl
    · exact fun _ _ hc => absurd hc hq
  | @char c cs hquote hbackslash _ ih =>
    rw [List.cons_append, splitString?]
    · rw [if_neg hquote, ih]
      rfl
    · exact fun _ _ hc => absurd hc hbackslash
  | escape _ ih =>
    rw [List.cons_append, List.cons_append, splitString?, ih]
    rfl

theorem exists_quoted {q : Char} {cs body rest : List Char} (h : splitString? q cs = some (body, rest)) :
    ∃ inner, Quoted q inner ∧ cs = inner ++ q :: rest := by
  fun_induction splitString? q cs generalizing body with
  | case1 d cs ih =>
    obtain ⟨⟨b, r⟩, hb, he⟩ := Option.map_eq_some_iff.mp h
    obtain ⟨rfl, rfl⟩ := Prod.mk.inj he
    obtain ⟨inner, hinner, rfl⟩ := ih hb
    exact ⟨'\\' :: d :: inner, .escape hinner, rfl⟩
  | case2 cs =>
    obtain ⟨rfl, rfl⟩ := Prod.mk.inj (Option.some.inj h)
    exact ⟨[], .nil, rfl⟩
  | case3 c cs hn hc ih =>
    obtain ⟨⟨b, r⟩, hb, he⟩ := Option.map_eq_some_iff.mp h
    obtain ⟨rfl, rfl⟩ := Prod.mk.inj he
    obtain ⟨inner, hinner, rfl⟩ := ih hb
    refine ⟨c :: inner, .char hc ?_ hinner, rfl⟩
    rintro rfl
    -- a backslash takes the character behind it along
    cases inner with
    | nil => exact hn q r rfl rfl
    | cons d inner => exact hn d (inner ++ q :: r) rfl rfl
  | case4 => cases h

theorem splitString?_eq_none_iff {q : Char} (hq : q ≠ '\\') {cs : List Char} :
    splitString? q cs = none ↔ ∀ body rest, Quoted q body → cs ≠ body ++ q :: rest := by
  constructor
  · rintro h body rest hbody rfl
    rw [splitString?_quoted hq hbody] at h
    cases h
  · intro h
    refine Option.eq_none_iff_forall_not_mem.mpr fun ⟨body, rest⟩ hsplit => ?_
    obtain ⟨inner, hinner, rfl⟩ := exists_quoted hsplit
    exact h inner rest hinner rfl

theorem splitComment?_eq_none_iff {cs : List Char} : splitComment? cs = none ↔ ¬ ['*', '/'] <:+: cs := by
  fun_induction splitComment? cs with
  | case1 rest =>
    have hcloses : ['*', '/'] <:+: '*' :: '/' :: rest := ⟨[], rest, rfl⟩
    simp [hcloses]
  | case2 c cs hn ih =>
    have hnot : ¬ ['*', '/'] <+: c :: cs := by
      rintro ⟨rest, hrest⟩
      obtain ⟨rfl, rfl⟩ := List.cons.inj hrest
      exact hn rest rfl rfl
    rw [Option.map_eq_none_iff, ih, List.infix_cons_iff]
    simp [hnot]
  | case3 => simp

/-- The text has no first token just if it starts a string or a comment that does not end. -/
theorem read_eq_error_iff {u : Bool} {c : Char} {cs : List Char} {fault : LexicalFault} :
    read u c cs = .error fault ↔ Unclosed c cs fault := by
  constructor
  · intro h
    unfold read at h
    split at h
    · cases h
    split at h
    · rename_i hcomment
      obtain ⟨rfl, ds, rfl⟩ := opensComment_iff.mp hcomment
      split at h
      · cases h
      · rename_i hsplit
        obtain rfl := Except.error.inj h
        exact .comment (splitComment?_eq_none_iff.mp hsplit)
    split at h
    · rename_i hquote
      split at h
      · cases h
      · rename_i hsplit
        obtain rfl := Except.error.inj h
        exact .string hquote ((splitString?_eq_none_iff (ne_backslash_of_isQuote hquote)).mp hsplit)
    split at h
    · split at h <;> cases h
    split at h
    · cases h
    split at h <;> cases h
  · intro h
    cases h with
    | string hquote hunclosed =>
      have hblank : Text.isBlank c = false := by
        rcases isQuote_iff.mp hquote with rfl | rfl <;> decide
      have hcomment : opensComment c cs = false := by
        rcases isQuote_iff.mp hquote with rfl | rfl <;> rfl
      have hsplit := (splitString?_eq_none_iff (ne_backslash_of_isQuote hquote)).mpr hunclosed
      simp [read, hblank, hcomment, hquote, hsplit]
    | @comment cs hunclosed =>
      have hblank : Text.isBlank '/' = false := by decide
      have hsplit := splitComment?_eq_none_iff.mpr hunclosed
      simp [read, hblank, opensComment, hsplit]

end Lexeme

namespace Token

/-- The error of a text is the place behind its first tokens where a string or a comment starts that does not end. -/
theorem unclosed_of_ofCharsFrom {before? : Option Token} {before cs : List Char} {e : LexicalError}
    (h : ofCharsFrom before? (byteSize before) (.after .first before) cs = .error e) :
    ∃ ts c rest, cs = chars ts ++ c :: rest ∧ Reads (before?.any isUrl) ts (c :: rest) ∧
      Lexeme.Unclosed c rest e.fault ∧ e.position = .after .first (before ++ chars ts) := by
  induction hn : cs.length using Nat.strongRecOn generalizing before? before cs with
  | ind n ih =>
    cases cs with
    | nil =>
      rw [ofCharsFrom_nil] at h
      cases h
    | cons c cs =>
      cases hl : Lexeme.read (before?.any isUrl) c cs with
      | error fault =>
        rw [ofCharsFrom_error hl] at h
        obtain rfl := Except.error.inj h
        exact ⟨[], c, cs, rfl, trivial, Lexeme.read_eq_error_iff.mp hl, by simp⟩
      | ok lexeme =>
        rw [ofCharsFrom_ok hl, ← byteSize_append, ← Position.after_append] at h
        generalize htoken : ofLexeme lexeme c (byteSize before) (.after .first before) = t at h
        have htext : t.text.toList = c :: lexeme.body := htoken ▸ toList_text_ofLexeme ..
        have herror := map_eq_error_iff.mp h
        have hlt : lexeme.rest.length < n := by
          have := Lexeme.rest_length_le hl
          simp only [List.length_cons] at hn
          omega
        obtain ⟨ts, d, rest, hrest, hreads, hunclosed, hposition⟩ := ih _ hlt herror rfl
        have hkind : lexeme.kind = t.kind := by rw [← htoken]; rfl
        have hreadAs : ReadAs (before?.any isUrl) t (chars ts ++ d :: rest) :=
          ⟨c, cs, lexeme, Lexeme.reading_of_read hl, hkind, htext, hrest⟩
        refine ⟨t :: ts, d, rest, ?_, ⟨hreadAs, hreads⟩, hunclosed, ?_⟩
        · rw [chars_cons, htext, List.append_assoc, ← hrest, List.cons_append, Lexeme.append_of_read hl]
        · rw [hposition, chars_cons, htext, List.append_assoc]

end Token
end Mixsheet
