import Mixsheet.Proofs.Argument.Spelled
import Mixsheet.Proofs.Node.OneCall

/-! # Words with parentheses behind them

A word with a text in parentheses right behind it is the head of a mixin call. The parentheses are one token
with what they hold, or tokens of their own around the tokens between them. -/

namespace Mixsheet

open Token Text Lexeme

/-! ### Words -/

namespace Token

/-- The text is read as one word. -/
def IsOneWord (s : String) : Prop := ∃ ts word, Token.ofText s = .ok ts ∧ content ts = [word] ∧ word.kind = .word

instance : DecidablePred IsOneWord := fun s =>
  decidable_of_iff ((ofText s).toOption.any fun ts => (content ts).map Token.kind == [.word]) <| by
    rw [IsOneWord]
    cases ofText s <;> simp [Except.toOption, List.map_eq_singleton_iff]

/-- The token of a word, read as it wherever the word ends. -/
structure WordOf (s : String) (word : Token) : Prop where
  kind : word.kind = .word
  text : word.text = s
  reads : ∀ u k, Delimits k → ReadAs u word k

theorem wordOf_of_readAs {u : Bool} {word : Token} {k : List Char} (h : ReadAs u word k) (hkind : word.kind = .word) :
    WordOf word.text word := by
  refine ⟨hkind, rfl, fun v k' hk' => (h.of_kind (by simp [hkind]) (by simp [hkind]) v).change ⟨?_, fun _ => hk', ?_⟩⟩
  · simp [hkind]
  · simp [hkind]

theorem IsOneWord.exists_word {s : String} (h : IsOneWord s) : ∃ word, WordOf s word := by
  obtain ⟨ts, word, hts, hcontent, hkind⟩ := h
  obtain ⟨hreads, hchars⟩ := reads_of_ofText hts
  rw [hcontent] at hreads hchars
  have htext : word.text = s := String.toList_injective (by simpa using hchars)
  exact ⟨word, htext ▸ wordOf_of_readAs hreads.1 hkind⟩

section WordOf

variable {s : String} {word : Token}

theorem WordOf.ne (h : WordOf s word) : s.toList ≠ [] := h.text ▸ (h.reads false [] trivial).toList_ne

theorem WordOf.inert (h : WordOf s word) : ∀ c ∈ s.toList, Inert c := by
  obtain ⟨c, cs, l, hreading, hkind, htext, -⟩ := h.reads false [] trivial
  rw [← h.text, htext]
  exact hreading.inert (.inl (hkind.trans h.kind))

theorem WordOf.spells (h : WordOf s word) : Grouped.Spells Delimits [word] s.toList := by
  refine ⟨by simp [h.text], fun u k hk => ⟨h.reads u k hk, trivial⟩, .token ?_ ?_ .nil, ?_⟩
  · simp [h.kind]
  · simp [h.kind]
  · simp [h.kind]

end WordOf

end Token

/-! ### One token -/

/-- A text in parentheses as one token. -/
def groupToken (inner : List Char) : Token := ofKind .brackets ('(' :: (inner ++ [')']))

theorem readAs_groupToken {u : Bool} {inner : List Char} (h : ')' ∉ inner) (hgroups : groups u inner = true)
    (k : List Char) : ReadAs u (groupToken inner) k := by
  have hsplit := @splitBrackets?_append_cons u inner h k
  rw [if_pos hgroups] at hsplit
  exact ⟨'(', _, _, .brackets hsplit, rfl, by simp [groupToken], rfl⟩

theorem Argument.ofTokens_group {group : Token} {inner : List Char} (hkind : group.kind = .brackets)
    (htext : group.text.toList = '(' :: (inner ++ [')'])) : Argument.ofTokens [group] =
      Piece.arguments ((Grouped.pieces inner).any Piece.isPair) (Grouped.pieces inner) := by
  have htrim : trimTrivia [group] = [group] := by
    simp [trimTrivia, dropTrivia, dropTriviaEnd, isTrivia, TokenKind.isTrivia, hkind]
  have hinside : Grouped.inside group.text = inner := by simp [Grouped.inside, htext]
  rw [Argument.ofTokens, htrim]
  simp [hkind, Grouped.arguments, hinside]

/-! ### Tokens between parentheses -/

/-- A `(` as a token of its own. -/
def openToken : Token := ofKind .leftParen ['(']

/-- A `)`. -/
def closeToken : Token := ofKind .rightParen [')']

theorem readAs_openToken {u : Bool} {inner : List Char} (h : ')' ∉ inner) (hgroups : groups u inner = false)
    (k : List Char) : ReadAs u openToken (inner ++ ')' :: k) := by
  have hsplit := @splitBrackets?_append_cons u inner h k
  rw [hgroups, if_neg Bool.false_ne_true] at hsplit
  exact ⟨'(', _, ⟨.leftParen, [], _⟩, .leftParen hsplit, rfl, by simp [openToken], rfl⟩

theorem inside_of_balanced {ts : List Token} (h : Scan.Balanced .leftBracket .rightBracket ts)
    (hparens : ∀ t ∈ ts, t.kind ≠ .leftParen ∧ t.kind ≠ .rightParen) {closer : TokenKind}
    (hcloser : closer = .rightParen ∨ closer = .rightBracket) : Segment.Inside closer ts := by
  induction h generalizing closer with
  | nil => exact .nil closer
  | @token t ts opens closes _ ih =>
    obtain ⟨⟨hopen, hclose⟩, hts⟩ := List.forall_mem_cons.mp hparens
    refine .token ?_ ?_ (ih hts hcloser)
    · cases hk : t.kind <;> simp_all [Segment.closerOf?]
    · rcases hcloser with rfl | rfl
      · exact hclose
      · exact closes
  | @pair first last inner ts opens closes _ _ ihi ih =>
    have hinner : Segment.Inside .rightBracket inner := ihi (fun t ht => hparens t (by simp [ht])) (.inr rfl)
    have hts : Segment.Inside closer ts := ih (fun t ht => hparens t (by simp [ht])) hcloser
    exact .bracket (by rw [opens]; rfl) hinner closes hts

theorem callTokens_of_spells {word : Token} (hkind : word.kind = .word) {ts : List Token} {cs : List Char}
    (hspells : Grouped.Spells Grouped.Stops ts cs) : Node.CallTokens word (openToken :: (ts ++ [closeToken])) := by
  have hinside := inside_of_balanced hspells.balanced hspells.parens (.inl rfl)
  have hhead : Segment.Head (word :: openToken :: (ts ++ [closeToken])) [word, openToken] := by
    refine .token ?_ ?_ (.bracket rfl hinside rfl .nil)
    · rw [hkind]; rfl
    · simp [Segment.isStop, hkind]
  refine ⟨hkind, ⟨_, hhead⟩, Node.hasColon_eq_false hhead ?_, ?_⟩
  · simp [hkind, openToken]
  · simp [Node.hasBrackets, openToken]

/-! ### The tokens of a call -/

namespace Token

variable {name : String} {word : Token} {inner : List Char}

theorem WordOf.reads_group (h : WordOf name word) (hparen : ')' ∉ inner) (hgroups : groups word.isUrl inner = true)
    (k : List Char) : Reads false (word :: [groupToken inner] ++ [Node.semicolonToken]) k := by
  refine ⟨h.reads _ _ ?_, readAs_groupToken hparen hgroups _, Node.readAs_punctuation rfl _ _, trivial⟩
  simp [groupToken, Delimits, endsWord]

theorem WordOf.reads_tokens (h : WordOf name word) (hparen : ')' ∉ inner) (hgroups : groups word.isUrl inner = false)
    {ts : List Token} (hspells : Grouped.Spells Grouped.Stops ts inner) (k : List Char) :
    Reads false (word :: (openToken :: (ts ++ [closeToken])) ++ [Node.semicolonToken]) k := by
  have hlist : word :: (openToken :: (ts ++ [closeToken])) ++ [Node.semicolonToken] =
      word :: openToken :: (ts ++ [closeToken, Node.semicolonToken]) := by simp
  have hchars : chars (ts ++ [closeToken, Node.semicolonToken]) ++ k = inner ++ ')' :: ';' :: k := by
    simp [hspells.chars, closeToken]
  have hopen := readAs_openToken hparen hgroups (';' :: k)
  rw [← hchars] at hopen
  rw [hlist]
  refine ⟨h.reads _ _ (by simp [openToken, Delimits, endsWord]), hopen, Reads.append.mpr ⟨?_, ?_⟩⟩
  · exact hspells.reads _ _ (Grouped.stops_cons rfl _)
  · exact ⟨Node.readAs_punctuation rfl _ _, Node.readAs_punctuation rfl _ _, trivial⟩

end Token

namespace Stylesheet

variable {name : String} {word : Token} {inner : List Char}

/-- A word with one token of parentheses is read as the call that the text in them is cut into. -/
theorem readsAsCall_group (h : WordOf name word) (hparen : ')' ∉ inner) (hgroups : groups word.isUrl inner = true) :
    ReadsAsCall (name ++ "(" ++ .ofList inner ++ ");") name
      (Piece.arguments ((Grouped.pieces inner).any Piece.isPair) (Grouped.pieces inner)) := by
  have htokens : Node.CallTokens word [groupToken inner] := Node.callTokens_brackets h.kind rfl
  have hcall := htokens.readsAsCall (h.reads_group hparen hgroups) blank_nil blank_nil
  have hgroup : (groupToken inner).text.toList = '(' :: (inner ++ [')']) := String.toList_ofList
  rw [Argument.ofTokens_group rfl hgroup, h.text] at hcall
  have htext : .ofList ([] ++ (chars [word, groupToken inner] ++ [';'])) = name ++ "(" ++ .ofList inner ++ ");" := by
    apply String.toList_injective
    simp [h.text, groupToken]
  rwa [htext] at hcall

/-- A word with other parentheses is read as the call that the tokens in them are scanned as. -/
theorem readsAsCall_tokens (h : WordOf name word) (hparen : ')' ∉ inner) (hgroups : groups word.isUrl inner = false)
    {ts : List Token} (hspells : Grouped.Spells Grouped.Stops ts inner) :
    ReadsAsCall (name ++ "(" ++ .ofList inner ++ ");") name (Scan.arguments ts) := by
  have htokens := callTokens_of_spells h.kind hspells
  have hcall := htokens.readsAsCall (h.reads_tokens hparen hgroups hspells) blank_nil blank_nil
  rw [Argument.ofTokens_parens rfl rfl, h.text] at hcall
  have htext : .ofList ([] ++ (chars (word :: openToken :: (ts ++ [closeToken])) ++ [';'])) =
      name ++ "(" ++ .ofList inner ++ ");" := by
    apply String.toList_injective
    simp [h.text, hspells.chars, openToken, closeToken]
  rwa [htext] at hcall

end Stylesheet
end Mixsheet
