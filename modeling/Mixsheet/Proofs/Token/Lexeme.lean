import Mixsheet.Proofs.Text.Blank
import Mixsheet.Token.Lexeme

/-! # Lexemes and what follows them

The first token of a text is found by looking at its own characters and, for some kinds, at the text
behind it. `Reading` lists the ways a first token is read, and `Follows` says of a text that it leaves
a token before it as it is: then the token is read with that text behind it as well. -/

namespace Mixsheet.Lexeme

/-! ### The ways to read a token -/

/-- A lexeme is the first token of the text `c :: cs`. -/
inductive Reading (u : Bool) : Char → List Char → Lexeme → Prop where
  | space {c : Char} {cs : List Char} (blank : Text.isBlank c = true) :
    Reading u c cs ⟨.space, cs.takeWhile Text.isBlank, cs.dropWhile Text.isBlank⟩
  | comment {cs body rest : List Char} (split : splitComment? cs = some (body, rest)) :
    Reading u '/' ('*' :: cs) ⟨.comment, '*' :: body, rest⟩
  | string {c : Char} {cs body rest : List Char} (quote : isQuote c = true)
    (split : splitString? c cs = some (body, rest)) : Reading u c cs ⟨.string, body, rest⟩
  | brackets {cs body rest : List Char} (split : splitBrackets? u cs = some (body, rest)) :
    Reading u '(' cs ⟨.brackets, body, rest⟩
  | leftParen {cs : List Char} (split : splitBrackets? u cs = none) : Reading u '(' cs ⟨.leftParen, [], cs⟩
  | atWord {cs : List Char} : Reading u '@' cs (ofSplit .atWord (splitWord cs))
  | punctuation {c : Char} {cs : List Char} {kind : TokenKind} (punctuation : punctuation? c = some kind) :
    Reading u c cs ⟨kind, [], cs⟩
  | word {c : Char} {cs : List Char} (plain : endsWord c cs = false) (at_ : c ≠ '@') :
    Reading u c cs (ofSplit .word (splitWord cs))

theorem isQuote_iff {c : Char} : isQuote c = true ↔ c = '"' ∨ c = '\'' := by
  simp [isQuote]

theorem ne_backslash_of_isQuote {q : Char} (h : isQuote q = true) : q ≠ '\\' := by
  rintro rfl
  cases h

theorem opensComment_iff {c : Char} {cs : List Char} :
    opensComment c cs = true ↔ c = '/' ∧ ∃ ds, cs = '*' :: ds := by
  cases cs <;> simp [opensComment]

/-- The one character that all tokens of a kind are. -/
def charOf? : TokenKind → Option Char
  | .rightParen => some ')'
  | .leftBracket => some '['
  | .rightBracket => some ']'
  | .leftBrace => some '\x7b'
  | .rightBrace => some '\x7d'
  | .colon => some ':'
  | .semicolon => some ';'
  | .comma => some ','
  | _ => none

theorem punctuation?_eq_some {c : Char} {kind : TokenKind} :
    punctuation? c = some kind ↔ charOf? kind = some c := by
  constructor
  · intro h
    unfold punctuation? at h
    split at h <;> cases h <;> rfl
  · intro h
    cases kind <;> cases h <;> rfl

/-- The tokens of one character start with a character of their own. -/
theorem punctuation?_some {c : Char} {kind : TokenKind} (h : punctuation? c = some kind) :
    Text.isBlank c = false ∧ isQuote c = false ∧ c ≠ '(' ∧ c ≠ '@' ∧ c ≠ '/' := by
  unfold punctuation? at h
  split at h <;> first | decide | cases h

theorem reading_of_read {u : Bool} {c : Char} {cs : List Char} {l : Lexeme} (h : read u c cs = .ok l) :
    Reading u c cs l := by
  unfold read at h
  by_cases hb : Text.isBlank c = true
  · rw [if_pos hb] at h
    cases h
    exact .space hb
  rw [if_neg hb] at h
  by_cases hc : opensComment c cs = true
  · rw [if_pos hc] at h
    obtain ⟨rfl, ds, rfl⟩ := opensComment_iff.mp hc
    rw [List.drop_succ_cons, List.drop_zero] at h
    split at h <;> cases h
    rename_i body rest hs
    exact .comment hs
  rw [if_neg hc] at h
  by_cases hq : isQuote c = true
  · rw [if_pos hq] at h
    split at h <;> cases h
    rename_i parts hs
    exact .string hq hs
  rw [if_neg hq] at h
  by_cases hp : c = '('
  · rw [if_pos hp] at h
    subst hp
    split at h <;> cases h
    · rename_i parts hs
      exact .brackets hs
    · rename_i hs
      exact .leftParen hs
  rw [if_neg hp] at h
  by_cases ha : c = '@'
  · rw [if_pos ha] at h
    subst ha
    cases h
    exact .atWord
  rw [if_neg ha] at h
  split at h <;> cases h
  · rename_i kind hk
    exact .punctuation hk
  · rename_i hk
    refine .word ?_ ha
    simp [endsWord, hb, hc, hq, hp, hk]

theorem Reading.read_eq {u : Bool} {c : Char} {cs : List Char} {l : Lexeme} (h : Reading u c cs l) :
    read u c cs = .ok l := by
  cases h with
  | space blank => rw [read, if_pos blank]
  | comment split =>
    have hb : Text.isBlank '/' = false := by decide
    simp [read, hb, opensComment, split]
  | @string c _ body rest quote split =>
    have hb : Text.isBlank c = false := by
      rcases isQuote_iff.mp quote with rfl | rfl <;> decide
    have hc : opensComment c cs = false := by
      rcases isQuote_iff.mp quote with rfl | rfl <;> rfl
    simp [read, hb, hc, quote, split, ofSplit]
  | brackets split =>
    have hb : Text.isBlank '(' = false := by decide
    simp [read, hb, opensComment, isQuote, split, ofSplit]
  | leftParen split =>
    have hb : Text.isBlank '(' = false := by decide
    simp [read, hb, opensComment, isQuote, split]
  | atWord =>
    have hb : Text.isBlank '@' = false := by decide
    simp [read, hb, opensComment, isQuote]
  | punctuation punctuation =>
    obtain ⟨hb, hq, hp, ha, hs⟩ := punctuation?_some punctuation
    simp [read, hb, opensComment, hs, hq, hp, ha, punctuation]
  | word plain at_ =>
    simp only [endsWord, Bool.or_eq_false_iff, beq_eq_false_iff_ne, Option.isSome_eq_false_iff,
      Option.isNone_iff_eq_none] at plain
    obtain ⟨⟨⟨⟨hb, hq⟩, hp⟩, hn⟩, hc⟩ := plain
    simp [read, hb, hc, hq, hp, at_, hn]

theorem Reading.append {u : Bool} {c : Char} {cs : List Char} {l : Lexeme} (h : Reading u c cs l) :
    l.body ++ l.rest = cs :=
  append_of_read h.read_eq

section Kind

variable {u : Bool} {c : Char} {cs : List Char} {l : Lexeme}

theorem Reading.space_inv (h : Reading u c cs l) (hl : l.kind = .space) :
    Text.isBlank c = true ∧ l.body = cs.takeWhile Text.isBlank := by
  cases h with
  | space blank => exact ⟨blank, rfl⟩
  | punctuation punctuation =>
    subst hl
    cases punctuation?_eq_some.mp punctuation
  | _ => cases hl

theorem Reading.comment_inv (h : Reading u c cs l) (hl : l.kind = .comment) :
    ∃ ds body, c = '/' ∧ cs = '*' :: ds ∧ l.body = '*' :: body ∧ splitComment? ds = some (body, l.rest) := by
  cases h with
  | comment split => exact ⟨_, _, rfl, rfl, rfl, split⟩
  | punctuation punctuation =>
    subst hl
    cases punctuation?_eq_some.mp punctuation
  | _ => cases hl

theorem Reading.atWord_inv (h : Reading u c cs l) (hl : l.kind = .atWord) :
    c = '@' ∧ l = ofSplit .atWord (splitWord cs) := by
  cases h with
  | atWord => exact ⟨rfl, rfl⟩
  | punctuation punctuation =>
    subst hl
    cases punctuation?_eq_some.mp punctuation
  | _ => cases hl

theorem Reading.brackets_inv (h : Reading u c cs l) (hl : l.kind = .brackets) :
    c = '(' ∧ splitBrackets? u cs = some (l.body, l.rest) := by
  cases h with
  | brackets split => exact ⟨rfl, split⟩
  | punctuation punctuation =>
    subst hl
    cases punctuation?_eq_some.mp punctuation
  | _ => cases hl

theorem Reading.leftParen_inv (h : Reading u c cs l) (hl : l.kind = .leftParen) :
    c = '(' ∧ l = ⟨.leftParen, [], cs⟩ := by
  cases h with
  | leftParen split => exact ⟨rfl, rfl⟩
  | punctuation punctuation =>
    subst hl
    cases punctuation?_eq_some.mp punctuation
  | _ => cases hl

theorem Reading.string_inv (h : Reading u c cs l) (hl : l.kind = .string) : isQuote c = true := by
  cases h with
  | string quote split => exact quote
  | punctuation punctuation =>
    subst hl
    cases punctuation?_eq_some.mp punctuation
  | _ => cases hl

theorem Reading.punctuation_inv (h : Reading u c cs l) {d : Char} (hd : punctuation? d = some l.kind) :
    c = d ∧ l.body = [] := by
  rw [punctuation?_eq_some] at hd
  cases h with
  | punctuation hc => exact ⟨Option.some.inj ((punctuation?_eq_some.mp hc).symm.trans hd), rfl⟩
  | _ => cases hd

end Kind

/-! ### Words -/

/-- The character belongs to a word wherever it stands in one. -/
structure Inert (c : Char) : Prop where
  blank : Text.isBlank c = false
  quote : isQuote c = false
  paren : c ≠ '('
  punctuation : punctuation? c = none

theorem inert_of_endsWord {c : Char} {cs : List Char} (h : endsWord c cs = false) : Inert c := by
  simp only [endsWord, Bool.or_eq_false_iff, beq_eq_false_iff_ne, Option.isSome_eq_false_iff,
    Option.isNone_iff_eq_none] at h
  exact ⟨h.1.1.1.1, h.1.1.1.2, h.1.1.2, h.1.2⟩

theorem inert_of_splitWord {cs : List Char} {c : Char} (h : c ∈ (splitWord cs).1) : Inert c := by
  induction cs with
  | nil => cases h
  | cons d ds ih =>
    rw [splitWord] at h
    split at h
    · cases h
    · rename_i hd
      rcases List.mem_cons.mp h with rfl | h
      · exact inert_of_endsWord (Bool.eq_false_iff.mpr hd)
      · exact ih h

theorem Reading.inert {u : Bool} {c : Char} {cs : List Char} {l : Lexeme} (h : Reading u c cs l)
    (hl : l.kind = .word ∨ l.kind = .atWord) : ∀ d ∈ c :: l.body, Inert d := by
  cases h with
  | atWord => exact List.forall_mem_cons.mpr ⟨⟨by decide, rfl, by decide, rfl⟩, fun _ hd => inert_of_splitWord hd⟩
  | word plain at_ => exact List.forall_mem_cons.mpr ⟨inert_of_endsWord plain, fun _ hd => inert_of_splitWord hd⟩
  | punctuation punctuation =>
    have := punctuation?_eq_some.mp punctuation
    rcases hl with hl | hl <;> (dsimp only at hl; subst hl; cases this)
  | _ => rcases hl with hl | hl <;> cases hl

/-! ### What follows a token -/

/-- A word ends before the text. -/
def Delimits : List Char → Prop
  | [] => True
  | c :: rest => endsWord c rest = true

/-- The text leaves a token of a kind before it as it is; `u` is the `afterUrl` of the token. -/
structure Follows (u : Bool) (kind : TokenKind) (k : List Char) : Prop where
  space : kind = .space → ∀ c ∈ k.head?, Text.isBlank c = false
  word : kind = .word ∨ kind = .atWord → Delimits k
  leftParen : kind = .leftParen → splitBrackets? u k = none

/-- A word ends before every token that is no word. -/
theorem Reading.delimits {u : Bool} {c : Char} {cs : List Char} {l : Lexeme} (h : Reading u c cs l)
    (hl : l.kind ≠ .word ∧ l.kind ≠ .atWord) : Delimits (c :: cs) := by
  rw [Delimits, endsWord]
  cases h with
  | space blank => simp [blank]
  | comment split => rfl
  | string quote split => simp [quote]
  | brackets split | leftParen split => simp
  | atWord => exact absurd rfl hl.2
  | punctuation punctuation => simp [punctuation]
  | word plain at_ => exact absurd rfl hl.1

theorem delimits_splitWord (cs : List Char) : Delimits (splitWord cs).2 := by
  induction cs with
  | nil => trivial
  | cons c cs ih =>
    rw [splitWord]
    by_cases hc : endsWord c cs = true
    · rw [if_pos hc]
      exact hc
    · rw [if_neg hc]
      exact ih

theorem Delimits.head_ne {k : List Char} (h : Delimits k) : k.head? ≠ some '*' := by
  cases k with
  | nil => simp
  | cons c cs =>
    rintro ⟨rfl⟩
    have : endsWord '*' cs = false := rfl
    rw [Delimits, this] at h
    cases h

theorem endsWord_congr {c : Char} {cs ds : List Char} (h : cs.head? = ds.head?) :
    endsWord c cs = endsWord c ds := by
  simp [endsWord, opensComment, h]

theorem endsWord_append_of_delimits {c : Char} {cs : List Char} (hc : endsWord c cs = false) {k : List Char}
    (hk : Delimits k) : endsWord c ((splitWord cs).1 ++ k) = false := by
  cases hw : (splitWord cs).1 with
  | nil =>
    have hcomment : opensComment c k = false := by
      simp [opensComment, hk.head_ne]
    rw [endsWord, Bool.or_eq_false_iff] at hc
    rw [List.nil_append, endsWord, hcomment, hc.1]
    rfl
  | cons d ds =>
    rw [← hc, ← splitWord_append cs, hw]
    exact endsWord_congr rfl

/-- What a word takes of a text it takes of one that goes on in another way after it. -/
theorem splitWord_append_of_delimits (cs : List Char) {k : List Char} (hk : Delimits k) :
    splitWord ((splitWord cs).1 ++ k) = ((splitWord cs).1, k) := by
  induction cs with
  | nil =>
    cases k with
    | nil => rfl
    | cons c cs => exact if_pos hk
  | cons c cs ih =>
    by_cases hc : endsWord c cs = true
    · rw [splitWord, if_pos hc]
      cases k with
      | nil => rfl
      | cons d ds => exact if_pos hk
    · have hs : (splitWord (c :: cs)).1 = c :: (splitWord cs).1 := by rw [splitWord, if_neg hc]
      have hn := endsWord_append_of_delimits (Bool.eq_false_iff.mpr hc) hk
      rw [hs, List.cons_append, splitWord, if_neg (Bool.eq_false_iff.mp hn), ih]

theorem Reading.follows {u : Bool} {c : Char} {cs : List Char} {l : Lexeme} (h : Reading u c cs l) :
    Follows u l.kind l.rest := by
  cases h with
  | space blank =>
    exact ⟨fun _ => Text.head_dropWhile cs, nofun, nofun⟩
  | comment split => exact ⟨nofun, nofun, nofun⟩
  | string quote split => exact ⟨nofun, nofun, nofun⟩
  | brackets split => exact ⟨nofun, nofun, nofun⟩
  | leftParen split => exact ⟨nofun, nofun, fun _ => split⟩
  | atWord => exact ⟨nofun, fun _ => delimits_splitWord cs, nofun⟩
  | @punctuation _ _ kind punctuation =>
    have hkind := punctuation?_eq_some.mp punctuation
    refine ⟨?_, ?_, ?_⟩
    · rintro rfl
      cases hkind
    · rintro (rfl | rfl) <;> cases hkind
    · rintro rfl
      cases hkind
  | word plain at_ => exact ⟨nofun, fun _ => delimits_splitWord cs, nofun⟩

/-! ### Reading with another text behind -/

theorem splitComment?_append {cs body rest : List Char} (h : splitComment? cs = some (body, rest))
    (k : List Char) : splitComment? (body ++ k) = some (body, k) := by
  fun_induction splitComment? cs generalizing body with
  | case1 =>
    obtain ⟨rfl, rfl⟩ := Prod.mk.inj (Option.some.inj h)
    rfl
  | case2 c cs hn ih =>
    obtain ⟨⟨b, r⟩, hb, he⟩ := Option.map_eq_some_iff.mp h
    obtain ⟨rfl, rfl⟩ := Prod.mk.inj he
    rw [List.cons_append, splitComment?]
    · rw [ih hb]
      rfl
    · intro ds hc hd
      have happ := append_of_splitComment? hb
      cases b with
      | nil =>
        unfold splitComment? at hb
        split at hb <;> simp at hb
      | cons d b =>
        obtain ⟨rfl, -⟩ := List.cons.inj hd
        exact hn _ hc happ.symm
  | case3 => cases h

theorem ne_nil_of_splitString? {q : Char} {cs body rest : List Char}
    (h : splitString? q cs = some (body, rest)) : body ≠ [] := by
  rintro rfl
  unfold splitString? at h
  split at h
  · simp at h
  · split at h <;> simp at h
  · cases h

theorem splitString?_append {q : Char} (hq : isQuote q = true) {cs body rest : List Char}
    (h : splitString? q cs = some (body, rest)) (k : List Char) :
    splitString? q (body ++ k) = some (body, k) := by
  have hne := ne_backslash_of_isQuote hq
  fun_induction splitString? q cs generalizing body with
  | case1 d cs ih =>
    obtain ⟨⟨b, r⟩, hb, he⟩ := Option.map_eq_some_iff.mp h
    obtain ⟨rfl, rfl⟩ := Prod.mk.inj he
    simp [splitString?, ih hb]
  | case2 =>
    obtain ⟨rfl, rfl⟩ := Prod.mk.inj (Option.some.inj h)
    rw [List.singleton_append, splitString?]
    · rw [if_pos rfl]
    · intro d ds hc
      exact absurd hc hne
  | case3 c cs hn hc ih =>
    obtain ⟨⟨b, r⟩, hb, he⟩ := Option.map_eq_some_iff.mp h
    obtain ⟨rfl, rfl⟩ := Prod.mk.inj he
    rw [List.cons_append, splitString?]
    · rw [if_neg hc, ih hb]
      rfl
    · intro d ds hc' hd
      have happ := append_of_splitString? hb
      cases b with
      | nil => exact ne_nil_of_splitString? hb rfl
      | cons e b => exact hn e _ hc' happ.symm
  | case4 => cases h

theorem groups_afterUrl {inner : List Char} (h : groups false inner = true) : groups true inner = true := by
  have hinner : ∀ c ∈ inner, isQuote c = false := by
    intro c hc
    have hc := List.all_eq_true.mp h c hc
    refine Bool.eq_false_iff.mpr fun hquote => ?_
    rcases isQuote_iff.mp hquote with rfl | rfl <;> exact absurd hc (by decide)
  rw [groups, if_pos rfl]
  cases hfind : inner.find? fun c => !Text.isBlank c with
  | none => rfl
  | some c => simp [hinner c (List.mem_of_find?_eq_some hfind)]

theorem splitBrackets?_of_notMem {u : Bool} {cs : List Char} (h : ')' ∉ cs) :
    splitBrackets? u cs = none := by
  have hd : cs.dropWhile (· != ')') = [] :=
    List.dropWhile_eq_nil_iff.mpr fun c hc => by simpa using ne_of_mem_of_not_mem hc h
  rw [splitBrackets?, hd]

/-- What stands before the first `)` makes out whether there is one token. -/
theorem splitBrackets?_append_cons {u : Bool} {cs : List Char} (h : ')' ∉ cs) (k : List Char) :
    splitBrackets? u (cs ++ ')' :: k) = if groups u cs then some (cs ++ [')'], k) else none := by
  have hall : ∀ c ∈ cs, (c != ')') = true := fun c hc => by simpa using ne_of_mem_of_not_mem hc h
  have hd : (cs ++ ')' :: k).dropWhile (· != ')') = ')' :: k := by
    rw [List.dropWhile_append_of_pos hall]
    rfl
  have ht : (cs ++ ')' :: k).takeWhile (· != ')') = cs := by
    rw [List.takeWhile_append_of_pos hall]
    simp
  rw [splitBrackets?, hd, ht]

theorem splitBrackets?_append {u : Bool} {cs body rest : List Char}
    (h : splitBrackets? u cs = some (body, rest)) (k : List Char) :
    splitBrackets? u (body ++ k) = some (body, k) := by
  by_cases hmem : ')' ∈ cs
  · obtain ⟨as, bs, rfl, has⟩ := List.eq_append_cons_of_mem hmem
    rw [splitBrackets?_append_cons has] at h
    split at h <;> cases h
    rename_i hg
    rw [List.append_assoc, List.singleton_append, splitBrackets?_append_cons has, if_pos hg]
  · rw [splitBrackets?_of_notMem hmem] at h
    cases h

/-- What is one token with its parentheses is one behind the word `url` as well. -/
theorem splitBrackets?_afterUrl {cs body rest : List Char} (h : splitBrackets? false cs = some (body, rest)) :
    splitBrackets? true cs = some (body, rest) := by
  unfold splitBrackets? at h ⊢
  split at h
  · cases h
  · rename_i close behind hdrop
    split at h
    · rename_i hgroups
      rwa [if_pos (groups_afterUrl hgroups)]
    · cases h

/-- Behind the word `url` only a quote keeps a `(` from being one token with its `)`. -/
theorem splitBrackets?_quote {w : List Char} (hw : Text.Blank w) {q : Char} (hq : isQuote q = true) (cs : List Char) :
    splitBrackets? true (w ++ q :: cs) = none := by
  have hparen : ∀ c ∈ w, (c != ')') = true := by
    intro c hc
    refine bne_iff_ne.mpr ?_
    rintro rfl
    exact absurd (hw _ hc) (by decide)
  have hquote : (q != ')') = true ∧ Text.isBlank q = false := by
    rcases isQuote_iff.mp hq with rfl | rfl <;> decide
  have htake : (w ++ q :: cs).takeWhile (· != ')') = w ++ q :: cs.takeWhile (· != ')') := by
    rw [List.takeWhile_append_of_pos hparen]
    simp [hquote.1]
  have hfind : (w ++ q :: cs.takeWhile (· != ')')).find? (fun c => !Text.isBlank c) = some q := by
    have hnone : w.find? (fun c => !Text.isBlank c) = none := List.find?_eq_none.mpr fun c hc => by simp [hw c hc]
    simp [List.find?_append, hnone, hquote.2]
  unfold splitBrackets?
  split
  · rfl
  · rw [htake, groups, hfind]
    simp [hq]

/-- A `(` that makes no token with what it holds makes none either when the text goes on in another way
behind the next `)`. -/
theorem splitBrackets?_eq_none {u : Bool} {cs k : List Char} (h : splitBrackets? u (cs ++ k) = none)
    {k' : List Char} (hk : ')' ∈ cs ∨ k' = []) : splitBrackets? u (cs ++ k') = none := by
  by_cases hmem : ')' ∈ cs
  · obtain ⟨as, bs, rfl, has⟩ := List.eq_append_cons_of_mem hmem
    rw [List.append_assoc, List.cons_append, splitBrackets?_append_cons has] at h ⊢
    split at h
    · cases h
    · rename_i hg
      exact if_neg hg
  · obtain rfl := hk.resolve_left hmem
    rw [List.append_nil]
    exact splitBrackets?_of_notMem hmem

/-- A token is read the same when the text behind it is another one that leaves it as it is. -/
theorem Reading.change {u : Bool} {c : Char} {cs : List Char} {l : Lexeme} (h : Reading u c cs l)
    {k : List Char} (hk : Follows u l.kind k) : Reading u c (l.body ++ k) { l with rest := k } := by
  cases h with
  | space blank =>
    have hall : Text.Blank (cs.takeWhile Text.isBlank) := fun c hc => List.mem_takeWhile_imp hc
    have := @Reading.space u c (cs.takeWhile Text.isBlank ++ k) blank
    rwa [List.takeWhile_append_of_pos hall, List.dropWhile_append_of_pos hall,
      Text.takeWhile_eq_of_head (hk.space rfl), Text.dropWhile_eq_of_head (hk.space rfl), List.append_nil] at this
  | comment split => exact .comment (splitComment?_append split k)
  | string quote split => exact .string quote (splitString?_append quote split k)
  | brackets split => exact .brackets (splitBrackets?_append split k)
  | leftParen split => exact .leftParen (hk.leftParen rfl)
  | atWord =>
    have h := splitWord_append_of_delimits cs (hk.word (.inr rfl))
    have := @Reading.atWord u ((splitWord cs).1 ++ k)
    rwa [h] at this
  | punctuation punctuation => exact .punctuation punctuation
  | word plain at_ =>
    have h := splitWord_append_of_delimits cs (hk.word (.inl rfl))
    have := Reading.word (u := u) (endsWord_append_of_delimits plain (hk.word (.inl rfl))) at_
    rwa [h] at this

end Mixsheet.Lexeme
