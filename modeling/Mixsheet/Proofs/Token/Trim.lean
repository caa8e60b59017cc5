import Mixsheet.Node.OfTokens
import Mixsheet.Proofs.Text.Blank
import Mixsheet.Proofs.Token.Reads

/-! # Trimmed runs of tokens

White space is read as tokens of its own, and no other token starts or ends with it. So trimming the
text of a run is the same as taking the white-space tokens off its ends. -/

namespace Mixsheet

open Text

/-! ### The ends of a token -/

namespace Lexeme

theorem getLast?_of_splitComment? {cs body rest : List Char} (h : splitComment? cs = some (body, rest)) :
    body.getLast? = some '/' := by
  fun_induction splitComment? cs generalizing body with
  | case1 =>
    obtain ⟨rfl, -⟩ := Prod.mk.inj (Option.some.inj h)
    rfl
  | case2 c cs _ ih =>
    obtain ⟨⟨b, r⟩, hb, he⟩ := Option.map_eq_some_iff.mp h
    obtain ⟨rfl, rfl⟩ := Prod.mk.inj he
    rw [List.getLast?_cons, ih hb]
    rfl
  | case3 => cases h

theorem getLast?_of_splitString? {q : Char} {cs body rest : List Char}
    (h : splitString? q cs = some (body, rest)) : body.getLast? = some q := by
  fun_induction splitString? q cs generalizing body with
  | case1 d cs ih =>
    obtain ⟨⟨b, r⟩, hb, he⟩ := Option.map_eq_some_iff.mp h
    obtain ⟨rfl, rfl⟩ := Prod.mk.inj he
    rw [List.getLast?_cons, List.getLast?_cons, ih hb]
    rfl
  | case2 =>
    obtain ⟨rfl, -⟩ := Prod.mk.inj (Option.some.inj h)
    rfl
  | case3 c cs _ _ ih =>
    obtain ⟨⟨b, r⟩, hb, he⟩ := Option.map_eq_some_iff.mp h
    obtain ⟨rfl, rfl⟩ := Prod.mk.inj he
    rw [List.getLast?_cons, ih hb]
    rfl
  | case4 => cases h

theorem getLast?_of_splitBrackets? {u : Bool} {cs body rest : List Char}
    (h : splitBrackets? u cs = some (body, rest)) : body.getLast? = some ')' := by
  by_cases hmem : ')' ∈ cs
  · obtain ⟨as, bs, rfl, has⟩ := List.eq_append_cons_of_mem hmem
    rw [splitBrackets?_append_cons has] at h
    split at h <;> cases h
    simp
  · rw [splitBrackets?_of_notMem hmem] at h
    cases h

/-- A token other than white space neither starts nor ends with white space. -/
theorem Reading.tight {u : Bool} {c : Char} {cs : List Char} {l : Lexeme} (h : Reading u c cs l)
    (hl : l.kind ≠ .space) : Tight (c :: l.body) := by
  have hword : ∀ {ds : List Char}, ∀ d ∈ (splitWord ds).1.getLast?, isBlank d = false :=
    fun d hd => (inert_of_splitWord (List.mem_of_getLast? hd)).blank
  cases h with
  | space blank => exact absurd rfl hl
  | comment split =>
    refine .cons (by decide) fun d hd => ?_
    rw [List.getLast?_cons, getLast?_of_splitComment? split] at hd
    obtain rfl := Option.some.inj hd
    decide
  | string quote split =>
    have hc : isBlank c = false := by
      rcases isQuote_iff.mp quote with rfl | rfl <;> decide
    refine .cons hc fun d hd => ?_
    rw [getLast?_of_splitString? split] at hd
    obtain rfl := Option.some.inj hd
    exact hc
  | brackets split =>
    refine .cons (by decide) fun d hd => ?_
    rw [getLast?_of_splitBrackets? split] at hd
    obtain rfl := Option.some.inj hd
    decide
  | leftParen split => exact .cons (by decide) nofun
  | atWord => exact .cons (by decide) hword
  | punctuation punctuation => exact .cons (punctuation?_some punctuation).1 nofun
  | word plain at_ => exact .cons (inert_of_endsWord plain).blank hword

/-- A comma ends no token but itself. -/
theorem Reading.getLast?_ne {u : Bool} {c : Char} {cs : List Char} {l : Lexeme} (h : Reading u c cs l)
    (hl : l.kind ≠ .comma) : (c :: l.body).getLast? ≠ some ',' := by
  intro hlast
  have hmem : ',' ∈ c :: l.body := List.mem_of_getLast? hlast
  have hinert : ¬ Inert ',' := fun hi => by cases hi.punctuation
  cases h with
  | space blank =>
    have hall : ∀ d ∈ c :: cs.takeWhile Text.isBlank, Text.isBlank d = true :=
      List.forall_mem_cons.mpr ⟨blank, fun d hd => List.mem_takeWhile_imp hd⟩
    exact absurd (hall _ hmem) (by decide)
  | comment split =>
    rw [List.getLast?_cons, List.getLast?_cons, getLast?_of_splitComment? split] at hlast
    cases hlast
  | string quote split =>
    rw [List.getLast?_cons, getLast?_of_splitString? split] at hlast
    cases hlast
    cases quote
  | brackets split =>
    rw [List.getLast?_cons, getLast?_of_splitBrackets? split] at hlast
    cases hlast
  | leftParen split => cases hlast
  | atWord => exact hinert (Reading.inert (@Reading.atWord u cs) (.inr rfl) _ hmem)
  | punctuation punctuation =>
    obtain rfl := List.mem_singleton.mp hmem
    exact hl (Option.some.inj punctuation).symm
  | word plain at_ => exact hinert (Reading.inert (Reading.word (u := u) plain at_) (.inl rfl) _ hmem)

end Lexeme

namespace Token

section ReadAs

variable {u : Bool} {t : Token} {k : List Char}

theorem ReadAs.tight (h : ReadAs u t k) (ht : t.kind ≠ .space) : Tight t.text.toList := by
  obtain ⟨c, cs, l, hr, hkind, htext, -⟩ := h
  rw [htext]
  exact hr.tight (hkind ▸ ht)

theorem ReadAs.blank (h : ReadAs u t k) (ht : t.kind = .space) : Blank t.text.toList := by
  obtain ⟨c, cs, l, hr, hkind, htext, -⟩ := h
  obtain ⟨hblank, hbody⟩ := hr.space_inv (hkind.trans ht)
  intro d hd
  rw [htext, hbody] at hd
  rcases List.mem_cons.mp hd with rfl | hd
  · exact hblank
  · exact List.mem_takeWhile_imp hd

end ReadAs

/-! ### Runs -/

/-- All tokens are white space. -/
def Spaces (ts : List Token) : Prop := ∀ t ∈ ts, t.kind = .space

/-- The run neither starts nor ends with white space. -/
structure Trimmed (ts : List Token) : Prop where
  head : ∀ t ∈ ts.head?, t.kind ≠ .space
  last : ∀ t ∈ ts.getLast?, t.kind ≠ .space

/-- The token is white space. -/
def isSpace (t : Token) : Bool := t.kind == .space

theorem isSpace_iff {t : Token} : t.isSpace = true ↔ t.kind = .space := beq_iff_eq

/-- A run is white space and what does not start with it. -/
theorem exists_spaces_before (ts : List Token) :
    ∃ a r, ts = a ++ r ∧ Spaces a ∧ ∀ t ∈ r.head?, t.kind ≠ .space := by
  refine ⟨ts.takeWhile isSpace, ts.dropWhile isSpace, List.takeWhile_append_dropWhile.symm, ?_, ?_⟩
  · exact fun t ht => isSpace_iff.mp (List.mem_takeWhile_imp ht)
  · intro t ht hkind
    have := List.head?_dropWhile_not isSpace ts
    rw [ht] at this
    simp [isSpace_iff.mpr hkind] at this

/-- A run is what does not end with white space, and white space. -/
theorem exists_spaces_behind (ts : List Token) :
    ∃ r b, ts = r ++ b ∧ Spaces b ∧ ∀ t ∈ r.getLast?, t.kind ≠ .space := by
  obtain ⟨a, r, hts, ha, hr⟩ := exists_spaces_before ts.reverse
  refine ⟨r.reverse, a.reverse, ?_, fun t ht => ha t (List.mem_reverse.mp ht), fun t ht => ?_⟩
  · rw [← List.reverse_append, ← hts, List.reverse_reverse]
  · rw [List.getLast?_reverse] at ht
    exact hr t ht

theorem exists_trimmed (ts : List Token) :
    ∃ a r b, ts = a ++ r ++ b ∧ Spaces a ∧ Spaces b ∧ Trimmed r := by
  obtain ⟨a, us, rfl, ha, hhead⟩ := exists_spaces_before ts
  obtain ⟨r, b, rfl, hb, hlast⟩ := exists_spaces_behind us
  refine ⟨a, r, b, (List.append_assoc a r b).symm, ha, hb, fun t ht => hhead t ?_, hlast⟩
  rw [List.head?_append]
  exact Option.or_eq_some_iff.mpr (.inl ht)

section Reads

variable {u : Bool} {ts : List Token} {k : List Char}

theorem Reads.blank (h : Reads u ts k) (hs : Spaces ts) : Blank (chars ts) := by
  intro c hc
  obtain ⟨t, ht, hct⟩ := List.mem_flatMap.mp hc
  obtain ⟨v, r, hr⟩ := h.readAs ht
  exact hr.blank (hs t ht) c hct

theorem Reads.tight (h : Reads u ts k) (hts : Trimmed ts) : Tight (chars ts) := by
  have hne : ∀ t ∈ ts, t.text.toList ≠ [] := by
    intro t ht
    obtain ⟨v, r, hr⟩ := h.readAs ht
    exact hr.toList_ne
  constructor
  · intro c hc
    cases ts with
    | nil => cases hc
    | cons t ts =>
      rw [chars_cons, List.head?_append_of_ne_nil _ (hne t List.mem_cons_self)] at hc
      exact (h.1.tight (hts.head t rfl)).head c hc
  · intro c hc
    rcases List.eq_nil_or_concat ts with rfl | ⟨us, t, rfl⟩
    · cases hc
    · have ht : t ∈ us.concat t := by simp
      obtain ⟨v, r, hr⟩ := h.readAs ht
      rw [List.concat_eq_append, chars_append, chars_cons, chars_nil, List.append_nil,
        List.getLast?_append_of_ne_nil _ (hne t ht)] at hc
      exact (hr.tight (hts.last t (by simp))).last c hc

/-- A run is white space around a trimmed run, and the text of that one is the trimmed text. -/
theorem Reads.trim (h : Reads u ts k) :
    ∃ a r b, ts = a ++ r ++ b ∧ Spaces a ∧ Spaces b ∧ Trimmed r ∧ Text.trim (chars ts) = chars r := by
  obtain ⟨a, r, b, rfl, ha, hb, hr⟩ := exists_trimmed ts
  refine ⟨a, r, b, rfl, ha, hb, hr, ?_⟩
  obtain ⟨hab, hb'⟩ := Reads.append.mp h
  obtain ⟨ha', hr'⟩ := Reads.append.mp hab
  rw [chars_append, chars_append, trim_between (ha'.blank ha) (hb'.blank hb)]
  exact (hr'.tight hr).trim_eq

end Reads

end Token
end Mixsheet
