import Mixsheet.Proofs.Token.Reads

/-! # Runs of tokens by themselves

Tokens that stand one after the other in a text are the tokens of their own text. Nothing behind them is missed: a
token ends where it ended, and a `(` that did not find a fitting `)` finds none in less text. Before them only the
word `url` counts, and only for a `(`. -/

namespace Mixsheet.Token

open Lexeme

/-- A token without its place. -/
def written (t : Token) : TokenKind × String := (t.kind, t.text)

theorem written_eq_of_bare {us ts : List Token} (h : us.map bare = ts.map bare) : us.map written = ts.map written := by
  have hwritten : ∀ t : Token, t.written = t.bare.written := fun _ => rfl
  have hmap : ∀ ts : List Token, ts.map written = (ts.map bare).map written := by
    intro ts
    rw [List.map_map]
    exact List.map_congr_left fun t _ => hwritten t
  rw [hmap us, h, ← hmap ts]

theorem Run.exists_eof {before : List Char} {ts : List Token} (h : Run before ts) :
    ∃ e, ts = content ts ++ [e] ∧ e.written = (.eof, "") := by
  induction h with
  | eof before => exact ⟨_, rfl, rfl⟩
  | cons kind text start stop position rest ih =>
    obtain ⟨e, hts, he⟩ := ih
    exact ⟨e, by rw [content_cons kind, List.cons_append, ← hts], he⟩

/-- The tokens of a text end with the one token of the kind `eof`, which has no text. -/
theorem exists_eof {s : String} {ts : List Token} (h : ofText s = .ok ts) :
    ∃ e, ts = content ts ++ [e] ∧ e.written = (.eof, "") :=
  (@run_of_ofCharsFrom none [] _ _ h).1.exists_eof

section Surroundings

variable {u : Bool} {ts : List Token} {k : List Char}

/-- Tokens are read with no text behind them as they are with one. -/
theorem Reads.alone (h : Reads u ts k) : Reads u ts [] :=
  h.change ⟨fun _ _ _ => nofun, fun _ _ _ => trivial, .inr rfl⟩

theorem endsUrl_eq_true {u : Bool} {ts : List Token} (h : endsUrl u ts = true) :
    (u = true ∧ ts = []) ∨ ∃ t ∈ ts.getLast?, t.isUrl = true := by
  rcases List.eq_nil_or_concat ts with rfl | ⟨front, t, rfl⟩
  · exact .inl ⟨h, rfl⟩
  · rw [List.concat_eq_append, endsUrl_append] at h
    exact .inr ⟨t, by simp, h⟩

/-- The tokens that look at the token before them start with a `(`. -/
theorem ReadAs.head?_eq {t : Token} (h : ReadAs u t k) (ht : t.kind = .brackets ∨ t.kind = .leftParen) :
    t.text.toList.head? = some '(' := by
  obtain ⟨c, cs, l, hr, hkind, htext, -⟩ := h
  rw [htext]
  rcases ht with ht | ht
  · rw [(hr.brackets_inv (hkind.trans ht)).1]
    rfl
  · rw [(hr.leftParen_inv (hkind.trans ht)).1]
    rfl

/-- Tokens are read at the start of a text as they are behind another token, unless that one is the word `url` and
they start with a `(`. -/
theorem Reads.first (h : Reads u ts k) (hurl : u = true → ∀ t ∈ ts.head?, t.text.toList.head? ≠ some '(') :
    Reads false ts k := by
  cases u with
  | false => exact h
  | true =>
    cases ts with
    | nil => trivial
    | cons t ts =>
      have hhead : t.text.toList.head? ≠ some '(' := hurl rfl t rfl
      refine ⟨h.1.of_kind ?_ ?_ false, h.2⟩
      · exact fun ht => hhead (h.1.head?_eq (.inl ht))
      · exact fun ht => hhead (h.1.head?_eq (.inr ht))

end Surroundings

/-- A run of tokens that stand one after the other in a text, the one at its end aside, are the tokens of their own
text, unless the word `url` stands before a `(` that they start with. -/
theorem ofText_join_run {s : String} {ts before run behind : List Token} (h : ofText s = .ok ts)
    (hts : ts = before ++ run ++ behind) (hrun : ∀ t ∈ run, t.kind ≠ .eof)
    (hurl : ∀ w ∈ before.getLast?, w.isUrl = true → ∀ t ∈ run.head?, t.text.toList.head? ≠ some '(') :
    ∃ us, ofText (join run) = .ok us ∧ us.map written = run.map written ++ [(.eof, "")] := by
  have hreads : Reads false run [] := by
    obtain ⟨e, he, hkind⟩ := exists_eof h
    have heof : e.kind = .eof := congrArg Prod.fst hkind
    rcases List.eq_nil_or_concat behind with rfl | ⟨rest, x, rfl⟩
    · -- the run goes to the end of the tokens, so it is empty
      rcases List.eq_nil_or_concat run with rfl | ⟨front, t, rfl⟩
      · trivial
      · rw [List.append_nil, List.concat_eq_append, ← List.append_assoc, he] at hts
        obtain ⟨-, hlast⟩ := List.append_inj' hts rfl
        obtain rfl := List.singleton_inj.mp hlast
        exact absurd heof (hrun e (by simp))
    · rw [List.concat_eq_append, ← List.append_assoc, he] at hts
      obtain ⟨hcontent, -⟩ := List.append_inj' hts rfl
      have hall := (reads_of_ofText h).1
      rw [hcontent] at hall
      have hread := (Reads.append.mp (Reads.append.mp hall).1).2.alone
      refine hread.first fun hends => ?_
      rcases endsUrl_eq_true hends with ⟨hfalse, -⟩ | ⟨w, hw, hwurl⟩
      · cases hfalse
      · exact hurl w hw hwurl
  obtain ⟨us, hus, hbare⟩ := ofText_of_reads hreads
  obtain ⟨e, he, hwritten⟩ := exists_eof hus
  refine ⟨us, hus, ?_⟩
  rw [he, List.map_append, written_eq_of_bare hbare, List.map_singleton, hwritten]

/-- A `(` cut off before the string that keeps it from being one token with the `)` behind. -/
theorem ofText_join_run_of_paren : ∃ before run behind, ofText "f(a\"b)\"" = .ok (before ++ run ++ behind) ∧
    run.map written = [(.leftParen, "("), (.word, "a")] ∧
    ∃ us, ofText (join run) = .ok us ∧ us.map written = [(.leftParen, "("), (.word, "a"), (.eof, "")] := by
  have h : ofText "f(a\"b)\"" = .ok ([⟨.word, "f", 0, 1, ⟨1, 1⟩⟩] ++
      [⟨.leftParen, "(", 1, 2, ⟨1, 2⟩⟩, ⟨.word, "a", 2, 3, ⟨1, 3⟩⟩] ++
      [⟨.string, "\"b)\"", 3, 7, ⟨1, 4⟩⟩, ⟨.eof, "", 7, 7, ⟨1, 8⟩⟩]) := by
    decide +kernel
  exact ⟨_, _, _, h, rfl, ofText_join_run h rfl (by simp) (by simp [isUrl])⟩

end Mixsheet.Token
