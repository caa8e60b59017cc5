import Mixsheet.Proofs.Node.Brackets

/-! # How a run of tokens is cut

The first segment of a run, by the kind of its first token. -/

namespace Mixsheet.Segment

open Token

/-- The kinds that a statement starts with. -/
def startsHead : TokenKind → Bool
  | .space | .semicolon | .comment | .leftBrace | .rightBrace | .atWord => false
  | _ => true

section First

variable {t : Token} {rest : List Token}

theorem ofTokens_nil : ofTokens [] = [] := by rw [ofTokens]

theorem ofTokens_space (ht : t.kind = .space) : ofTokens (t :: rest) = .space t.text :: ofTokens rest := by
  rw [ofTokens, ht]

theorem ofTokens_semicolon (ht : t.kind = .semicolon) :
    ofTokens (t :: rest) = .semicolon :: ofTokens rest := by
  rw [ofTokens, ht]

theorem ofTokens_comment (ht : t.kind = .comment) : ofTokens (t :: rest) = .comment t :: ofTokens rest := by
  rw [ofTokens, ht]

theorem ofTokens_rightBrace (ht : t.kind = .rightBrace) :
    ofTokens (t :: rest) = .close t.position :: ofTokens rest := by
  rw [ofTokens, ht]

theorem ofTokens_leftBrace (ht : t.kind = .leftBrace) :
    ofTokens (t :: rest) = .statement t.position [] (.block t.position) :: ofTokens rest := by
  rw [ofTokens, ht]

theorem ofTokens_atWord (ht : t.kind = .atWord) :
    ofTokens (t :: rest) =
      .atRule t (splitParams 0 rest).1 (splitEnding (splitParams 0 rest).2).1 ::
        ofTokens (splitEnding (splitParams 0 rest).2).2 := by
  rw [ofTokens, ht]

theorem splitHead_cons (ht : startsHead t.kind = true) :
    splitHead [] (t :: rest) =
      (t :: (splitHead (missing [] t) rest).1, (splitHead (missing [] t) rest).2) := by
  have hstop : isStop t = false := by
    cases hk : t.kind <;> simp_all [isStop, startsHead]
  rw [splitHead, hstop]
  rfl

theorem ofTokens_head (ht : startsHead t.kind = true) :
    ofTokens (t :: rest) =
      .statement t.position (splitHead [] (t :: rest)).1 (splitEnding (splitHead [] (t :: rest)).2).1 ::
        ofTokens (splitEnding (splitHead [] (t :: rest)).2).2 := by
  rw [splitHead_cons ht, ofTokens]
  cases hk : t.kind <;> simp_all [startsHead]

end First

/-- The token is the segment, without further tokens. -/
inductive Single (t : Token) : Segment → Prop where
  | space (kind : t.kind = .space) : Single t (.space t.text)
  | semicolon (kind : t.kind = .semicolon) : Single t .semicolon
  | comment (kind : t.kind = .comment) : Single t (.comment t)
  | block (kind : t.kind = .leftBrace) : Single t (.statement t.position [] (.block t.position))
  | close (kind : t.kind = .rightBrace) : Single t (.close t.position)

/-- A token that starts neither a statement nor an at-rule is a segment without further tokens. -/
theorem exists_single {t : Token} (hs : startsHead t.kind = false) (ha : t.kind ≠ .atWord) :
    ∃ s, Single t s ∧ ∀ rest, ofTokens (t :: rest) = s :: ofTokens rest := by
  cases hk : t.kind with
  | space => exact ⟨_, .space hk, fun _ => ofTokens_space hk⟩
  | semicolon => exact ⟨_, .semicolon hk, fun _ => ofTokens_semicolon hk⟩
  | comment => exact ⟨_, .comment hk, fun _ => ofTokens_comment hk⟩
  | leftBrace => exact ⟨_, .block hk, fun _ => ofTokens_leftBrace hk⟩
  | rightBrace => exact ⟨_, .close hk, fun _ => ofTokens_rightBrace hk⟩
  | atWord => exact absurd hk ha
  | _ => rw [hk] at hs; cases hs

/-- Induction along the segments of a run. -/
theorem ofTokens_induction {motive : List Token → Prop} (nil : motive [])
    (one : ∀ t rest, startsHead t.kind = false → t.kind ≠ .atWord → motive rest → motive (t :: rest))
    (atRule : ∀ t rest, t.kind = .atWord → motive (splitEnding (splitParams 0 rest).2).2 → motive (t :: rest))
    (head : ∀ t rest, startsHead t.kind = true → motive (splitEnding (splitHead [] (t :: rest)).2).2 →
      motive (t :: rest)) (ts : List Token) : motive ts := by
  fun_induction ofTokens ts with
  | case1 => exact nil
  | case2 t rest ht ih | case3 t rest ht ih | case4 t rest ht ih | case5 t rest ht ih
  | case6 t rest ht ih =>
    exact one t rest (by rw [ht]; rfl) (by simp [ht]) ih
  | case7 t rest ht _ params ending ih => exact atRule t rest ht ih
  | case8 t rest _ _ _ h₁ h₂ h₃ h₄ h₅ h₆ ih =>
    have hs : startsHead t.kind = true := by
      cases hk : t.kind <;> simp_all [startsHead]
    refine head t rest hs ?_
    rw [splitHead_cons hs]
    exact ih

theorem isStop_of_split {σ : Type} {a : Account σ} {state : σ} {ts : List Token} :
    ∀ t ∈ (a.split state ts).2.head?, isStop t = true := by
  intro t ht
  obtain ⟨us, hus⟩ := List.head?_eq_some_iff.mp ht
  exact (Account.closed_of_split hus).2

theorem isStop_of_splitParams {depth : Nat} {ts : List Token} : ∀ t ∈ (splitParams depth ts).2.head?, isStop t = true :=
  splitParams_eq depth ts ▸ isStop_of_split

theorem isStop_of_splitHead {closers : List TokenKind} {ts : List Token} :
    ∀ t ∈ (splitHead closers ts).2.head?, isStop t = true :=
  splitHead_eq closers ts ▸ isStop_of_split

theorem exists_stop {stop : Token} (h : isStop stop = true) (us : List Token) :
    (stop.kind = .semicolon ∧ splitEnding (stop :: us) = (.semicolon stop.position, us)) ∨
      (stop.kind = .leftBrace ∧ splitEnding (stop :: us) = (.block stop.position, us)) ∨
      (stop.kind = .rightBrace ∧ splitEnding (stop :: us) = (.last, stop :: us)) := by
  unfold splitEnding
  cases hk : stop.kind <;> simp_all [isStop]

/-- A statement takes the `;` or the `{` behind it with it, and leaves a `}`. -/
theorem splitEnding_cases {ts : List Token} (hstop : ∀ t ∈ ts.head?, isStop t = true) :
    (∃ stop us, ts = stop :: us ∧ stop.kind = .semicolon ∧ splitEnding ts = (.semicolon stop.position, us)) ∨
    (∃ brace us, ts = brace :: us ∧ brace.kind = .leftBrace ∧ splitEnding ts = (.block brace.position, us)) ∨
    (∀ t ∈ ts.head?, t.kind = .rightBrace) ∧ splitEnding ts = (.last, ts) := by
  cases ts with
  | nil => exact .inr (.inr ⟨nofun, rfl⟩)
  | cons t us =>
    rcases exists_stop (hstop t rfl) us with ⟨hk, he⟩ | ⟨hk, he⟩ | ⟨hk, he⟩
    · exact .inl ⟨t, us, rfl, hk, he⟩
    · exact .inr (.inl ⟨t, us, rfl, hk, he⟩)
    · refine .inr (.inr ⟨?_, he⟩)
      rintro _ ⟨⟩
      exact hk

/-- The ending of a statement is taken off the tokens behind it, and the `;` or the `{` stands where the ending says. -/
theorem exists_splitEnding (ts : List Token) : ∃ e, ts = e ++ (splitEnding ts).2 ∧
    ∀ place, (splitEnding ts).1 = .semicolon place ∨ (splitEnding ts).1 = .block place →
      ∃ t, e = [t] ∧ t.position = place := by
  cases ts with
  | nil => exact ⟨[], rfl, by simp [splitEnding]⟩
  | cons t ts =>
    rw [splitEnding]
    split
    · exact ⟨[t], rfl, by simp⟩
    · exact ⟨[t], rfl, by simp⟩
    · exact ⟨[], rfl, by simp⟩

theorem splitEnding_suffix (ts : List Token) : (splitEnding ts).2 <:+ ts := by
  obtain ⟨e, he, -⟩ := exists_splitEnding ts
  exact ⟨e, he.symm⟩

theorem splitEnding_splitParams_suffix (depth : Nat) (ts : List Token) : (splitEnding (splitParams depth ts).2).2 <:+ ts :=
  (splitEnding_suffix _).trans ⟨_, splitParams_append depth ts⟩

theorem splitEnding_splitHead_suffix (closers : List TokenKind) (ts : List Token) :
    (splitEnding (splitHead closers ts).2).2 <:+ ts :=
  (splitEnding_suffix _).trans ⟨_, splitHead_append closers ts⟩

/-- The tokens of a segment, without those that end it and without white space. -/
def tokens : Segment → List Token
  | .comment t => [t]
  | .atRule word params _ => word :: params
  | .statement _ head _ => head
  | .space _ | .semicolon | .close _ => []

/-- The tokens of the segments of a run stand in it in this order. -/
theorem flatMap_tokens_sublist (ts : List Token) : ((ofTokens ts).flatMap tokens).Sublist ts := by
  induction ts using ofTokens_induction with
  | nil => rw [ofTokens_nil]; exact .slnil
  | one t rest hs ha ih =>
    obtain ⟨s, hsingle, hcons⟩ := exists_single hs ha
    rw [hcons]
    cases hsingle with
    | comment => exact ih.cons_cons t
    | _ => exact ih.cons t
  | atRule t rest ht ih =>
    rw [ofTokens_atWord ht, List.flatMap_cons]
    have := ((List.Sublist.refl (splitParams 0 rest).1).append (ih.trans (splitEnding_suffix _).sublist)).cons_cons t
    rwa [splitParams_append] at this
  | head t rest hs ih =>
    rw [ofTokens_head hs, List.flatMap_cons]
    have := (List.Sublist.refl (splitHead [] (t :: rest)).1).append (ih.trans (splitEnding_suffix _).sublist)
    rwa [splitHead_append] at this

end Mixsheet.Segment
