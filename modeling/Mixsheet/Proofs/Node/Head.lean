import Mixsheet.Proofs.Node.Segment

/-! # The grammar of heads

A statement, up to the token that ends it, is a sequence of tokens and of brackets with what stands in
them. The stack of missing closers finds exactly these sequences (`head_iff`), and what it counts as
outside all brackets is the tokens of the sequence and its opening brackets. -/

namespace Mixsheet

open Token

namespace Account

variable {σ : Type} {a : Account σ} {s : σ}

theorem afterAll_append (s : σ) (ts us : List Token) :
    a.afterAll s (ts ++ us) = a.afterAll (a.afterAll s ts) us :=
  List.foldl_append

theorem uncut_append {ts us : List Token} :
    a.Uncut s (ts ++ us) ↔ a.Uncut s ts ∧ a.Uncut (a.afterAll s ts) us := by
  induction ts generalizing s with
  | nil => exact ⟨fun h => ⟨rfl, h⟩, And.right⟩
  | cons t ts ih => rw [List.cons_append, uncut_cons, uncut_cons, ih, and_assoc]; rfl

/-- No token that ends a statement stands in an uncut run behind a part that leaves no bracket open. -/
theorem uncut_iff {ts : List Token} : a.Uncut s ts ↔
    ∀ before t, before ++ [t] <+: ts → a.closed (a.afterAll s before) = true → Segment.isStop t = false := by
  constructor
  · rintro h before t ⟨rest, rfl⟩ hclosed
    have ht := (uncut_append.mp (uncut_append.mp h).1).2
    exact Bool.eq_false_iff.mpr fun hstop => (uncut_cons.mp ht).1 ⟨hclosed, hstop⟩
  · intro h
    induction ts generalizing s with
    | nil => rfl
    | cons t ts ih =>
      refine uncut_cons.mpr ⟨fun ⟨hclosed, hstop⟩ => ?_, ih fun before t' hprefix hclosed => ?_⟩
      · have := h [] t ⟨ts, rfl⟩ hclosed
        rw [hstop] at this
        cases this
      · exact h (t :: before) t' (List.cons_prefix_cons.mpr ⟨rfl, hprefix⟩) hclosed

end Account

namespace Segment

theorem outside_append (closers : List TokenKind) (ts us : List Token) :
    outside closers (ts ++ us) = outside closers ts ++ outside (headAccount.afterAll closers ts) us := by
  induction ts generalizing closers with
  | nil => rfl
  | cons t ts ih =>
    rw [List.cons_append, outside, outside, ih]
    split <;> rfl

/-! ### Brackets -/

/-- The kind of the token that closes a bracket which a token of a kind opens. -/
def closerOf? : TokenKind → Option TokenKind
  | .leftParen => some .rightParen
  | .leftBracket => some .rightBracket
  | _ => none

/-- What stands in a bracket before its closer: further brackets, and tokens that neither open one nor
are the closer. The closer of another kind of bracket is one of these. -/
inductive Inside : TokenKind → List Token → Prop where
  | nil (closer : TokenKind) : Inside closer []
  | token {closer : TokenKind} {t : Token} {ts : List Token} (opens : closerOf? t.kind = none)
    (other : t.kind ≠ closer) (rest : Inside closer ts) : Inside closer (t :: ts)
  | bracket {closer kind : TokenKind} {opener close : Token} {inner ts : List Token}
    (opens : closerOf? opener.kind = some kind) (inside : Inside kind inner) (closes : close.kind = kind)
    (rest : Inside closer ts) : Inside closer (opener :: (inner ++ close :: ts))

/-- A run of tokens in which no `;`, `{` or `}` stands outside brackets and every bracket is closed, with
its tokens outside brackets. The opener of a bracket is one of these. -/
inductive Head : List Token → List Token → Prop where
  | nil : Head [] []
  | token {t : Token} {ts out : List Token} (opens : closerOf? t.kind = none) (stop : isStop t = false)
    (rest : Head ts out) : Head (t :: ts) (t :: out)
  | bracket {kind : TokenKind} {opener close : Token} {inner ts out : List Token}
    (opens : closerOf? opener.kind = some kind) (inside : Inside kind inner) (closes : close.kind = kind)
    (rest : Head ts out) : Head (opener :: (inner ++ close :: ts)) (opener :: out)

section Missing

variable {t : Token} {kind : TokenKind} {outer : List TokenKind}

theorem missing_of_opens (h : closerOf? t.kind = some kind) (closers : List TokenKind) :
    missing closers t = kind :: closers := by
  unfold missing
  cases hk : t.kind <;> simp_all [closerOf?]

theorem missing_of_ne (h : closerOf? t.kind = none) (hk : t.kind ≠ kind) :
    missing (kind :: outer) t = kind :: outer := by
  unfold missing
  split <;> simp_all [closerOf?]

theorem missing_nil_of_not_opens (h : closerOf? t.kind = none) : missing [] t = [] := by
  unfold missing
  split <;> simp_all [closerOf?]

theorem missing_of_eq (h : closerOf? t.kind = none) (hk : t.kind = kind) :
    missing (kind :: outer) t = outer := by
  subst hk
  unfold missing
  split <;> simp_all [closerOf?]

theorem not_opens_of_closerOf? {opener : TokenKind} (h : closerOf? opener = some kind) :
    closerOf? kind = none := by
  cases opener <;> cases h <;> rfl

theorem isStop_of_opens (h : closerOf? t.kind = some kind) : isStop t = false := by
  cases hk : t.kind <;> simp_all [closerOf?, isStop]

end Missing

/-! ### What the stack does -/

theorem afterAll_cons (closers : List TokenKind) (t : Token) (ts : List Token) :
    headAccount.afterAll closers (t :: ts) = headAccount.afterAll (missing closers t) ts := rfl

theorem uncut_cons {closers : List TokenKind} {t : Token} {ts : List Token} :
    headAccount.Uncut closers (t :: ts) ↔
      (closers = [] → isStop t = false) ∧ headAccount.Uncut (missing closers t) ts := by
  rw [Account.uncut_cons]
  refine and_congr ?_ Iff.rfl
  simp [headAccount]

theorem outside_cons_of_ne {closers : List TokenKind} (h : closers ≠ []) (t : Token) (ts : List Token) :
    outside closers (t :: ts) = outside (missing closers t) ts := by
  rw [outside, if_neg h]

theorem outside_nil_cons (t : Token) (ts : List Token) :
    outside [] (t :: ts) = t :: outside (missing [] t) ts := by
  rw [outside, if_pos rfl]

section Bracket

variable {kind : TokenKind} {opener close : Token} {inner ts out : List Token} {outer : List TokenKind}

/-- A run leaves missing closers as they are, and none of its tokens is outside. -/
structure Passes (closers : List TokenKind) (ts : List Token) : Prop where
  after : headAccount.afterAll closers ts = closers
  uncut : headAccount.Uncut closers ts
  outside : outside closers ts = []

/-- Behind a bracket with its closer the stack is as before. -/
theorem Passes.bracket (h : Passes (kind :: outer) inner) (opens : closerOf? opener.kind = some kind)
    (closes : close.kind = kind) (ts : List Token) :
    headAccount.afterAll outer (opener :: (inner ++ close :: ts)) = headAccount.afterAll outer ts ∧
      (headAccount.Uncut outer (opener :: (inner ++ close :: ts)) ↔ headAccount.Uncut outer ts) ∧
      Segment.outside (missing outer opener) (inner ++ close :: ts) = Segment.outside outer ts := by
  have hopen := missing_of_opens opens outer
  have hclose : missing (kind :: outer) close = outer :=
    missing_of_eq (closes ▸ not_opens_of_closerOf? opens) closes
  refine ⟨?_, ?_, ?_⟩
  · rw [afterAll_cons, hopen, Account.afterAll_append, h.after, afterAll_cons, hclose]
  · rw [uncut_cons, hopen, Account.uncut_append, h.after, uncut_cons, hclose]
    simp [isStop_of_opens opens, h.uncut]
  · rw [hopen, outside_append, h.after, h.outside, outside_cons_of_ne (List.cons_ne_nil _ _), hclose]
    rfl

theorem Inside.passes (h : Inside kind ts) (outer : List TokenKind) : Passes (kind :: outer) ts := by
  induction h generalizing outer with
  | nil => exact ⟨rfl, rfl, rfl⟩
  | @token closer t ts opens other rest ih =>
    have ht := @missing_of_ne t closer outer opens other
    obtain ⟨hafter, huncut, hout⟩ := ih outer
    refine ⟨?_, uncut_cons.mpr ⟨nofun, ?_⟩, ?_⟩
    · rwa [afterAll_cons, ht]
    · rwa [ht]
    · rwa [outside_cons_of_ne (List.cons_ne_nil _ _), ht]
  | @bracket closer kind opener close inner ts opens inside closes rest ihi ihr =>
    obtain ⟨hafter, huncut, hout⟩ := (ihi (closer :: outer)).bracket opens closes ts
    obtain ⟨hafter', huncut', hout'⟩ := ihr outer
    refine ⟨hafter.trans hafter', huncut.mpr huncut', ?_⟩
    rw [outside_cons_of_ne (List.cons_ne_nil _ _), hout, hout']

theorem Head.whole (h : Head ts out) : headAccount.Whole ts ∧ outside [] ts = out := by
  induction h with
  | nil => exact ⟨⟨rfl, rfl⟩, rfl⟩
  | @token t ts out opens stop rest ih =>
    obtain ⟨⟨huncut, hclosed⟩, hout⟩ := ih
    have ht := missing_nil_of_not_opens opens
    refine ⟨⟨uncut_cons.mpr ⟨fun _ => stop, ?_⟩, ?_⟩, ?_⟩
    · change headAccount.Uncut (missing [] t) ts
      rw [ht]
      exact huncut
    · change headAccount.closed (headAccount.afterAll [] (t :: ts)) = true
      rw [afterAll_cons, ht]
      exact hclosed
    · rw [outside_nil_cons, ht, hout]
  | @bracket kind opener close inner ts out opens inside closes rest ih =>
    obtain ⟨⟨huncut, hclosed⟩, hout⟩ := ih
    obtain ⟨hafter, huncut', hout'⟩ := (inside.passes []).bracket opens closes ts
    refine ⟨⟨huncut'.mpr huncut, ?_⟩, ?_⟩
    · change headAccount.closed (headAccount.afterAll [] (opener :: (inner ++ close :: ts))) = true
      rw [hafter]
      exact hclosed
    · rw [outside_nil_cons, hout', hout]

/-- A run that leaves no bracket open closes the innermost missing one at some token. -/
theorem exists_inside (h : headAccount.closed (headAccount.afterAll (kind :: outer) ts) = true) :
    ∃ inner close rest, ts = inner ++ close :: rest ∧ close.kind = kind ∧ Inside kind inner ∧
      headAccount.afterAll (kind :: outer) ts = headAccount.afterAll outer rest := by
  induction hn : ts.length using Nat.strongRecOn generalizing kind outer ts with
  | ind n ih =>
    cases ts with
    | nil => cases h
    | cons t ts =>
      rw [List.length_cons] at hn
      rw [afterAll_cons] at h ⊢
      cases hopens : closerOf? t.kind with
      | none =>
        by_cases hkind : t.kind = kind
        · exact ⟨[], t, ts, rfl, hkind, .nil kind, by rw [missing_of_eq hopens hkind]⟩
        · rw [missing_of_ne hopens hkind] at h ⊢
          obtain ⟨inner, close, rest, rfl, hclose, hinside, hafter⟩ := ih ts.length (by omega) h rfl
          exact ⟨t :: inner, close, rest, rfl, hclose, .token hopens hkind hinside, hafter⟩
      | some kind' =>
        -- the bracket that opens here is closed first, and then the one that was missing
        rw [missing_of_opens hopens] at h ⊢
        obtain ⟨inner, close, rest, rfl, hclose, hinside, hafter⟩ := ih ts.length (by omega) h rfl
        rw [hafter] at h ⊢
        rw [List.length_append, List.length_cons] at hn
        obtain ⟨inner', close', rest', rfl, hclose', hinside', hafter'⟩ := ih rest.length (by omega) h rfl
        exact ⟨t :: (inner ++ close :: inner'), close', rest', by simp, hclose',
          .bracket hopens hinside hclose hinside', hafter'⟩

end Bracket

theorem head_of_whole {ts : List Token} (h : headAccount.Whole ts) : Head ts (outside [] ts) := by
  induction hn : ts.length using Nat.strongRecOn generalizing ts with
  | ind n ih =>
    cases ts with
    | nil => exact .nil
    | cons t ts =>
      rw [List.length_cons] at hn
      have huncut : headAccount.Uncut [] (t :: ts) := h.uncut
      have hclosed : headAccount.closed (headAccount.afterAll [] (t :: ts)) = true := h.closed
      rw [outside_nil_cons]
      cases hopens : closerOf? t.kind with
      | none =>
        obtain ⟨hstop, huncut⟩ := uncut_cons.mp huncut
        rw [afterAll_cons] at hclosed
        rw [missing_nil_of_not_opens hopens] at huncut hclosed ⊢
        exact .token hopens (hstop rfl) (ih ts.length (by omega) ⟨huncut, hclosed⟩ rfl)
      | some kind =>
        have hopened := hclosed
        rw [afterAll_cons, missing_of_opens hopens] at hopened
        obtain ⟨inner, close, rest, rfl, hclose, hinside, -⟩ := exists_inside hopened
        obtain ⟨hafter, huncut', hout⟩ := (hinside.passes []).bracket hopens hclose rest
        rw [hafter] at hclosed
        rw [hout]
        rw [List.length_append, List.length_cons] at hn
        exact .bracket hopens hinside hclose (ih rest.length (by omega) ⟨huncut'.mp huncut, hclosed⟩ rfl)

/-- The stack of missing closers finds the sequences of tokens and closed brackets. -/
theorem head_iff {ts out : List Token} : Head ts out ↔ headAccount.Whole ts ∧ outside [] ts = out :=
  ⟨Head.whole, fun ⟨hw, hout⟩ => hout ▸ head_of_whole hw⟩

end Segment
end Mixsheet
