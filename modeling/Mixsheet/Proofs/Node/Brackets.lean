import Mixsheet.Node.OfTokens
import Mixsheet.Proofs.Token.Reads

/-! # Brackets

The end of a statement and the end of the parameters of an at-rule are found in the same way, with
different accounts of the brackets that are open. What is shown here of such accounts: where a run is
cut depends on neither its white space nor its comments, and a run that is not cut is not cut either
when more tokens follow it. -/

namespace Mixsheet

/-! ### Accounts of brackets -/

/-- An account of the brackets that are open behind some tokens. -/
structure Account (σ : Type) where
  start : σ
  after : σ → Token → σ
  closed : σ → Bool

namespace Account

variable {σ : Type} (a : Account σ)

/-- The account of a run that starts with the account `s`. -/
def afterAll (s : σ) (ts : List Token) : σ := ts.foldl a.after s

/-- Splits a run before the first token that ends a statement where no bracket is open. -/
def split (s : σ) : List Token → List Token × List Token
  | [] => ([], [])
  | t :: rest =>
    if a.closed s ∧ Segment.isStop t then
      ([], t :: rest)
    else
      let parts := split (a.after s t) rest
      (t :: parts.1, parts.2)

/-- A run is not cut. -/
def Uncut (s : σ) (ts : List Token) : Prop := (a.split s ts).2 = []

/-- A run is not cut, and no bracket is open behind it. -/
structure Whole (ts : List Token) : Prop where
  uncut : a.Uncut a.start ts
  closed : a.closed (a.afterAll a.start ts) = true

variable {a} {s : σ} {t : Token} {ts us : List Token}

theorem split_stop (hs : a.closed s = true) (ht : Segment.isStop t = true) (ts : List Token) :
    a.split s (t :: ts) = ([], t :: ts) :=
  if_pos ⟨hs, ht⟩

theorem uncut_cons : a.Uncut s (t :: ts) ↔
    ¬ (a.closed s = true ∧ Segment.isStop t = true) ∧ a.Uncut (a.after s t) ts := by
  rw [Uncut, split]
  split
  · rename_i h
    exact ⟨nofun, fun h' => absurd h h'.1⟩
  · rename_i h
    exact ⟨fun h' => ⟨h, h'⟩, And.right⟩

/-- A run that is not cut stays in one piece before other tokens. -/
theorem Uncut.split_append (h : a.Uncut s ts) (us : List Token) :
    a.split s (ts ++ us) = (ts ++ (a.split (a.afterAll s ts) us).1, (a.split (a.afterAll s ts) us).2) := by
  induction ts generalizing s with
  | nil => rfl
  | cons t ts ih =>
    obtain ⟨hn, ht⟩ := uncut_cons.mp h
    rw [List.cons_append, split, if_neg hn, ih ht]
    rfl

theorem Whole.split_append (h : a.Whole ts) (ht : Segment.isStop t = true) (us : List Token) :
    a.split a.start (ts ++ t :: us) = (ts, t :: us) := by
  rw [h.uncut.split_append, split_stop h.closed ht, List.append_nil]

theorem uncut_split (s : σ) (ts : List Token) : a.Uncut s (a.split s ts).1 := by
  induction ts generalizing s with
  | nil => rfl
  | cons t ts ih =>
    rw [split]
    split
    · rfl
    · rename_i h
      exact uncut_cons.mpr ⟨h, ih _⟩

/-- Where a run is cut no bracket is open, and a statement ends. -/
theorem closed_of_split (h : (a.split s ts).2 = t :: us) :
    a.closed (a.afterAll s (a.split s ts).1) = true ∧ Segment.isStop t = true := by
  induction ts generalizing s with
  | nil => cases h
  | cons t' ts ih =>
    rw [split] at h ⊢
    split
    · rename_i hs
      rw [if_pos hs] at h
      obtain ⟨rfl, -⟩ := List.cons.inj h
      exact hs
    · rename_i hs
      rw [if_neg hs] at h
      exact ih h

end Account

/-! ### White space and comments -/

namespace Token

/-- The tokens of a run other than white space and comments. -/
def significant (ts : List Token) : List Token := ts.filter (!·.isTrivia)

theorem significant_append (ts us : List Token) :
    significant (ts ++ us) = significant ts ++ significant us := List.filter_append ..

theorem significant_cons_of_trivia {t : Token} (h : t.isTrivia = true) (ts : List Token) :
    significant (t :: ts) = significant ts := by
  simp [significant, h]

theorem significant_cons {t : Token} (h : t.isTrivia = false) (ts : List Token) :
    significant (t :: ts) = t :: significant ts := by
  simp [significant, h]

theorem isTrivia_iff {t : Token} : t.isTrivia = true ↔ t.kind = .space ∨ t.kind = .comment := by
  rw [isTrivia]
  cases t.kind <;> simp [TokenKind.isTrivia]

theorem isStop_of_trivia {t : Token} (h : t.isTrivia = true) : Segment.isStop t = false := by
  rcases isTrivia_iff.mp h with h | h <;> simp [Segment.isStop, h]

end Token

namespace Account

variable {σ : Type}

/-- An account passes over white space and comments, on states that it comes to. -/
structure Skips (a : Account σ) (Valid : σ → Prop) : Prop where
  start : Valid a.start
  after : ∀ {s}, Valid s → ∀ t, Valid (a.after s t)
  trivia : ∀ {s}, Valid s → ∀ {t : Token}, t.isTrivia = true → a.after s t = s

variable {a : Account σ} {Valid : σ → Prop} {s : σ}

theorem Skips.afterAll_significant (h : a.Skips Valid) (hs : Valid s) (ts : List Token) :
    a.afterAll s (Token.significant ts) = a.afterAll s ts := by
  induction ts generalizing s with
  | nil => rfl
  | cons t ts ih =>
    cases ht : t.isTrivia with
    | true =>
      rw [Token.significant_cons_of_trivia ht, ih hs, afterAll, afterAll, List.foldl_cons, h.trivia hs ht]
    | false =>
      rw [Token.significant_cons ht]
      exact ih (h.after hs t)

theorem Skips.uncut_significant (h : a.Skips Valid) (hs : Valid s) (ts : List Token) :
    a.Uncut s (Token.significant ts) ↔ a.Uncut s ts := by
  induction ts generalizing s with
  | nil => rfl
  | cons t ts ih =>
    cases ht : t.isTrivia with
    | true =>
      rw [Token.significant_cons_of_trivia ht, ih hs, uncut_cons, h.trivia hs ht]
      simp [Token.isStop_of_trivia ht]
    | false => rw [Token.significant_cons ht, uncut_cons, uncut_cons, ih (h.after hs t)]

/-- Runs that differ in white space and comments only are both whole or both not. -/
theorem Skips.whole_congr (h : a.Skips Valid) {ts us : List Token}
    (hts : Token.significant ts = Token.significant us) : a.Whole ts ↔ a.Whole us := by
  have hiff : ∀ vs, a.Whole vs ↔ a.Whole (Token.significant vs) := by
    intro vs
    constructor
    · intro hw
      refine ⟨(h.uncut_significant h.start vs).mpr hw.uncut, ?_⟩
      rw [h.afterAll_significant h.start]
      exact hw.closed
    · intro hw
      refine ⟨(h.uncut_significant h.start vs).mp hw.uncut, ?_⟩
      rw [← h.afterAll_significant h.start]
      exact hw.closed
  rw [hiff ts, hiff us, hts]

end Account

/-! ### Heads of statements -/

namespace Segment

/-- The account for the head of a statement: the closing brackets that are missing. -/
def headAccount : Account (List TokenKind) := ⟨[], missing, List.isEmpty⟩

theorem splitHead_eq (closers : List TokenKind) (ts : List Token) :
    splitHead closers ts = headAccount.split closers ts := by
  induction ts generalizing closers with
  | nil => rfl
  | cons t ts ih =>
    rw [splitHead, Account.split, ih]
    simp [headAccount]

/-- Missing brackets are closing ones. -/
def Closers (closers : List TokenKind) : Prop := ∀ kind ∈ closers, kind = .rightParen ∨ kind = .rightBracket

/-- What a token does to the closing brackets that are missing. -/
theorem missing_cases (closers : List TokenKind) (t : Token) :
    (t.kind = .leftParen ∧ missing closers t = .rightParen :: closers) ∨
    (t.kind = .leftBracket ∧ missing closers t = .rightBracket :: closers) ∨
    (t.kind ≠ .leftParen ∧ t.kind ≠ .leftBracket ∧ closers = t.kind :: missing closers t) ∨
    (t.kind ≠ .leftParen ∧ t.kind ≠ .leftBracket ∧ closers.head? ≠ some t.kind ∧ missing closers t = closers) := by
  unfold missing
  split
  · rename_i h
    exact .inl ⟨h, rfl⟩
  · rename_i h
    exact .inr (.inl ⟨h, rfl⟩)
  · rename_i kind h₁ h₂
    cases closers with
    | nil => exact .inr (.inr (.inr ⟨h₁, h₂, nofun, rfl⟩))
    | cons closer outer =>
      by_cases h : t.kind = closer
      · exact .inr (.inr (.inl ⟨h₁, h₂, by simp [h]⟩))
      · exact .inr (.inr (.inr ⟨h₁, h₂, by simpa using Ne.symm h, by simp [h]⟩))

theorem Closers.missing {closers : List TokenKind} (h : Closers closers) (t : Token) :
    Closers (missing closers t) := by
  rcases missing_cases closers t with ⟨-, he⟩ | ⟨-, he⟩ | ⟨-, -, he⟩ | ⟨-, -, -, he⟩
  · rw [he]
    exact List.forall_mem_cons.mpr ⟨.inl rfl, h⟩
  · rw [he]
    exact List.forall_mem_cons.mpr ⟨.inr rfl, h⟩
  · rw [he] at h
    exact (List.forall_mem_cons.mp h).2
  · rwa [he]

theorem missing_of_trivia {closers : List TokenKind} (h : Closers closers) {t : Token}
    (ht : t.isTrivia = true) : missing closers t = closers := by
  have hkind := Token.isTrivia_iff.mp ht
  rcases missing_cases closers t with ⟨hk, -⟩ | ⟨hk, -⟩ | ⟨-, -, he⟩ | ⟨-, -, -, he⟩
  · simp [hk] at hkind
  · simp [hk] at hkind
  · rw [he] at h
    have := h t.kind List.mem_cons_self
    rcases hkind with hk | hk <;> simp [hk] at this
  · exact he

theorem headAccount_skips : headAccount.Skips Closers := ⟨nofun, Closers.missing, missing_of_trivia⟩

/-- A run whose missing brackets are in `closers` has all of them behind it, if none is missing there. -/
theorem exists_of_closed {closers : List TokenKind} {ts : List Token}
    (h : headAccount.closed (headAccount.afterAll closers ts) = true) {kind : TokenKind}
    (hk : kind ∈ closers) : ∃ t ∈ ts, t.kind = kind := by
  induction ts generalizing closers with
  | nil =>
    obtain rfl : closers = [] := List.isEmpty_iff.mp h
    cases hk
  | cons t ts ih =>
    by_cases ht : t.kind = kind
    · exact ⟨t, List.mem_cons_self, ht⟩
    · have hmem : kind ∈ missing closers t := by
        rcases missing_cases closers t with ⟨-, he⟩ | ⟨-, he⟩ | ⟨-, -, he⟩ | ⟨-, -, -, he⟩
        · rw [he]
          exact List.mem_cons_of_mem _ hk
        · rw [he]
          exact List.mem_cons_of_mem _ hk
        · rw [he] at hk
          exact (List.mem_cons.mp hk).resolve_left fun e => ht e.symm
        · rwa [he]
      obtain ⟨t', ht', hkind⟩ := ih h hmem
      exact ⟨t', List.mem_cons_of_mem _ ht', hkind⟩

theorem parensClosed_of_closed {closers : List TokenKind} {ts : List Token}
    (h : headAccount.closed (headAccount.afterAll closers ts) = true) : Token.ParensClosed ts := by
  induction ts generalizing closers with
  | nil => trivial
  | cons t ts ih =>
    refine ⟨fun ht => ?_, ih h⟩
    have hts : headAccount.closed (headAccount.afterAll (missing closers t) ts) = true := h
    exact exists_of_closed hts (by simp [missing, ht])

/-- No bracket is missing behind a run that leaves none open. -/
theorem closed_of_unclosed? {closers : List TokenKind} {opened? : Option Token} {ts : List Token}
    (h : unclosed? closers opened? ts = none) (ho : closers ≠ [] → opened? ≠ none) :
    headAccount.closed (headAccount.afterAll closers ts) = true := by
  induction ts generalizing closers opened? with
  | nil =>
    unfold unclosed? at h
    split at h
    · rename_i hc
      exact List.isEmpty_iff.mpr hc
    · rename_i hc
      exact absurd h (ho hc)
  | cons t ts ih =>
    refine ih h fun _ => ?_
    split
    · nofun
    · rename_i hc
      exact ho hc

theorem any_outside_significant {closers : List TokenKind} (h : Closers closers) (ts : List Token) :
    (outside closers (Token.significant ts)).any (·.kind == .colon) =
      (outside closers ts).any (·.kind == .colon) := by
  induction ts generalizing closers with
  | nil => rfl
  | cons t ts ih =>
    cases ht : t.isTrivia with
    | true =>
      have hkind : (t.kind == .colon) = false := by
        rcases Token.isTrivia_iff.mp ht with hk | hk <;> simp [hk]
      rw [Token.significant_cons_of_trivia ht, ih h, outside, missing_of_trivia h ht]
      split
      · rw [List.any_cons, hkind, Bool.false_or]
      · rfl
    | false =>
      rw [Token.significant_cons ht, outside, outside]
      split
      · rw [List.any_cons, List.any_cons, ih (h.missing t)]
      · exact ih (h.missing t)

/-! ### Parameters of at-rules -/

/-- The account for the parameters of an at-rule: how many brackets are open. -/
def paramsAccount : Account Nat := ⟨0, depthAfter, (· == 0)⟩

theorem splitParams_eq (depth : Nat) (ts : List Token) :
    splitParams depth ts = paramsAccount.split depth ts := by
  induction ts generalizing depth with
  | nil => rfl
  | cons t ts ih =>
    rw [splitParams, Account.split, ih]
    simp [paramsAccount]

theorem paramsAccount_skips : paramsAccount.Skips fun _ => True := by
  refine ⟨trivial, fun _ _ => trivial, fun _ t ht => ?_⟩
  rcases Token.isTrivia_iff.mp ht with hk | hk <;> simp [paramsAccount, depthAfter, hk]

end Segment

/-- Statements that differ in white space and comments only have both a colon outside their brackets or
both not. -/
theorem Node.hasColon_congr {ts us : List Token} (h : Token.significant ts = Token.significant us) :
    hasColon ts = hasColon us := by
  have hc : Segment.Closers [] := nofun
  rw [hasColon, ← Segment.any_outside_significant hc, h, Segment.any_outside_significant hc, hasColon]

/-! ### Brackets closed by their own kind -/

namespace Token

/-- How many brackets of a kind are open behind a token, if `n` are before it. -/
def openAfter (opener closer : TokenKind) (n : Nat) (t : Token) : Nat :=
  if t.kind = opener then n + 1 else if t.kind = closer then n - 1 else n

/-- Every `(` and every `[` has a `)` or a `]` behind it, one for each. -/
def Closed (ts : List Token) : Prop :=
  ts.foldl (openAfter .leftParen .rightParen) 0 = 0 ∧ ts.foldl (openAfter .leftBracket .rightBracket) 0 = 0

instance (ts : List Token) : Decidable (Closed ts) := inferInstanceAs (Decidable (_ ∧ _))

theorem exists_of_openAfter {opener closer : TokenKind} {n : Nat} {ts : List Token}
    (h : ts.foldl (openAfter opener closer) n = 0) (hn : n ≠ 0) : ∃ t ∈ ts, t.kind = closer := by
  induction ts generalizing n with
  | nil => exact absurd h hn
  | cons t ts ih =>
    by_cases ht : t.kind = closer
    · exact ⟨t, List.mem_cons_self, ht⟩
    · have hne : openAfter opener closer n t ≠ 0 := by
        rw [openAfter, if_neg ht]
        split <;> omega
      obtain ⟨t', ht', hkind⟩ := ih h hne
      exact ⟨t', List.mem_cons_of_mem _ ht', hkind⟩

theorem parensClosed_of_openAfter {n : Nat} {ts : List Token}
    (h : ts.foldl (openAfter .leftParen .rightParen) n = 0) : ParensClosed ts := by
  induction ts generalizing n with
  | nil => trivial
  | cons t ts ih =>
    refine ⟨fun ht => exists_of_openAfter h ?_, ih h⟩
    rw [openAfter, if_pos ht]
    exact Nat.succ_ne_zero n

/-- The brackets of both kinds together are at least as many as an at-rule counts. -/
theorem depthAfter_le {d p b : Nat} (h : d ≤ p + b) (ts : List Token) :
    ts.foldl Segment.depthAfter d ≤
      ts.foldl (openAfter .leftParen .rightParen) p + ts.foldl (openAfter .leftBracket .rightBracket) b := by
  induction ts generalizing d p b with
  | nil => exact h
  | cons t ts ih =>
    refine ih ?_
    unfold Segment.depthAfter openAfter
    cases t.kind <;> simp <;> omega

theorem Closed.closed {ts : List Token} (h : Closed ts) :
    Segment.paramsAccount.closed (Segment.paramsAccount.afterAll 0 ts) = true := by
  have := depthAfter_le (Nat.zero_le (0 + 0)) ts
  rw [h.1, h.2] at this
  exact beq_iff_eq.mpr (Nat.le_zero.mp this)

/-- What does not depend on the places of tokens holds alike of tokens that differ in nothing else. -/
theorem congr_of_bare {P : List Token → Prop} (hbare : ∀ vs, P (vs.map bare) ↔ P vs) {ts us : List Token}
    (h : ts.map bare = us.map bare) : P ts ↔ P us := by
  rw [← hbare ts, h, hbare us]

theorem depthAfter_map_bare (ts : List Token) (d : Nat) :
    (ts.map bare).foldl Segment.depthAfter d = ts.foldl Segment.depthAfter d := by
  rw [List.foldl_map]
  rfl

theorem parensClosed_map_bare (ts : List Token) : ParensClosed (ts.map bare) ↔ ParensClosed ts := by
  induction ts with
  | nil => exact Iff.rfl
  | cons t ts ih =>
    rw [List.map_cons, ParensClosed, ParensClosed, ih]
    simp [bare]

end Token
end Mixsheet
