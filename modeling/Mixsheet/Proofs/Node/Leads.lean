import Mixsheet.Proofs.Node.Places
import Mixsheet.Proofs.Token.Trim

/-! # Pieces of the text of a stylesheet

A piece of text that is one segment wherever it stands takes what is read of a stylesheet one step
further (`Leads`). A text made of such pieces and white space is read piece by piece (`Yields`). -/

namespace Mixsheet.Node

open Token Text

/-- Tokens that are read alike wherever they stand, and that are one segment, `s` without its places. -/
structure Stands (ts : List Token) (s : Segment) : Prop where
  start : ∃ t ∈ ts.head?, t.kind ≠ .space
  reads : ∀ k, Reads false ts k
  last : endsUrl false ts = false
  cut : ∀ us, (Segment.ofTokens (ts ++ us)).map Segment.bare = s :: (Segment.ofTokens us).map Segment.bare

/-- The text is one segment, wherever it stands, that takes what is read from `p` to `q`. -/
def Leads (cs : List Char) (p q : Progress) : Prop :=
  ∃ ts s, chars ts = cs ∧ Stands ts s ∧ p.step s = .ok q

/-- The text, read behind `p` and to its end, completes the statements. -/
def Yields (p : Progress) (cs : List Char) (nodes : List Node) : Prop :=
  ∃ ts, chars ts = cs ∧ Reads false ts [] ∧
    (p.run ((Segment.ofTokens ts).map Segment.bare)).bind Progress.finish = .ok nodes

/-- What is read, with white space behind it. -/
def Progress.spaced (p : Progress) (cs : List Char) : Progress := { p with spaces := p.spaces ++ .ofList cs }

theorem Stands.head_not_blank {ts : List Token} {s : Segment} (h : Stands ts s) (k : List Char) :
    ∀ c ∈ (chars ts ++ k).head?, isBlank c = false := by
  obtain ⟨t, ht, hkind⟩ := h.start
  cases ts with
  | nil => cases ht
  | cons t' ts =>
    obtain rfl := Option.some.inj ht
    have hr := (h.reads []).1
    intro c hc
    rw [chars_cons, List.append_assoc, List.head?_append_of_ne_nil _ hr.toList_ne] at hc
    exact (hr.tight hkind).head c hc

theorem readAs_space {w : List Char} (hw : Blank w) (hne : w ≠ []) {k : List Char}
    (hk : ∀ c ∈ k.head?, isBlank c = false) (u : Bool) : ReadAs u (ofKind .space w) k := by
  obtain ⟨c, cs, rfl⟩ := List.exists_cons_of_ne_nil hne
  have hcs : ∀ d ∈ cs, isBlank d = true := fun d hd => hw d (List.mem_cons_of_mem _ hd)
  have hr := @Lexeme.Reading.space u c (cs ++ k) (hw c List.mem_cons_self)
  rw [List.takeWhile_append_of_pos hcs, List.dropWhile_append_of_pos hcs, dropWhile_eq_of_head hk,
    takeWhile_eq_of_head hk, List.append_nil] at hr
  exact ⟨c, cs ++ k, _, hr, rfl, String.toList_ofList, rfl⟩

section Yields

variable {p q : Progress} {cs k : List Char} {nodes : List Node}

theorem yields_nil (h : p.finish = .ok nodes) : Yields p [] nodes :=
  ⟨[], rfl, trivial, by rw [Segment.ofTokens_nil]; exact h⟩

/-- White space before a text goes to the white space before its first statement. -/
theorem Yields.spaced (h : Yields (p.spaced cs) k nodes) (hcs : Blank cs)
    (hk : ∀ c ∈ k.head?, isBlank c = false) : Yields p (cs ++ k) nodes := by
  by_cases hne : cs = []
  · subst hne
    have : p.spaced [] = p := by simp [Progress.spaced]
    rwa [this] at h
  · obtain ⟨ts, rfl, hreads, hrun⟩ := h
    refine ⟨ofKind .space cs :: ts, ?_, ⟨?_, hreads⟩, ?_⟩
    · rw [chars_cons, text_ofKind, String.toList_ofList]
    · rw [List.append_nil]
      exact readAs_space hcs hne hk false
    · rw [Segment.ofTokens_space rfl]
      exact hrun

theorem Leads.yields_append (h : Leads cs p q) (hq : Yields q k nodes) : Yields p (cs ++ k) nodes := by
  obtain ⟨as, s, rfl, hs, hstep⟩ := h
  obtain ⟨ts, rfl, hreads, hrun⟩ := hq
  refine ⟨as ++ ts, chars_append as ts, Reads.append.mpr ⟨hs.reads _, ?_⟩, ?_⟩
  · rwa [hs.last]
  · rw [hs.cut, Progress.run, hstep]
    exact hrun

/-- A text is read by reading the piece it starts with, behind white space, and then the rest. -/
theorem Leads.yields {w : List Char} (h : Leads cs (p.spaced w) q) (hw : Blank w) (hq : Yields q k nodes) :
    Yields p (w ++ (cs ++ k)) nodes := by
  refine (h.yields_append hq).spaced hw ?_
  obtain ⟨ts, s, rfl, hs, -⟩ := h
  exact hs.head_not_blank k

end Yields

/-! ### Braces -/

theorem readAs_punctuation {c : Char} {kind : TokenKind} (h : Lexeme.punctuation? c = some kind)
    (u : Bool) (k : List Char) : ReadAs u (ofKind kind [c]) k :=
  ⟨c, k, ⟨kind, [], k⟩, .punctuation h, rfl, String.toList_ofList, rfl⟩

theorem stands_punctuation (c : Char) {kind : TokenKind} (h : Lexeme.punctuation? c = some kind)
    {s : Segment} (hs : ∀ us, (Segment.ofTokens (ofKind kind [c] :: us)).map Segment.bare =
      s :: (Segment.ofTokens us).map Segment.bare) : Stands [ofKind kind [c]] s := by
  have hkind : kind ≠ .space ∧ kind ≠ .word := by
    have hchar := Lexeme.punctuation?_eq_some.mp h
    constructor <;> (rintro rfl; cases hchar)
  exact ⟨⟨_, rfl, hkind.1⟩, fun k => ⟨readAs_punctuation h false _, trivial⟩, isUrl_of_kind_ne hkind.2, hs⟩

theorem leads_rightBrace {p q : Progress} (h : p.close .none = .ok q) : Leads ['\x7d'] p q := by
  refine ⟨[ofKind .rightBrace ['\x7d']], .close .none, rfl, stands_punctuation '\x7d' rfl fun us => ?_, h⟩
  rw [Segment.ofTokens_rightBrace rfl]
  rfl

/-- A `{` alone opens a rule without a selector. -/
theorem leads_leftBrace (p : Progress) : Leads ['\x7b'] p (p.opened (.rule "") .none .none) := by
  refine ⟨[ofKind .leftBrace ['\x7b']], .statement .none [] (.block .none), rfl,
    stands_punctuation '\x7b' rfl fun us => ?_, rfl⟩
  rw [Segment.ofTokens_leftBrace rfl]
  rfl

end Mixsheet.Node
