import Mathlib.Data.List.Basic
import Mixsheet.Text.Pattern

/-! # The texts of a pattern

`Matches` says which texts a pattern stands for. What is left of a pattern after a character stands for what may follow
that character, so a search with all that is left of it finds just the texts that it stands for. -/

namespace Mixsheet.Text.Pattern

/-- The pattern stands for the text. -/
inductive Matches : Pattern → List Char → Prop where
  | empty : Matches .empty []
  | one {cls : CharClass} {c : Char} (mem : cls.contains c = true) : Matches (.one cls) [c]
  | seq {p q : Pattern} {as bs : List Char} (first : Matches p as) (second : Matches q bs) :
    Matches (.seq p q) (as ++ bs)
  | left {p q : Pattern} {cs : List Char} (first : Matches p cs) : Matches (.either p q) cs
  | right {p q : Pattern} {cs : List Char} (second : Matches q cs) : Matches (.either p q) cs
  | stop {p : Pattern} : Matches (.many p) []
  | again {p : Pattern} {as bs : List Char} (first : Matches p as) (rest : Matches (.many p) bs) :
    Matches (.many p) (as ++ bs)

variable {p q : Pattern} {c : Char} {cs : List Char}

theorem matches_empty : Matches .empty cs ↔ cs = [] := by
  constructor
  · rintro ⟨⟩
    rfl
  · rintro rfl
    exact .empty

theorem matches_one {cls : CharClass} : Matches (.one cls) cs ↔ ∃ c, cs = [c] ∧ cls.contains c = true := by
  constructor
  · rintro ⟨⟩
    exact ⟨_, rfl, ‹_›⟩
  · rintro ⟨c, rfl, hc⟩
    exact .one hc

theorem matches_seq : Matches (.seq p q) cs ↔ ∃ as bs, cs = as ++ bs ∧ Matches p as ∧ Matches q bs := by
  constructor
  · rintro ⟨⟩
    exact ⟨_, _, rfl, ‹_›, ‹_›⟩
  · rintro ⟨as, bs, rfl, hp, hq⟩
    exact .seq hp hq

theorem matches_either : Matches (.either p q) cs ↔ Matches p cs ∨ Matches q cs := by
  constructor
  · rintro ⟨⟩
    · exact .inl ‹_›
    · exact .inr ‹_›
  · rintro (hp | hq)
    · exact .left hp
    · exact .right hq

/-- A repetition that is not empty starts with a text of the pattern that is not empty. -/
theorem matches_many_cons : Matches (.many p) (c :: cs) ↔
    ∃ as bs, cs = as ++ bs ∧ Matches p (c :: as) ∧ Matches (.many p) bs := by
  constructor
  · intro h
    generalize hq : Pattern.many p = q at h
    generalize hds : c :: cs = ds at h
    induction h with
    | @again p' as bs first rest _ ih =>
      obtain rfl := Pattern.many.inj hq
      cases as with
      | nil => exact ih hq hds
      | cons a as =>
        obtain ⟨rfl, rfl⟩ := List.cons.inj hds
        exact ⟨as, bs, rfl, first, rest⟩
    | stop => cases hds
    | _ => cases hq
  · rintro ⟨as, bs, rfl, hp, hrest⟩
    exact .again hp hrest

theorem matches_seq_cons : Matches (.seq p q) (c :: cs) ↔
    (∃ as bs, cs = as ++ bs ∧ Matches p (c :: as) ∧ Matches q bs) ∨ (Matches p [] ∧ Matches q (c :: cs)) := by
  rw [matches_seq]
  constructor
  · rintro ⟨as, bs, heq, hp, hq⟩
    cases as with
    | nil =>
      obtain rfl : c :: cs = bs := heq
      exact .inr ⟨hp, hq⟩
    | cons a as =>
      obtain ⟨rfl, rfl⟩ := List.cons.inj heq
      exact .inl ⟨as, bs, rfl, hp, hq⟩
  · rintro (⟨as, bs, rfl, hp, hq⟩ | ⟨hp, hq⟩)
    · exact ⟨c :: as, bs, rfl, hp, hq⟩
    · exact ⟨[], c :: cs, rfl, hp, hq⟩

theorem nullable_iff : p.nullable = true ↔ Matches p [] := by
  induction p with
  | empty => exact iff_of_true rfl .empty
  | one cls => exact iff_of_false nofun (by simp [matches_one])
  | seq p q hp hq => simp [nullable, hp, hq, matches_seq]
  | either p q hp hq => simp [nullable, hp, hq, matches_either]
  | many p _ => exact iff_of_true rfl .stop

/-! ### What is left -/

/-- One of the patterns stands for the text. -/
def AnyMatches (ps : List Pattern) (cs : List Char) : Prop := ∃ p ∈ ps, Matches p cs

theorem anyMatches_append {ps qs : List Pattern} : AnyMatches (ps ++ qs) cs ↔ AnyMatches ps cs ∨ AnyMatches qs cs := by
  simp only [AnyMatches, List.mem_append, or_and_right, exists_or]

theorem anyMatches_before {ps : List Pattern} :
    AnyMatches (ps.map (before q)) cs ↔ ∃ as bs, cs = as ++ bs ∧ AnyMatches ps as ∧ Matches q bs := by
  have hbefore : ∀ p, Matches (before q p) cs ↔ ∃ as bs, cs = as ++ bs ∧ Matches p as ∧ Matches q bs := by
    intro p
    cases p with
    | empty => simp [before, matches_empty]
    | _ => exact matches_seq
  constructor
  · rintro ⟨r, hr, hmatches⟩
    obtain ⟨p, hp, rfl⟩ := List.mem_map.mp hr
    obtain ⟨as, bs, rfl, hfirst, hsecond⟩ := (hbefore p).mp hmatches
    exact ⟨as, bs, rfl, ⟨p, hp, hfirst⟩, hsecond⟩
  · rintro ⟨as, bs, rfl, ⟨p, hp, hfirst⟩, hsecond⟩
    exact ⟨_, List.mem_map_of_mem hp, (hbefore p).mpr ⟨as, bs, rfl, hfirst, hsecond⟩⟩

/-- What is left of a pattern after a character stands for what may follow the character in its texts. -/
theorem anyMatches_next : AnyMatches (p.next c) cs ↔ Matches p (c :: cs) := by
  induction p generalizing cs with
  | empty => simp [next, AnyMatches, matches_empty]
  | one cls =>
    by_cases hc : cls.contains c = true <;> simp [next, AnyMatches, hc, matches_empty, matches_one]
  | seq p q hp hq =>
    have hsecond : AnyMatches (if p.nullable then q.next c else []) cs ↔ Matches p [] ∧ Matches q (c :: cs) := by
      rw [← nullable_iff, ← hq]
      split <;> simp [AnyMatches, *]
    simp only [next, anyMatches_append, anyMatches_before, hsecond, hp, matches_seq_cons]
  | either p q hp hq => rw [next, anyMatches_append, hp, hq, matches_either]
  | many p hp => simp only [next, anyMatches_before, hp, matches_many_cons]

theorem any_nullable_iff {ps : List Pattern} : ps.any nullable = true ↔ AnyMatches ps [] := by
  simp only [AnyMatches, List.any_eq_true, nullable_iff]

theorem anyMatches_flatMap_next {ps : List Pattern} :
    AnyMatches (ps.flatMap (next c)).eraseDups cs ↔ AnyMatches ps (c :: cs) := by
  constructor
  · rintro ⟨r, hr, hmatches⟩
    obtain ⟨p, hp, hr⟩ := List.mem_flatMap.mp (List.mem_eraseDups.mp hr)
    exact ⟨p, hp, anyMatches_next.mp ⟨r, hr, hmatches⟩⟩
  · rintro ⟨p, hp, hmatches⟩
    obtain ⟨r, hr, hmatches⟩ := anyMatches_next.mpr hmatches
    exact ⟨r, List.mem_eraseDups.mpr (List.mem_flatMap.mpr ⟨p, hp, hr⟩), hmatches⟩

/-! ### Whole texts and parts of them -/

theorem anyMatches_iff {ps : List Pattern} : anyMatches ps cs = true ↔ AnyMatches ps cs := by
  induction cs generalizing ps with
  | nil => exact any_nullable_iff
  | cons c cs ih => rw [anyMatches, ih, anyMatches_flatMap_next]

theorem matchesText_iff : p.matchesText cs = true ↔ Matches p cs := by
  rw [matchesText, anyMatches_iff, AnyMatches]
  simp

/-- A part of the text is a text of the pattern. -/
def Occurs (p : Pattern) (cs : List Char) : Prop :=
  ∃ front middle behind, cs = front ++ middle ++ behind ∧ Matches p middle

/-- The text starts with a text of one of the patterns. -/
def Starts (ps : List Pattern) (cs : List Char) : Prop :=
  ∃ middle behind, cs = middle ++ behind ∧ AnyMatches ps middle

theorem starts_nil {ps : List Pattern} : Starts ps [] ↔ AnyMatches ps [] := by
  constructor
  · rintro ⟨middle, behind, heq, hmatches⟩
    obtain ⟨rfl, -⟩ := List.append_eq_nil_iff.mp heq.symm
    exact hmatches
  · exact fun h => ⟨[], [], rfl, h⟩

theorem starts_cons {ps : List Pattern} :
    Starts ps (c :: cs) ↔ AnyMatches ps [] ∨ Starts (ps.flatMap (next c)).eraseDups cs := by
  constructor
  · rintro ⟨middle, behind, heq, hmatches⟩
    cases middle with
    | nil => exact .inl hmatches
    | cons d middle =>
      obtain ⟨rfl, rfl⟩ := List.cons.inj heq
      exact .inr ⟨middle, behind, rfl, anyMatches_flatMap_next.mpr hmatches⟩
  · rintro (hmatches | ⟨middle, behind, rfl, hmatches⟩)
    · exact ⟨[], c :: cs, rfl, hmatches⟩
    · exact ⟨c :: middle, behind, rfl, anyMatches_flatMap_next.mp hmatches⟩

theorem starts_pattern_cons {ps : List Pattern} : Starts (p :: ps) cs ↔ Starts [p] cs ∨ Starts ps cs := by
  simp only [Starts, AnyMatches, List.exists_mem_cons_iff, List.not_mem_nil, false_and, exists_false, or_false,
    and_or_left, exists_or]

theorem occurs_nil : Occurs p [] ↔ Starts [p] [] := by
  simp [Occurs, Starts, AnyMatches]

theorem occurs_cons : Occurs p (c :: cs) ↔ Starts [p] (c :: cs) ∨ Occurs p cs := by
  constructor
  · rintro ⟨front, middle, behind, heq, hmatches⟩
    cases front with
    | nil => exact .inl ⟨middle, behind, heq, p, List.mem_singleton_self p, hmatches⟩
    | cons d front =>
      obtain ⟨rfl, rfl⟩ := List.cons.inj heq
      exact .inr ⟨front, middle, behind, rfl, hmatches⟩
  · rintro (⟨middle, behind, heq, q, hq, hmatches⟩ | ⟨front, middle, behind, rfl, hmatches⟩)
    · obtain rfl := List.mem_singleton.mp hq
      exact ⟨[], middle, behind, heq, hmatches⟩
    · exact ⟨c :: front, middle, behind, rfl, hmatches⟩

/-- The search finds a text of the pattern, or one at the start that a match begun before goes on with. -/
theorem occursFrom_iff {ps : List Pattern} : occursFrom p ps cs = true ↔ Occurs p cs ∨ Starts ps cs := by
  induction cs generalizing ps with
  | nil => rw [occursFrom, Bool.or_false, any_nullable_iff, ← starts_nil, starts_pattern_cons, occurs_nil]
  | cons c cs ih =>
    rw [occursFrom, Bool.or_eq_true, ih, any_nullable_iff, or_left_comm, ← starts_cons, starts_pattern_cons, occurs_cons]
    tauto

/-- A search finds the pattern just if a part of the text is a text of it. -/
theorem occursIn_iff : p.occursIn cs = true ↔ Occurs p cs := by
  rw [occursIn, occursFrom_iff]
  simp [Starts, AnyMatches]

/-! ### Patterns of one class -/

theorem matches_many_one {cls : CharClass} : Matches (.many (.one cls)) cs ↔ ∀ c ∈ cs, cls.contains c = true := by
  induction cs with
  | nil => exact iff_of_true .stop (List.forall_mem_nil _)
  | cons c cs ih =>
    rw [matches_many_cons, List.forall_mem_cons, ← ih]
    constructor
    · rintro ⟨as, bs, rfl, hfirst, hrest⟩
      obtain ⟨d, heq, hd⟩ := matches_one.mp hfirst
      obtain ⟨rfl, rfl⟩ := List.cons.inj heq
      exact ⟨hd, hrest⟩
    · rintro ⟨hc, hrest⟩
      exact ⟨[], cs, rfl, .one hc, hrest⟩

theorem matches_some_one {cls : CharClass} :
    Matches (some (.one cls)) cs ↔ cs ≠ [] ∧ ∀ c ∈ cs, cls.contains c = true := by
  rw [some, matches_seq]
  constructor
  · rintro ⟨as, bs, rfl, hfirst, hrest⟩
    obtain ⟨d, rfl, hd⟩ := matches_one.mp hfirst
    exact ⟨List.cons_ne_nil _ _, List.forall_mem_cons.mpr ⟨hd, matches_many_one.mp hrest⟩⟩
  · rintro ⟨hne, hall⟩
    obtain ⟨d, ds, rfl⟩ := List.exists_cons_of_ne_nil hne
    obtain ⟨hd, hds⟩ := List.forall_mem_cons.mp hall
    exact ⟨[d], ds, rfl, .one hd, matches_many_one.mpr hds⟩

theorem matches_exactly {d : Char} : Matches (exactly d) cs ↔ cs = [d] := by
  simp [exactly, matches_one, CharClass.contains]

theorem matches_optional : Matches (optional p) cs ↔ Matches p cs ∨ cs = [] := by
  rw [optional, matches_either, matches_empty]

end Mixsheet.Text.Pattern
