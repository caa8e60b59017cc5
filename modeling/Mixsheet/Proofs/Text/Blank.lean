import Mathlib.Data.List.TakeWhile
import Mixsheet.Text.Blank

/-! # Trimming

A trimmed text is what stands between the white space at its ends, and it has none of its own there. -/

namespace Mixsheet.Text

/-- The text is white space. -/
def Blank (cs : List Char) : Prop := ∀ c ∈ cs, isBlank c = true

/-- The text neither starts nor ends with white space. -/
structure Tight (cs : List Char) : Prop where
  head : ∀ c ∈ cs.head?, isBlank c = false
  last : ∀ c ∈ cs.getLast?, isBlank c = false

theorem blank_nil : Blank [] := nofun

theorem blank_append {cs ds : List Char} : Blank (cs ++ ds) ↔ Blank cs ∧ Blank ds := List.forall_mem_append

theorem Blank.reverse {cs : List Char} (h : Blank cs) : Blank cs.reverse :=
  fun c hc => h c (List.mem_reverse.mp hc)

theorem blank_replicate (n : Nat) : Blank (List.replicate n ' ') := by
  intro c hc
  obtain rfl := List.eq_of_mem_replicate hc
  decide

theorem blank_space : Blank [' '] := blank_replicate 1

theorem Tight.cons {c : Char} {cs : List Char} (hc : isBlank c = false)
    (hcs : ∀ d ∈ cs.getLast?, isBlank d = false) : Tight (c :: cs) := by
  constructor
  · intro d hd
    obtain rfl := Option.some.inj hd
    exact hc
  · intro d hd
    rw [List.getLast?_cons] at hd
    obtain rfl := Option.some.inj hd
    cases hl : cs.getLast? with
    | none => exact hc
    | some e => exact hcs e hl

theorem dropWhile_eq_of_head {cs : List Char} (h : ∀ c ∈ cs.head?, isBlank c = false) :
    cs.dropWhile isBlank = cs := by
  cases cs with
  | nil => rfl
  | cons c cs => exact List.dropWhile_cons_of_neg (Bool.eq_false_iff.mp (h c rfl))

theorem takeWhile_eq_of_head {cs : List Char} (h : ∀ c ∈ cs.head?, isBlank c = false) :
    cs.takeWhile isBlank = [] := by
  cases cs with
  | nil => rfl
  | cons c cs => exact List.takeWhile_cons_of_neg (Bool.eq_false_iff.mp (h c rfl))

theorem Tight.trim_eq {cs : List Char} (h : Tight cs) : trim cs = cs := by
  have hlast : cs.reverse.dropWhile isBlank = cs.reverse :=
    dropWhile_eq_of_head fun c hc => h.last c (by rwa [List.head?_reverse] at hc)
  rw [trim, trimStart, dropWhile_eq_of_head h.head, trimEnd, hlast, List.reverse_reverse]

theorem trimEnd_append {cs ds : List Char} (h : Blank ds) : trimEnd (cs ++ ds) = trimEnd cs := by
  rw [trimEnd, List.reverse_append, List.dropWhile_append_of_pos h.reverse, trimEnd]

/-- White space behind a text is trimmed with what the text ends with. -/
theorem trim_append {cs ds : List Char} (h : Blank ds) : trim (cs ++ ds) = trim cs := by
  rw [trim, trimStart, List.dropWhile_append]
  split
  · rename_i hc
    rw [List.isEmpty_iff] at hc
    rw [trim, trimStart, hc, List.dropWhile_eq_nil_iff.mpr h]
  · exact trimEnd_append h

/-- A text is its trimmed text between white space. -/
theorem exists_eq_trim (cs : List Char) : ∃ a b, cs = a ++ trim cs ++ b ∧ Blank a ∧ Blank b := by
  refine ⟨cs.takeWhile isBlank, ((trimStart cs).reverse.takeWhile isBlank).reverse, ?_, ?_, ?_⟩
  · rw [List.append_assoc, trim, trimEnd, ← List.reverse_append, List.takeWhile_append_dropWhile,
      List.reverse_reverse, trimStart, List.takeWhile_append_dropWhile]
  · exact fun c hc => List.mem_takeWhile_imp hc
  · exact fun c hc => List.mem_takeWhile_imp (List.mem_reverse.mp hc)

theorem head_dropWhile (cs : List Char) : ∀ c ∈ (cs.dropWhile isBlank).head?, isBlank c = false := by
  intro c hc
  have := List.head?_dropWhile_not isBlank cs
  rw [hc] at this
  simpa using this

theorem trim_tight (cs : List Char) : Tight (trim cs) := by
  constructor
  · intro c hc
    have hprefix := (List.dropWhile_suffix (l := (trimStart cs).reverse) isBlank).reverse
    rw [List.reverse_reverse] at hprefix
    obtain ⟨ds, hds⟩ := hprefix
    refine head_dropWhile cs c ?_
    rw [← trimStart, ← hds, List.head?_append]
    exact Option.or_eq_some_iff.mpr (.inl hc)
  · intro c hc
    rw [trim, trimEnd, List.getLast?_reverse] at hc
    exact head_dropWhile _ c hc

theorem trim_eq_nil_iff {cs : List Char} : trim cs = [] ↔ Blank cs := by
  constructor
  · intro h
    obtain ⟨a, b, hab, ha, hb⟩ := exists_eq_trim cs
    rw [hab, h, List.append_nil]
    exact blank_append.mpr ⟨ha, hb⟩
  · intro h
    have := @trim_append [] cs h
    rwa [List.nil_append] at this

theorem trim_between {a cs b : List Char} (ha : Blank a) (hb : Blank b) : trim (a ++ cs ++ b) = trim cs := by
  rw [trim_append hb, trim, trimStart, List.dropWhile_append_of_pos ha]
  rfl

end Mixsheet.Text
