import Mathlib.Data.List.Induction
import Mathlib.Data.List.TakeWhile
import Mixsheet.Decimal.Notation

/-! # Whole numbers as text

A whole number is written with decimal digits, any zeros before them, behind a sign or none. The reader takes exactly
these texts. Of a text that goes on, the longest beginning that is an optional sign and digits is found by looking at
one character after the other. -/

namespace Mixsheet.Decimal

/-! ### Digits -/

/-- The text is the digits of the number, the last one last. -/
inductive Numeral : List Char → Nat → Prop where
  | one {d : Nat} (digit : d < 10) : Numeral [Nat.digitChar d] d
  | snoc {cs : List Char} {n d : Nat} (front : Numeral cs n) (digit : d < 10) :
    Numeral (cs ++ [Nat.digitChar d]) (10 * n + d)

theorem isDigit_iff {c : Char} : c.isDigit = true ↔ 48 ≤ c.toNat ∧ c.toNat ≤ 57 := by
  simp only [Char.isDigit, Bool.and_eq_true, decide_eq_true_eq, UInt32.le_iff_toNat_le, ge_iff_le]
  exact Iff.rfl

theorem digitValue_digitChar {d : Nat} (h : d < 10) : digitValue (Nat.digitChar d) = d := by
  have hzero : '0'.toNat = 48 := rfl
  rw [digitValue, Nat.toNat_digitChar_of_lt_ten h, hzero]
  omega

theorem exists_digit {c : Char} (h : c.isDigit = true) :
    digitValue c < 10 ∧ Nat.digitChar (digitValue c) = c := by
  obtain ⟨hlow, hhigh⟩ := isDigit_iff.mp h
  have hvalue : digitValue c = c.toNat - 48 := rfl
  have hlt : digitValue c < 10 := by omega
  refine ⟨hlt, Char.toNat_inj.mp ?_⟩
  rw [Nat.toNat_digitChar_of_lt_ten hlt]
  omega

theorem value_append_singleton (cs : List Char) (c : Char) :
    value (cs ++ [c]) = 10 * value cs + digitValue c := by
  rw [value, List.foldl_append]
  rfl

theorem Numeral.digits {cs : List Char} {n : Nat} (h : Numeral cs n) :
    cs ≠ [] ∧ (∀ c ∈ cs, c.isDigit = true) ∧ value cs = n := by
  have hdigit {d : Nat} (hd : d < 10) : (Nat.digitChar d).isDigit = true := by
    rw [Nat.isDigit_digitChar, decide_eq_true hd]
  induction h with
  | @one d digit =>
    refine ⟨List.cons_ne_nil _ _, List.forall_mem_singleton.mpr (hdigit digit), ?_⟩
    have hvalue := value_append_singleton [] (Nat.digitChar d)
    rwa [digitValue_digitChar digit, show value [] = 0 from rfl, Nat.mul_zero, Nat.zero_add] at hvalue
  | snoc front digit ih =>
    obtain ⟨-, hdigits, hvalue⟩ := ih
    refine ⟨by simp, List.forall_mem_append.mpr ⟨hdigits, List.forall_mem_singleton.mpr (hdigit digit)⟩, ?_⟩
    rw [value_append_singleton, hvalue, digitValue_digitChar digit]

theorem numeral_value {cs : List Char} (hne : cs ≠ []) (hdigits : ∀ c ∈ cs, c.isDigit = true) :
    Numeral cs (value cs) := by
  induction cs using List.reverseRecOn with
  | nil => exact absurd rfl hne
  | append_singleton cs c ih =>
    obtain ⟨hfront, hlast⟩ := List.forall_mem_append.mp hdigits
    obtain ⟨hlt, hchar⟩ := exists_digit (hlast c List.mem_cons_self)
    rw [value_append_singleton]
    by_cases hcs : cs = []
    · have hone := Numeral.one hlt
      rw [hchar] at hone
      subst hcs
      rwa [show value [] = 0 from rfl, Nat.mul_zero, Nat.zero_add]
    · have hsnoc := Numeral.snoc (ih hcs hfront) hlt
      rwa [hchar] at hsnoc

/-- The digits of a number are digits, and all such texts are those of their value. -/
theorem numeral_iff {cs : List Char} {n : Nat} :
    Numeral cs n ↔ cs ≠ [] ∧ (∀ c ∈ cs, c.isDigit = true) ∧ value cs = n := by
  refine ⟨Numeral.digits, ?_⟩
  rintro ⟨hne, hdigits, rfl⟩
  exact numeral_value hne hdigits

/-! ### Signs -/

/-- The text is the digits of the magnitude of the number, behind its sign; no sign is a plus sign. -/
inductive Integral : List Char → Int → Prop where
  | bare {cs : List Char} {n : Nat} (digits : Numeral cs n) : Integral cs n
  | plus {cs : List Char} {n : Nat} (digits : Numeral cs n) : Integral ('+' :: cs) n
  | minus {cs : List Char} {n : Nat} (digits : Numeral cs n) : Integral ('-' :: cs) (-n)

theorem takeSign_cases (cs : List Char) : (∃ ds, cs = '+' :: ds ∧ takeSign cs = (false, ds)) ∨
    (∃ ds, cs = '-' :: ds ∧ takeSign cs = (true, ds)) ∨ takeSign cs = (false, cs) := by
  unfold takeSign
  split
  · exact .inl ⟨_, rfl, rfl⟩
  · exact .inr (.inl ⟨_, rfl, rfl⟩)
  · exact .inr (.inr rfl)

theorem takeSign_of_digits {cs : List Char} (h : ∀ c ∈ cs, c.isDigit = true) : takeSign cs = (false, cs) := by
  rcases takeSign_cases cs with ⟨ds, rfl, -⟩ | ⟨ds, rfl, -⟩ | hbare
  · exact absurd (h _ List.mem_cons_self) (by decide)
  · exact absurd (h _ List.mem_cons_self) (by decide)
  · exact hbare

theorem readInt?_iff {negative : Bool} {cs ds : List Char} (hsign : takeSign cs = (negative, ds)) {n : Int} :
    readInt? cs = some n ↔ ∃ m : Nat, Numeral ds m ∧ n = if negative then -(m : Int) else m := by
  simp only [numeral_iff]
  rw [readInt?, hsign]
  dsimp only
  split
  · rename_i hnot
    refine ⟨nofun, ?_⟩
    rintro ⟨m, ⟨hne, hdigits, -⟩, -⟩
    simp [hne, List.all_eq_true.mpr hdigits] at hnot
  · rename_i hdigits
    simp only [Bool.or_eq_true, List.isEmpty_iff, Bool.not_eq_true', not_or, Bool.not_eq_false, List.all_eq_true]
      at hdigits
    constructor
    · intro h
      refine ⟨value ds, ⟨hdigits.1, hdigits.2, rfl⟩, ?_⟩
      cases negative <;> exact (Option.some.inj h).symm
    · rintro ⟨m, ⟨-, -, rfl⟩, rfl⟩
      cases negative <;> rfl

/-- The reader takes the texts of whole numbers. -/
theorem readInt?_eq_some_iff {cs : List Char} {n : Int} : readInt? cs = some n ↔ Integral cs n := by
  constructor
  · intro h
    rcases takeSign_cases cs with ⟨ds, rfl, hsign⟩ | ⟨ds, rfl, hsign⟩ | hsign
    · obtain ⟨m, hm, rfl⟩ := (readInt?_iff hsign).mp h
      exact .plus hm
    · obtain ⟨m, hm, rfl⟩ := (readInt?_iff hsign).mp h
      exact .minus hm
    · obtain ⟨m, hm, rfl⟩ := (readInt?_iff hsign).mp h
      exact .bare hm
  · intro h
    cases h with
    | @bare cs m digits => exact (readInt?_iff (takeSign_of_digits digits.digits.2.1)).mpr ⟨m, digits, rfl⟩
    | @plus cs m digits => exact (readInt?_iff rfl).mpr ⟨m, digits, rfl⟩
    | @minus cs m digits => exact (readInt?_iff rfl).mpr ⟨m, digits, rfl⟩

/-! ### Texts that go on -/

/-- The text is a sign or none, and digits or none. -/
inductive Signed : List Char → Prop where
  | bare {ds : List Char} (digits : ∀ d ∈ ds, d.isDigit = true) : Signed ds
  | sign {c : Char} {ds : List Char} (sign_ : c = '+' ∨ c = '-') (digits : ∀ d ∈ ds, d.isDigit = true) :
    Signed (c :: ds)

/-- The longest beginning of a text that is a sign or none, and digits or none. -/
structure SignedFront (cs front : List Char) : Prop where
  isPrefix : front <+: cs
  signed : Signed front
  longest : ∀ other, other <+: cs → Signed other → other.length ≤ front.length

theorem SignedFront.unique {cs front front' : List Char} (h : SignedFront cs front) (h' : SignedFront cs front') :
    front = front' :=
  (List.prefix_of_prefix_length_le h.isPrefix h'.isPrefix (h'.longest front h.isPrefix h.signed)).eq_of_length
    (Nat.le_antisymm (h'.longest front h.isPrefix h.signed) (h.longest front' h'.isPrefix h'.signed))

theorem not_isDigit_of_sign {c : Char} (h : c = '+' ∨ c = '-') : c.isDigit = false := by
  rcases h with rfl | rfl <;> decide

theorem length_le_takeWhile {p : Char → Bool} {cs ds : List Char} (hstart : ds <+: cs) (hds : ∀ d ∈ ds, p d = true) :
    ds.length ≤ (cs.takeWhile p).length := by
  obtain ⟨rest, rfl⟩ := hstart
  rw [List.takeWhile_append_of_pos hds, List.length_append]
  exact Nat.le_add_right _ _

theorem signedFront_digits {cs : List Char} (h : ∀ c ∈ cs.head?, ¬ (c = '+' ∨ c = '-')) :
    SignedFront cs (cs.takeWhile Char.isDigit) := by
  refine ⟨List.takeWhile_prefix _, .bare fun d hd => List.mem_takeWhile_imp hd, fun other hother hsigned => ?_⟩
  cases hsigned with
  | bare digits => exact length_le_takeWhile hother digits
  | @sign c ds sign_ digits =>
    obtain ⟨rest, rfl⟩ := hother
    exact absurd sign_ (h c rfl)

theorem signedFront_sign {c : Char} (h : c = '+' ∨ c = '-') (cs : List Char) :
    SignedFront (c :: cs) (c :: cs.takeWhile Char.isDigit) := by
  refine ⟨(List.prefix_cons_inj c).mpr (List.takeWhile_prefix _), .sign h fun d hd => List.mem_takeWhile_imp hd,
    fun other hother hsigned => ?_⟩
  rcases List.prefix_cons_iff.mp hother with rfl | ⟨ds, rfl, hds⟩
  · exact Nat.zero_le _
  · -- the sign is no digit, so the digits of the other beginning stand behind it
    refine Nat.succ_le_succ (length_le_takeWhile hds ?_)
    cases hsigned with
    | bare digits =>
      have hdigit := digits c List.mem_cons_self
      rw [not_isDigit_of_sign h] at hdigit
      cases hdigit
    | sign sign_ digits => exact digits

end Mixsheet.Decimal
