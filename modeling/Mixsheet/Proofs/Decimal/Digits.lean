import Mixsheet.Proofs.Decimal.Integer
import Mixsheet.Value

/-! # The characters of numbers

A number as text is never empty, and has nothing in it but digits, a point, a sign and the letters of what is no
finite number. -/

namespace Mixsheet

/-- The character may stand in a number as text. -/
def isNumberChar (c : Char) : Bool := c.isDigit || ['.', '-', 'N', 'a', 'i', 'n', 'f'].contains c

/-- The text has the characters of a number, and is not empty. -/
def IsNumberText (cs : List Char) : Prop := cs ≠ [] ∧ ∀ c ∈ cs, isNumberChar c = true

theorem isNumberChar_of_isDigit {c : Char} (h : c.isDigit = true) : isNumberChar c = true := by simp [isNumberChar, h]

theorem toNat_lt_of_isNumberChar {c : Char} (h : isNumberChar c = true) : c.toNat < 128 := by
  rcases Bool.or_eq_true_iff.mp h with hdigit | hother
  · have := Decimal.isDigit_iff.mp hdigit
    omega
  · have hall : ['.', '-', 'N', 'a', 'i', 'n', 'f'].all (·.toNat < 128) = true := rfl
    exact of_decide_eq_true (List.all_eq_true.mp hall c (List.contains_iff_mem.mp hother))

/-- A property of the characters of numbers, checked number by number. -/
theorem forall_of_isNumberChar {P : Char → Prop}
    (h : ∀ n < 128, isNumberChar (Char.ofNat n) = true → P (Char.ofNat n)) {c : Char} (hc : isNumberChar c = true) :
    P c := by
  have hn := h c.toNat (toNat_lt_of_isNumberChar hc)
  rw [Char.ofNat_toNat] at hn
  exact hn hc

theorem isNumberText_of_all {c : Char} {cs : List Char} (h : (c :: cs).all isNumberChar = true) :
    IsNumberText (c :: cs) :=
  ⟨List.cons_ne_nil c cs, List.all_eq_true.mp h⟩

theorem isNumberText_append {cs ds : List Char} (h : IsNumberText cs) (hd : ∀ c ∈ ds, isNumberChar c = true) :
    IsNumberText (cs ++ ds) :=
  ⟨List.append_ne_nil_of_left_ne_nil h.1 ds, List.forall_mem_append.mpr ⟨h.2, hd⟩⟩

/-! ### Whole numbers -/

theorem isNumberText_toDigits (n : Nat) : IsNumberText (Nat.toDigits 10 n) :=
  ⟨Nat.toDigits_ne_nil, fun _ hc => isNumberChar_of_isDigit (Nat.isDigit_of_mem_toDigits (by decide) (by decide) hc)⟩

theorem isNumberText_natRepr (n : Nat) : IsNumberText (toString n).toList := by
  rw [Nat.toString_eq_repr, Nat.toList_repr]
  exact isNumberText_toDigits n

theorem isNumberText_intRepr (n : Int) : IsNumberText (toString n).toList := by
  cases n with
  | ofNat n => exact isNumberText_natRepr n
  | negSucc n =>
    have hneg : (toString (Int.negSucc n)).toList = '-' :: (toString (n + 1)).toList := by
      change ("-" ++ Nat.repr (n + 1)).toList = _
      simp [Nat.toString_eq_repr]
    rw [hneg]
    exact ⟨List.cons_ne_nil _ _, List.forall_mem_cons.mpr ⟨by decide, (isNumberText_natRepr (n + 1)).2⟩⟩

/-! ### Doubles -/

namespace Decimal

theorem isNumberText_signed (negative : Bool) {cs : List Char} (h : IsNumberText cs) :
    IsNumberText (signed negative cs) := by
  unfold signed
  split
  · exact ⟨List.cons_ne_nil _ _, List.forall_mem_cons.mpr ⟨by decide, h.2⟩⟩
  · exact h

theorem isNumberText_scaled (s : Scaled) : IsNumberText s.chars := by
  have hdigits := isNumberText_toDigits s.digits
  have hzeros : ∀ n, ∀ c ∈ List.replicate n '0', isNumberChar c = true := by
    intro n c hc
    obtain rfl := List.eq_of_mem_replicate hc
    decide
  unfold Scaled.chars
  dsimp only
  split
  · exact isNumberText_append hdigits (hzeros _)
  · have hall : ∀ c ∈ List.replicate ((-s.exponent).toNat + 1 - (digitChars s.digits).length) '0' ++ digitChars s.digits,
        isNumberChar c = true := List.forall_mem_append.mpr ⟨hzeros _, hdigits.2⟩
    refine ⟨List.append_ne_nil_of_right_ne_nil _ (List.cons_ne_nil _ _), List.forall_mem_append.mpr ⟨?_, ?_⟩⟩
    · exact fun c hc => hall c (List.mem_of_mem_take hc)
    · exact List.forall_mem_cons.mpr ⟨by decide, fun c hc => hall c (List.mem_of_mem_drop hc)⟩

theorem isNumberText_double (d : Double) : IsNumberText d.chars := by
  cases d with
  | nan => exact isNumberText_of_all rfl
  | infinite negative => exact isNumberText_signed negative (isNumberText_of_all rfl)
  | finite f =>
    refine isNumberText_signed f.negative ?_
    split
    · exact isNumberText_of_all rfl
    · exact isNumberText_scaled f.shortest

end Decimal

theorem Value.isNumberText_renderNumber (x : Float) : IsNumberText (renderNumber x).toList := by
  unfold renderNumber
  split
  · exact isNumberText_of_all rfl
  · rw [Decimal.render, String.toList_ofList]
    exact Decimal.isNumberText_double _

end Mixsheet
