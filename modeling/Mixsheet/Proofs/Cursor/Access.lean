import Mixsheet.Proofs.Token.Partition

/-! # Access by number

Lists read by place and texts read by byte. Every place, every byte and every difference is checked: what asks for an
entry that is not there, for a slice that ends before it starts, for a byte inside a character or for less than
nothing has no result. -/

namespace Mixsheet.Cursor

open Token

/-- A result or a fault, unless something is asked for that is not there. -/
abbrev Checked (ε : Type) : Type → Type := ExceptT ε Option

theorem lift_bind {ε α β : Type} {o : Option α} {a : α} (h : o = some a) (f : α → Checked ε β) :
    (liftM o >>= f : Checked ε β) = f a := by
  subst h
  rfl

/-! ### Numbers and places -/

/-- The difference of two numbers, if it is none below zero. -/
def minus? (m n : Nat) : Option Nat := if n ≤ m then some (m - n) else none

/-- The entries of a list from the place `i` up to the place `j`. -/
def slice? {α : Type} (xs : List α) (i j : Nat) : Option (List α) :=
  if i ≤ j ∧ j ≤ xs.length then some ((xs.drop i).take (j - i)) else none

theorem minus?_of_le {m n : Nat} (h : n ≤ m) : minus? m n = some (m - n) := if_pos h

theorem minus?_add (m n : Nat) : minus? (m + n) n = some m := by
  rw [minus?_of_le (Nat.le_add_left n m), Nat.add_sub_cancel]

theorem minus?_eq_some_iff {m n d : Nat} : minus? m n = some d ↔ m = d + n := by
  constructor
  · intro h
    obtain ⟨hle, h⟩ := Option.ite_none_right_eq_some.mp h
    have := Option.some.inj h
    omega
  · rintro rfl
    exact minus?_add d n

section Slice

variable {α : Type} (xs ys zs : List α)

theorem slice?_append : slice? (xs ++ ys ++ zs) xs.length (xs ++ ys).length = some ys := by
  have hle : xs.length ≤ (xs ++ ys).length ∧ (xs ++ ys).length ≤ (xs ++ ys ++ zs).length := by
    simp only [List.length_append]
    omega
  rw [slice?, if_pos hle, List.append_assoc, List.drop_left, List.length_append, Nat.add_sub_cancel_left,
    List.take_left]

theorem slice?_left : slice? (xs ++ ys) 0 xs.length = some xs := slice?_append [] xs ys

theorem slice?_right : slice? (xs ++ ys) xs.length (xs ++ ys).length = some ys := by
  simpa using slice?_append xs ys []

end Slice

theorem slice?_of_append {α : Type} {xs ys zs : List α} {i j : Nat} (hi : i = xs.length) (hj : j = i + ys.length) :
    slice? (xs ++ ys ++ zs) i j = some ys := by
  rw [hj, hi, ← List.length_append]
  exact slice?_append xs ys zs

theorem findIdx?_of_append {α : Type} {p : α → Bool} {xs ys : List α} {x : α} (hxs : ∀ y ∈ xs, p y = false)
    (hx : p x = true) : (xs ++ x :: ys).findIdx? p = some xs.length := by
  rw [List.findIdx?_append, List.findIdx?_eq_none_iff.mpr hxs, List.findIdx?_cons, hx]
  simp

/-! ### Bytes -/

/-- The text behind its first `n` bytes. -/
def behind? : List Char → Nat → Option (List Char)
  | cs, 0 => some cs
  | [], _ + 1 => none
  | c :: cs, n + 1 => do behind? cs (← minus? (n + 1) c.utf8Size)

/-- The first `n` bytes of a text. -/
def upTo? : List Char → Nat → Option (List Char)
  | _, 0 => some []
  | [], _ + 1 => none
  | c :: cs, n + 1 => do return c :: (← upTo? cs (← minus? (n + 1) c.utf8Size))

/-- The text from its byte `i` up to its byte `j`. -/
def cut? (cs : List Char) (i j : Nat) : Option (List Char) := do upTo? (← behind? cs i) (← minus? j i)

theorem byteSize_snoc (cs : List Char) (c : Char) : byteSize (cs ++ [c]) = byteSize cs + c.utf8Size :=
  byteSize_append cs [c]

theorem minus?_utf8Size (c : Char) (cs : List Char) :
    ∃ n, byteSize (c :: cs) = n + 1 ∧ minus? (n + 1) c.utf8Size = some (byteSize cs) := by
  have hsize : byteSize (c :: cs) = byteSize cs + c.utf8Size := Nat.add_comm _ _
  obtain ⟨n, hn⟩ := Nat.exists_eq_succ_of_ne_zero (Nat.ne_of_gt c.utf8Size_pos)
  refine ⟨byteSize cs + n, by omega, minus?_eq_some_iff.mpr (by omega)⟩

/-- A text has a part behind a number of bytes just if a character ends there. -/
theorem behind?_eq_some_iff {cs ds : List Char} {n : Nat} :
    behind? cs n = some ds ↔ ∃ before, cs = before ++ ds ∧ byteSize before = n := by
  constructor
  · intro h
    fun_induction behind? cs n with
    | case1 cs => exact ⟨[], Option.some.inj h, rfl⟩
    | case2 => cases h
    | case3 c cs n ih =>
      obtain ⟨d, hd, h⟩ := Option.bind_eq_some_iff.mp h
      obtain ⟨before, rfl, rfl⟩ := ih d h
      exact ⟨c :: before, rfl, (Nat.add_comm _ _).trans (minus?_eq_some_iff.mp hd).symm⟩
  · rintro ⟨before, rfl, rfl⟩
    induction before with
    | nil => cases ds <;> rfl
    | cons c before ih =>
      obtain ⟨n, hsize, hminus⟩ := minus?_utf8Size c before
      rw [hsize, List.cons_append, behind?, hminus]
      exact ih

theorem upTo?_append (cs ds : List Char) : upTo? (cs ++ ds) (byteSize cs) = some cs := by
  induction cs with
  | nil => cases ds <;> rfl
  | cons c cs ih =>
    obtain ⟨n, hsize, hminus⟩ := minus?_utf8Size c cs
    rw [hsize, List.cons_append, upTo?, hminus]
    exact congrArg (fun o : Option (List Char) => o.bind fun cs => some (c :: cs)) ih

theorem behind?_append (cs ds : List Char) : behind? (cs ++ ds) (byteSize cs) = some ds :=
  behind?_eq_some_iff.mpr ⟨cs, rfl, rfl⟩

theorem cut?_append (cs ds es : List Char) :
    cut? (cs ++ ds ++ es) (byteSize cs) (byteSize (cs ++ ds)) = some ds := by
  rw [cut?, List.append_assoc, behind?_append, byteSize_append, Nat.add_comm, minus?_add]
  exact upTo?_append ds es

/-- Inside a character no text starts. -/
example : behind? ['é', 'a'] 1 = none ∧ behind? ['é', 'a'] 2 = some ['a'] := by decide

end Mixsheet.Cursor
