import Mathlib.Tactic.IntervalCases
import Mixsheet.Color

/-! # The channels of a color

A color in hexadecimal digits has three of them, each counted twice, or six. The reader of channels takes all of these,
and two kinds of texts more: those with a plus sign for the first digit of a channel, and those with anything behind
the sixth character. -/

namespace Mixsheet.Color

/-! ### Digits -/

/-- The character is the digit of the value in base sixteen, as a small or as a capital letter. -/
def IsDigit (c : Char) (value : Nat) : Prop :=
  "0123456789abcdef".toList[value]? = some c ∨ "0123456789ABCDEF".toList[value]? = some c

instance (c : Char) (value : Nat) : Decidable (IsDigit c value) := inferInstanceAs (Decidable (_ ∨ _))

variable {c d : Char} {v n : Nat}

theorem IsDigit.hexDigit?_eq (h : IsDigit c v) : hexDigit? c = some v := by
  have hv : v < 16 := by rcases h with h | h <;> exact (List.getElem?_eq_some_iff.mp h).1
  rcases h with h | h <;> interval_cases v <;> (obtain rfl := Option.some.inj h; decide)

theorem toNat_lt_of_hexDigit? (h : hexDigit? c = some v) : c.toNat < 103 := by
  have hle : ∀ {last : Char}, c ≤ last → last.toNat < 103 → c.toNat < 103 := fun hc => Nat.lt_of_le_of_lt hc
  unfold hexDigit? at h
  split at h
  · rename_i hrange
    exact hle hrange.2 (by decide)
  split at h
  · rename_i hrange
    exact hle hrange.2 (by decide)
  split at h
  · rename_i hrange
    exact hle hrange.2 (by decide)
  · cases h

theorem isDigit_of_hexDigit? (h : hexDigit? c = some v) : IsDigit c v := by
  have hall : ∀ n < 103, ∀ v ∈ hexDigit? (Char.ofNat n), IsDigit (Char.ofNat n) v := by decide +kernel
  have hc := hall c.toNat (toNat_lt_of_hexDigit? h)
  rw [Char.ofNat_toNat] at hc
  exact hc v h

theorem hexDigit?_eq_some_iff : hexDigit? c = some v ↔ IsDigit c v := ⟨isDigit_of_hexDigit?, IsDigit.hexDigit?_eq⟩

theorem IsDigit.unique (h : IsDigit c v) (h' : IsDigit c n) : v = n :=
  Option.some.inj (h.hexDigit?_eq.symm.trans h'.hexDigit?_eq)

theorem IsDigit.ascii (h : IsDigit c v) : c.toNat < 128 := (toNat_lt_of_hexDigit? h.hexDigit?_eq).trans (by decide)

theorem IsDigit.ne_plus (h : IsDigit c v) : c ≠ '+' := by
  rintro rfl
  cases h.hexDigit?_eq

/-! ### Channels -/

/-- The characters are the two digits of the channel, or a plus sign and its only digit. -/
inductive IsChannel : Char → Char → Nat → Prop where
  | digits {c d : Char} {high low : Nat} (high_ : IsDigit c high) (low_ : IsDigit d low) : IsChannel c d (16 * high + low)
  | plus {d : Char} {low : Nat} (low_ : IsDigit d low) : IsChannel '+' d low

theorem channel?_eq_some_iff : channel? c d = some n ↔ IsChannel c d n := by
  constructor
  · intro h
    unfold channel? at h
    split at h
    · rename_i hc
      simp only [Option.pure_def, Option.bind_eq_bind, Option.bind_some, Option.bind_eq_some_iff, Option.some.injEq] at h
      obtain ⟨low, hlow, rfl⟩ := h
      rw [hc, Nat.mul_zero, Nat.zero_add]
      exact .plus (hexDigit?_eq_some_iff.mp hlow)
    · simp only [Option.pure_def, Option.bind_eq_bind, Option.bind_eq_some_iff, Option.some.injEq] at h
      obtain ⟨high, hhigh, low, hlow, rfl⟩ := h
      exact .digits (hexDigit?_eq_some_iff.mp hhigh) (hexDigit?_eq_some_iff.mp hlow)
  · intro h
    cases h with
    | digits high_ low_ => simp [channel?, high_.ne_plus, high_.hexDigit?_eq, low_.hexDigit?_eq]
    | plus low_ => simp [channel?, low_.hexDigit?_eq]

theorem IsChannel.ascii (h : IsChannel c d n) : c.toNat < 128 ∧ d.toNat < 128 := by
  cases h with
  | digits high_ low_ => exact ⟨high_.ascii, low_.ascii⟩
  | plus low_ => exact ⟨by decide, low_.ascii⟩

theorem IsChannel.twice (h : IsChannel c c n) : ∃ v, IsDigit c v ∧ n = 16 * v + v := by
  cases h with
  | digits high_ low_ => exact ⟨_, high_, by rw [high_.unique low_]⟩
  | plus low_ => exact absurd rfl low_.ne_plus

theorem IsChannel.exists_digits (h : IsChannel c d n) (hc : c ≠ '+') :
    ∃ high low, IsDigit c high ∧ IsDigit d low ∧ n = 16 * high + low := by
  cases h with
  | digits high_ low_ => exact ⟨_, _, high_, low_, rfl⟩
  | plus low_ => exact absurd rfl hc

/-! ### Colors -/

/-- Three digits in base sixteen, each counted twice, or six are the channels of a color. -/
inductive IsHex : List Char → Nat → Nat → Nat → Prop where
  | three {c d e : Char} {x y z : Nat} (red : IsDigit c x) (green : IsDigit d y) (blue : IsDigit e z) :
    IsHex [c, d, e] (16 * x + x) (16 * y + y) (16 * z + z)
  | six {c c' d d' e e' : Char} {x x' y y' z z' : Nat} (red : IsDigit c x) (red' : IsDigit c' x') (green : IsDigit d y)
    (green' : IsDigit d' y') (blue : IsDigit e z) (blue' : IsDigit e' z') :
    IsHex [c, c', d, d', e, e'] (16 * x + x') (16 * y + y') (16 * z + z')

/-- What is read as the channels of a color though it is none: there is a plus sign for a digit, or something behind
the sixth character. -/
inductive IsLoose : List Char → Nat → Nat → Nat → Prop where
  | mk {c c' d d' e e' : Char} {behind : List Char} {x y z : Nat} (red : IsChannel c c' x) (green : IsChannel d d' y)
    (blue : IsChannel e e' z) (ascii : ∀ a ∈ behind, a.toNat < 128)
    (loose : behind ≠ [] ∨ c = '+' ∨ d = '+' ∨ e = '+') : IsLoose (c :: c' :: d :: d' :: e :: e' :: behind) x y z

variable {cs : List Char} {r g b : Nat}

theorem IsLoose.not_isHex (h : IsLoose cs r g b) (x y z : Nat) : ¬ IsHex cs x y z := by
  cases h with
  | mk red green blue ascii loose =>
    intro hhex
    cases hhex with
    | six red red' green green' blue blue' =>
      rcases loose with hne | hc | hd | he
      · exact hne rfl
      · exact red.ne_plus hc
      · exact green.ne_plus hd
      · exact blue.ne_plus he

theorem channels?_three (c d e : Char) : channels? [c, d, e] = channels? [c, c, d, d, e, e] := by
  simp [channels?, channelChars]

theorem channels?_six {c c' d d' e e' : Char} {behind : List Char} :
    channels? (c :: c' :: d :: d' :: e :: e' :: behind) = some (r, g, b) ↔
      IsChannel c c' r ∧ IsChannel d d' g ∧ IsChannel e e' b ∧ ∀ a ∈ behind, a.toNat < 128 := by
  have hchars : channelChars (c :: c' :: d :: d' :: e :: e' :: behind) = c :: c' :: d :: d' :: e :: e' :: behind := rfl
  rw [channels?, hchars]
  simp only [← channel?_eq_some_iff, Option.pure_def, Option.bind_eq_bind]
  constructor
  · intro h
    split at h
    · rename_i hascii
      simp only [Option.bind_eq_some_iff, Option.some.injEq, Prod.mk.injEq] at h
      obtain ⟨x, hx, y, hy, z, hz, rfl, rfl, rfl⟩ := h
      exact ⟨hx, hy, hz, fun a ha => of_decide_eq_true (List.all_eq_true.mp hascii a (by simp [ha]))⟩
    · cases h
  · rintro ⟨hx, hy, hz, hbehind⟩
    have hred := (channel?_eq_some_iff.mp hx).ascii
    have hgreen := (channel?_eq_some_iff.mp hy).ascii
    have hblue := (channel?_eq_some_iff.mp hz).ascii
    have hascii : (c :: c' :: d :: d' :: e :: e' :: behind).all (·.toNat < 128) = true := by
      simpa [hred, hgreen, hblue] using hbehind
    rw [if_pos hascii, hx, hy, hz]
    rfl

/-- Channels are read of colors, and of what counts as one without being one. -/
theorem channels?_eq_some_iff : channels? cs = some (r, g, b) ↔ IsHex cs r g b ∨ IsLoose cs r g b := by
  constructor
  · intro h
    match cs, h with
    | [c, d, e], h =>
      rw [channels?_three] at h
      obtain ⟨hred, hgreen, hblue, -⟩ := channels?_six.mp h
      obtain ⟨x, hx, rfl⟩ := hred.twice
      obtain ⟨y, hy, rfl⟩ := hgreen.twice
      obtain ⟨z, hz, rfl⟩ := hblue.twice
      exact .inl (.three hx hy hz)
    | c :: c' :: d :: d' :: e :: e' :: behind, h =>
      obtain ⟨hred, hgreen, hblue, hascii⟩ := channels?_six.mp h
      by_cases hloose : behind ≠ [] ∨ c = '+' ∨ d = '+' ∨ e = '+'
      · exact .inr (.mk hred hgreen hblue hascii hloose)
      · simp only [not_or, not_not] at hloose
        obtain ⟨rfl, hc, hd, he⟩ := hloose
        obtain ⟨x, x', hx, hx', rfl⟩ := hred.exists_digits hc
        obtain ⟨y, y', hy, hy', rfl⟩ := hgreen.exists_digits hd
        obtain ⟨z, z', hz, hz', rfl⟩ := hblue.exists_digits he
        exact .inl (.six hx hx' hy hy' hz hz')
    | [], h | [_], h | [_, _], h | [_, _, _, _], h | [_, _, _, _, _], h =>
      simp [channels?, channelChars] at h
  · rintro (hhex | hloose)
    · cases hhex with
      | three red green blue =>
        rw [channels?_three]
        exact channels?_six.mpr ⟨.digits red red, .digits green green, .digits blue blue, nofun⟩
      | six red red' green green' blue blue' =>
        exact channels?_six.mpr ⟨.digits red red', .digits green green', .digits blue blue', nofun⟩
    · cases hloose with
      | mk red green blue ascii loose => exact channels?_six.mpr ⟨red, green, blue, ascii⟩

/-! ### Texts of colors -/

/-- The text of a color: its channels, and the fraction of the opacity if one is given that counts as such. -/
inductive Written (r g b : Nat) : Option Value → String → Prop where
  | solid {opacity? : Option Value} (none_ : ∀ v ∈ opacity?, (Opacity.fraction v).isTruthy = false) :
    Written r g b opacity? ("rgb(" ++ s!"{r}, {g}, {b}" ++ ")")
  | faded {opacity : Value} (given : (Opacity.fraction opacity).isTruthy = true) :
    Written r g b (some opacity) ("rgba(" ++ s!"{r}, {g}, {b}" ++ ", " ++ (Opacity.fraction opacity).render ++ ")")

theorem Written.unique {text text' : String} {opacity? : Option Value} (h : Written r g b opacity? text)
    (h' : Written r g b opacity? text') : text = text' := by
  cases h with
  | solid none_ =>
    cases h' with
    | solid => rfl
    | faded given => rw [none_ _ rfl] at given; cases given
  | faded given =>
    cases h' with
    | solid none_ => rw [none_ _ rfl] at given; cases given
    | faded => rfl

variable {color text : String} {opacity? : Option Value}

theorem exists_rgba? (h : channels? (dropHash color.toList) = some (r, g, b)) (opacity? : Option Value) :
    ∃ text, rgba? color opacity? = some text ∧ Written r g b opacity? text := by
  cases opacity? with
  | none => exact ⟨_, by simp [rgba?, h], .solid nofun⟩
  | some opacity =>
    by_cases hgiven : (Opacity.fraction opacity).isTruthy = true
    · exact ⟨_, by simp [rgba?, h, hgiven], .faded hgiven⟩
    · have hnone : ∀ v ∈ some opacity, (Opacity.fraction v).isTruthy = false := by simpa using hgiven
      exact ⟨_, by simp [rgba?, h, hgiven], .solid hnone⟩

theorem rgba?_eq_some_iff : rgba? color opacity? = some text ↔
    ∃ r g b, channels? (dropHash color.toList) = some (r, g, b) ∧ Written r g b opacity? text := by
  constructor
  · intro h
    cases hchannels : channels? (dropHash color.toList) with
    | none => simp [rgba?, hchannels] at h
    | some channels =>
      obtain ⟨r, g, b⟩ := channels
      obtain ⟨text', htext', hwritten⟩ := exists_rgba? hchannels opacity?
      obtain rfl := Option.some.inj (h.symm.trans htext')
      exact ⟨r, g, b, rfl, hwritten⟩
  · rintro ⟨r, g, b, hchannels, hwritten⟩
    obtain ⟨text', htext', hwritten'⟩ := exists_rgba? hchannels opacity?
    rw [htext', hwritten.unique hwritten']

/-- A color is written of the text exactly if it is three or six digits in base sixteen, with the channels of these. -/
def Recognizes (color : String) (opacity? : Option Value) : Prop :=
  ∀ text, rgba? color opacity? = some text ↔
    ∃ r g b, IsHex (dropHash color.toList) r g b ∧ Written r g b opacity? text

theorem recognizes_iff : Recognizes color opacity? ↔ ∀ r g b, ¬ IsLoose (dropHash color.toList) r g b := by
  constructor
  · intro h r g b hloose
    obtain ⟨text, htext, -⟩ := exists_rgba? (channels?_eq_some_iff.mpr (.inr hloose)) opacity?
    obtain ⟨x, y, z, hhex, -⟩ := (h text).mp htext
    exact hloose.not_isHex x y z hhex
  · intro h text
    simp only [rgba?_eq_some_iff, channels?_eq_some_iff, h, or_false]

/-- A text is recognized for what it is exactly if it is not read loosely. Of a color the channels are written, and so
they are of what is read loosely. Three digits are the same color as the six that give each of them twice. -/
theorem rgba?_recognizes (color : String) (opacity? : Option Value) :
    (Recognizes color opacity? ↔ ∀ r g b, ¬ IsLoose (dropHash color.toList) r g b) ∧
    (∀ r g b, IsHex (dropHash color.toList) r g b ∨ IsLoose (dropHash color.toList) r g b →
      ∃ text, rgba? color opacity? = some text ∧ Written r g b opacity? text) ∧
    ∀ doubled c d e, dropHash color.toList = [c, d, e] → dropHash doubled.toList = [c, c, d, d, e, e] →
      rgba? color opacity? = rgba? doubled opacity? := by
  refine ⟨recognizes_iff, fun r g b hread => exists_rgba? (channels?_eq_some_iff.mpr hread) opacity?, ?_⟩
  intro doubled c d e hcolor hdoubled
  have hchannels : channels? (dropHash color.toList) = channels? (dropHash doubled.toList) := by
    rw [hcolor, hdoubled, channels?_three]
  rw [rgba?, hchannels, rgba?]

/-- Three digits with a `#` before them. -/
theorem rgba?_recognizes_of_short : Recognizes "#0aF" none ∧ rgba? "#0aF" none = some "rgb(0, 170, 255)" ∧
    dropHash "#0aF".toList = ['0', 'a', 'F'] ∧ dropHash "00aaFF".toList = ['0', '0', 'a', 'a', 'F', 'F'] ∧
    rgba? "#0aF" none = rgba? "00aaFF" none := by
  obtain ⟨hrecognizes, -, hdoubled⟩ := rgba?_recognizes "#0aF" none
  have hshort : dropHash "#0aF".toList = ['0', 'a', 'F'] := rfl
  have hstrict : ∀ r g b, ¬ IsLoose (dropHash "#0aF".toList) r g b := fun r g b hloose => by
    rw [hshort] at hloose
    cases hloose
  exact ⟨hrecognizes.mpr hstrict, by decide +kernel, hshort, rfl, hdoubled "00aaFF" '0' 'a' 'F' hshort rfl⟩

/-- A plus sign is taken for a digit, and what stands behind six digits is passed over. -/
theorem recognizes_fails : ¬ Recognizes "+f+f+f" none ∧ ¬ Recognizes "#ffffff00" none := by
  have hdigit : IsDigit 'f' 15 := by decide
  constructor
  · have hpair : IsChannel '+' 'f' 15 := .plus hdigit
    have hloose : IsLoose (dropHash "+f+f+f".toList) 15 15 15 := .mk hpair hpair hpair nofun (.inr (.inl rfl))
    exact fun h => recognizes_iff.mp h 15 15 15 hloose
  · have hpair : IsChannel 'f' 'f' 255 := .digits hdigit hdigit
    have hlong : dropHash "#ffffff00".toList = ['f', 'f', 'f', 'f', 'f', 'f', '0', '0'] := rfl
    have hloose : IsLoose (dropHash "#ffffff00".toList) 255 255 255 := by
      rw [hlong]
      exact .mk hpair hpair hpair (by simp) (.inl (List.cons_ne_nil _ _))
    exact fun h => recognizes_iff.mp h 255 255 255 hloose

end Mixsheet.Color
