import Mixsheet.Text.CharSet

/-! # White space

The characters with Unicode's White_Space property, and trimming them off the ends of a text. The
zero-width space, the byte order mark and the separators U+001C to U+001F are no white space. -/

namespace Mixsheet.Text

/-- The white space of Unicode. -/
def blanks : CharSet := [
  (0x9, 0xD), (0x20, 0x20), (0x85, 0x85), (0xA0, 0xA0), (0x1680, 0x1680), (0x2000, 0x200A),
  (0x2028, 0x2029), (0x202F, 0x202F), (0x205F, 0x205F), (0x3000, 0x3000)]

/-- The character is white space. -/
def isBlank (c : Char) : Bool := blanks.contains c

/-- The text without the white space it starts with. -/
def trimStart (cs : List Char) : List Char := cs.dropWhile isBlank

/-- The text without the white space it ends with. -/
def trimEnd (cs : List Char) : List Char := (cs.reverse.dropWhile isBlank).reverse

/-- The text without the white space at its ends. -/
def trim (cs : List Char) : List Char := trimEnd (trimStart cs)

/-- The text without the white space around it. -/
def trimmed (s : String) : String := .ofList (trim s.toList)

theorem length_dropWhile_le (p : Char → Bool) (cs : List Char) : (cs.dropWhile p).length ≤ cs.length :=
  (List.dropWhile_suffix p).length_le

theorem length_trim_le (cs : List Char) : (trim cs).length ≤ cs.length := by
  have h := length_dropWhile_le isBlank (trimStart cs).reverse
  have h' := length_dropWhile_le isBlank cs
  simp only [trim, trimEnd, trimStart, List.length_reverse] at h h' ⊢
  omega

end Mixsheet.Text
