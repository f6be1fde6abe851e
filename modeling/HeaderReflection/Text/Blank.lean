/-
  HeaderReflection.Text.Blank

  The blank characters, which are those of the Unicode property White_Space,
  and trimming by them.
-/
import HeaderReflection.Text

namespace HeaderReflection.Text

/-- Is the character white space? -/
def isBlank (c : Char) : Bool :=
  let n := c.toNat
  (9 ≤ n && n ≤ 13) || n == 0x20 || n == 0x85 || n == 0xa0 || n == 0x1680
    || (0x2000 ≤ n && n ≤ 0x200a) || n == 0x2028 || n == 0x2029 || n == 0x202f || n == 0x205f
    || n == 0x3000

/-- The text without the blanks at its end. -/
def trimEnd (s : Text) : Text :=
  (s.reverse.dropWhile isBlank).reverse

/-- The text without the blanks at both ends. -/
def trim (s : Text) : Text :=
  trimEnd (s.dropWhile isBlank)

end HeaderReflection.Text
