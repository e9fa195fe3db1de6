/-!
# Blanks

The characters with the Unicode property `White_Space`.

## Main definitions

* `Text.isBlank` — membership in the property.
* `Text.trim` — a text without the blanks at its two ends.
-/

namespace MJ
namespace Text

/-- Whether a character is white space.  The newline at the end of a line is one. -/
def isBlank (c : Char) : Bool :=
  let n := c.toNat
  (9 ≤ n && n ≤ 13) || n == 0x20 || n == 0x85 || n == 0xa0 || n == 0x1680 ||
    (0x2000 ≤ n && n ≤ 0x200a) || n == 0x2028 || n == 0x2029 || n == 0x202f || n == 0x205f ||
    n == 0x3000

/-- A text without the blanks at its two ends.  Blanks inside of it stay. -/
def trim (cs : List Char) : List Char :=
  ((cs.dropWhile isBlank).reverse.dropWhile isBlank).reverse

end Text
end MJ
