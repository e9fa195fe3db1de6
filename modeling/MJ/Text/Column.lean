/-!
# Columns

Texts and numbers brought to a given number of characters.

## Main definitions

* `Text.padLeft`, `Text.padRight` — blanks before or after a text.
* `Text.zeros`, `Text.hexByte` — numbers with leading zeros.
-/

namespace MJ
namespace Text

/-- A text with blanks before it, at least `width` characters long.  A longer text stays as it is.
-/
def padLeft (width : Nat) (cs : List Char) : List Char :=
  List.replicate (width - cs.length) ' ' ++ cs

/-- A text with blanks after it, at least `width` characters long.  Characters are counted, not
bytes. -/
def padRight (width : Nat) (s : String) : String :=
  s ++ String.ofList (List.replicate (width - s.length) ' ')

/-- A number in decimal with leading zeros, at least `width` digits long.  A longer number is not
cut. -/
def zeros (width n : Nat) : String :=
  let digits := Nat.toDigits 10 n
  String.ofList (List.replicate (width - digits.length) '0' ++ digits)

/-- A code address as listings and diagnostics show it: at least four digits. -/
def address (n : Nat) : String := zeros 4 n

/-- A byte as two hexadecimal digits in upper case. -/
def hexByte (b : UInt8) : String :=
  let digits := (Nat.toDigits 16 b.toNat).map Char.toUpper
  String.ofList (List.replicate (2 - digits.length) '0' ++ digits)

/-- A number in decimal.  The sign comes right before the digits, and only for negative numbers. -/
def decimal (n : Int) : List Char :=
  if n < 0 then '-' :: Nat.toDigits 10 n.natAbs else Nat.toDigits 10 n.natAbs

end Text
end MJ
