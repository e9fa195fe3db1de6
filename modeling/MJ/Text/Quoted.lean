import MJ.Text.Printable

/-!
# Quoted texts

Diagnostics and listings show a text between double quotes, with the characters that would not
be seen written as escapes.

## Main definitions

* `Text.quoted` — a text in quotes.
-/

namespace MJ
namespace Text

/-- A character inside quotes.  What is not shown as itself is shown by its code. -/
def escaped (c : Char) : String :=
  match c with
  | '"' => "\\\""
  | '\\' => "\\\\"
  | '\t' => "\\t"
  | '\n' => "\\n"
  | '\r' => "\\r"
  | '\x00' => "\\0"
  | c =>
    if isPrintable c then c.toString
    else "\\u\x7b" ++ String.ofList (Nat.toDigits 16 c.toNat) ++ "\x7d"

/-- A text between double quotes.  The quotes inside are escaped, so that the end can be seen. -/
def quoted (s : String) : String :=
  "\"" ++ String.join (s.toList.map escaped) ++ "\""

end Text
end MJ
