import MJ.Machine.Fault
import MJ.Text.Blank
import MJ.Text.Utf8

/-!
# Program input

Input is a string of bytes that is read line by line or byte by byte.

## Main definitions

* `Input.line` — the next line, and what is left after it.
* `Input.integer?` — the first number in a text.
* `Input.readInteger` — the number on the next line, or why there is none.

## References

The MJ specification, §E6 *Supplemented features*, under *Stack machine*: integer and byte input.
-/

namespace MJ
namespace Input

/-- The next line, its newline included, and the input after it.  The last line may lack a newline,
and at the end of the input the line is empty. -/
def line : List UInt8 → List UInt8 × List UInt8
  | [] => ([], [])
  | b :: bs =>
    if b = 10 then ([b], bs)
    else
      let (l, rest) := line bs
      (b :: l, rest)

/-- The number at the front of a text: a run of the digits 0 to 9.  Without digits it is zero, and
so the caller checks that there is one. -/
def natural (cs : List Char) : Nat := Nat.ofDigitChars 10 (cs.takeWhile Char.isDigit) 0

/-- The first number in a text: it starts at the leftmost digit, or at a minus sign directly
before a digit, and goes on as far as digits do. -/
def integer? : List Char → Option Int
  | [] => none
  | c :: cs =>
    if c.isDigit then some (natural (c :: cs))
    else if c = '-' ∧ cs.head?.any Char.isDigit then some (-(natural cs : Int))
    else integer? cs

/-- The word that a line of text stands for.  There is none if no number is found, or if the first
one does not fit; a later number is not tried. -/
def word? (text : List Char) : Option Word :=
  match integer? text with
  | some n => if -2147483648 ≤ n ∧ n ≤ 2147483647 then some (Int32.ofInt n) else none
  | none => none

/-- Reads the next line and the number on it.  The line is used up in any case. -/
def readInteger (input : List UInt8) : Except Fault Word × List UInt8 :=
  let (l, rest) := line input
  let result :=
    if l.isEmpty then .error .inputEnd
    else match Utf8.decode? l with
      | none => .error .inputNotText
      | some s =>
        let text := Text.trim s.toList
        match word? text with
        | some v => .ok v
        | none => .error (.badInput (String.ofList text))
  (result, rest)

end Input
end MJ
