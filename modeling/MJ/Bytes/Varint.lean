/-!
# Variable-length numbers

A number as bytes of seven bits each, lowest first, with the high bit set on all but the last.

## Main definitions

* `Varint.encode` — the shortest such form.
* `Varint.read` — reads a number from the front of a byte string, within a limit.

## References

The MJ specification, §E5 *Serialization of auxiliary data*: the sizes in the file of labels have
this form.
-/

namespace MJ

/-- Why stored bytes could not be read.  Reading stops at the first of these. -/
inductive ReadError where
  /-- The bytes ended too early. -/
  | endOfInput
  /-- A number went on past its limit. -/
  | longNumber
  /-- A name was not UTF-8. -/
  | badText
  deriving DecidableEq, Repr

/-- The text of a read error. -/
def ReadError.message : ReadError → String
  | endOfInput => "Hit the end of buffer, expected more data"
  | longNumber =>
    "Found a varint that didn't terminate. Is the usize too big for this platform?"
  | badText => "Tried to parse invalid utf-8"

namespace Varint

/-- The shortest form of a number.  No byte is added without need, and so each number has one form.
-/
def encode (n : Nat) : List UInt8 :=
  if n < 128 then [UInt8.ofNat n]
  else UInt8.ofNat (n % 128 + 128) :: encode (n / 128)
termination_by n
decreasing_by omega

/-- Reads a number of at most `room` bytes from the front of `bs`, of which the last allowed byte
may be at most `lastMax`.  Also gives the bytes after it. -/
def read (lastMax : Nat) : (room : Nat) → (bs : List UInt8) → Except ReadError (Nat × List UInt8)
  | 0, _ => .error .longNumber
  | _ + 1, [] => .error .endOfInput
  | room + 1, b :: bs =>
    if b < 128 then
      if room = 0 ∧ lastMax < b.toNat then .error .longNumber else .ok (b.toNat, bs)
    else do
      let (n, rest) ← read lastMax room bs
      .ok (b.toNat - 128 + 128 * n, rest)

/-- Reads a number of sixteen bits: three bytes, the last with two bits.  Sixteen bits are seven,
seven and two of them. -/
def read16 (bs : List UInt8) : Except ReadError (Nat × List UInt8) := read 3 3 bs

/-- Reads a number of sixty-four bits: ten bytes, the last with one bit.  Sixty-four bits are nine
times seven and one of them. -/
def read64 (bs : List UInt8) : Except ReadError (Nat × List UInt8) := read 1 10 bs

end Varint
end MJ
