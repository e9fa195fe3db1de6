import MJ.Bytes.BigEndian

/-!
# Operand widths

An instruction operand occupies one, two or four bytes of code.  A width says how a word is cut
down to that many bytes and how it is read back.

## Main definitions

* `Width.encode`, `Width.decode?` — a word as operand bytes and back.
* `Width.truncate` — the word that survives the trip.
* `Width.holds` — whether the bytes carry a word exactly, read as signed or as unsigned.
* `Word.ofBytes` — the word in four bytes.

## References

The MJ specification, §3 *Data Model*, under *Operand Width*, and §4.1 *Byte/Operand Codec*.
-/

namespace MJ

/-- A machine word: 32 bits, two's complement.  Values, addresses and truth values all are words. -/
abbrev Word := Int32

/-- The number of bytes in a machine word.  Static data is made of whole words. -/
def wordSize : Nat := 4

/-- The word in four bytes, the most significant first. -/
@[inline] def Word.ofBytes (a b c d : UInt8) : Word :=
  Int32.ofNat (((a.toNat * 256 + b.toNat) * 256 + c.toNat) * 256 + d.toNat)

/-- The width of an instruction operand.  They are named by their bits when read with a sign; some
operands are read without. -/
inductive Width where
  /-- One byte. -/
  | s8
  /-- Two bytes. -/
  | s16
  /-- Four bytes. -/
  | s32
  deriving DecidableEq, Repr, Inhabited

namespace Width

/-- How many bytes of code the operand takes.  There is no width of three bytes. -/
def size : Width → Nat
  | s8 => 1
  | s16 => 2
  | s32 => 4

/-- How many different byte patterns the operand has.  Words that differ by a multiple of it have
the same bytes. -/
def modulus (w : Width) : Nat := BigEndian.capacity w.size

/-- The least value read back unchanged as a signed number.  Nothing below it can be an operand,
whether it is read with a sign or not. -/
def min : Width → Int
  | s8 => -128
  | s16 => -32768
  | s32 => -2147483648

/-- The greatest value read back unchanged as a signed number.  Up to twice of it and one more, a
value can still be read back as an unsigned number. -/
def max : Width → Int
  | s8 => 127
  | s16 => 32767
  | s32 => 2147483647

/-- Whether the operand's bytes carry `v` exactly, read as a signed or as an unsigned number.  Which
of the two readings is meant is up to the opcode. -/
def holds (w : Width) (v : Word) : Bool :=
  w.min ≤ v.toInt && v.toInt ≤ 2 * w.max + 1

/-- The operand bytes of `v`: its low bytes, most significant first.  Values that do not fit lose
their high bytes. -/
def encode (w : Width) (v : Word) : List UInt8 :=
  BigEndian.bytes w.size v.toUInt32.toNat

/-- The signed number of width `w` whose unsigned reading is `n`.  The upper half of the readings
stands for the negative numbers. -/
def signed (w : Width) (n : Nat) : Word :=
  Int32.ofInt ((n : Int).bmod w.modulus)

/-- Reads a signed operand from the front of `bs`; `none` if `bs` is too short.  Bytes after the
operand are not looked at. -/
def decode? (w : Width) (bs : List UInt8) : Option Word :=
  if bs.length < w.size then none
  else some (w.signed (BigEndian.value (bs.take w.size)))

/-- The word that encoding and decoding at width `w` makes of `v`.  Words that fit as signed numbers
stay the same. -/
def truncate (w : Width) (v : Word) : Word :=
  Int32.ofInt (v.toInt.bmod w.modulus)

end Width
end MJ
