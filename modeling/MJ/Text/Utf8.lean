/-!
# UTF-8

Texts as bytes and back.

## Main definitions

* `Utf8.encode` — the bytes of a text.
* `Utf8.decode?` — the text that valid bytes encode.
* `Utf8.decodeLossy` — the same for any bytes: each maximal ill-formed part becomes one
  replacement character.
-/

namespace MJ
namespace Utf8

/-- The bytes of a text.  No two texts have the same. -/
def encode (s : String) : List UInt8 := s.toUTF8.data.toList

/-- The text that `bs` encode, if they are well formed.  Forms that are longer than need be, and
codes of no character, are not well formed. -/
def decode? (bs : List UInt8) : Option String := String.fromUTF8? ⟨bs.toArray⟩

/-- A character of which some bytes have been read.  The range of the next byte is what excludes
forms that are too long and codes of no character. -/
structure Pending where
  /-- The value of the bytes read so far. -/
  value : Nat
  /-- How many bytes are to come. -/
  missing : Nat
  /-- The least byte that may come next. -/
  low : UInt8
  /-- The greatest byte that may come next. -/
  high : UInt8

/-- What the first byte of a longer character promises; `none` if it cannot start one. -/
def start? (b : UInt8) : Option Pending :=
  if b < 0xc2 then none
  else if b < 0xe0 then some ⟨b.toNat - 0xc0, 1, 0x80, 0xbf⟩
  else if b = 0xe0 then some ⟨0, 2, 0xa0, 0xbf⟩
  else if b = 0xed then some ⟨0xd, 2, 0x80, 0x9f⟩
  else if b < 0xf0 then some ⟨b.toNat - 0xe0, 2, 0x80, 0xbf⟩
  else if b = 0xf0 then some ⟨0, 3, 0x90, 0xbf⟩
  else if b < 0xf4 then some ⟨b.toNat - 0xf0, 3, 0x80, 0xbf⟩
  else if b = 0xf4 then some ⟨4, 3, 0x80, 0x8f⟩
  else none

/-- The character that stands for bytes that encode none. -/
def replacement : Char := Char.ofNat 0xfffd

/-- Reads `b` at the start of a character: the characters it completes, and the one it opens. -/
def readFirst (b : UInt8) : List Char × Option Pending :=
  if b < 0x80 then ([Char.ofNat b.toNat], none)
  else match start? b with
    | some p => ([], some p)
    | none => ([replacement], none)

/-- Reads `b` after the unfinished character `p`.  A byte that does not fit ends the character, and
is read once more as the start of another one. -/
def readNext (p : Pending) (b : UInt8) : List Char × Option Pending :=
  if p.low ≤ b ∧ b ≤ p.high then
    let value := p.value * 64 + (b.toNat - 0x80)
    if p.missing = 1 then ([Char.ofNat value], none)
    else ([], some ⟨value, p.missing - 1, 0x80, 0xbf⟩)
  else
    let (cs, next?) := readFirst b
    (replacement :: cs, next?)

/-- The characters in `bs`, of which the first may continue the unfinished character `p?`.  A
character that is unfinished at the end is ill-formed, too. -/
def decodeFrom (p? : Option Pending) : List UInt8 → List Char
  | [] => if p?.isSome then [replacement] else []
  | b :: bs =>
    let (cs, next?) := match p? with
      | some p => readNext p b
      | none => readFirst b
    cs ++ decodeFrom next? bs

/-- The text in `bs`, with a replacement character for each maximal ill-formed part. -/
def decodeLossy (bs : List UInt8) : String := String.ofList (decodeFrom none bs)

end Utf8
end MJ
