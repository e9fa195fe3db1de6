import MJ.Text.Utf8
import MJ.Width

/-!
# Static data under construction

Globals and string constants, always a whole number of words.

## Main definitions

* `Statics.alloc` — sets words aside.
* `Statics.allocString` — stores a text.

## References

The MJ specification, §3 *Data Model*, under *Static Data Buffer*, and §4.4 *Backend Emitter*,
`allocStaticData` and `allocStringConstant`.
-/

namespace MJ

/-- A static segment under construction.  It becomes the static segment of the image as it is. -/
structure Statics where
  /-- The bytes set aside so far. -/
  bytes : Array UInt8
  deriving DecidableEq, Repr

namespace Statics

/-- The segment without any word. -/
def empty : Statics := ⟨#[]⟩

/-- The number of words set aside so far, and the address of the next one.  Addresses of static data
count words, not bytes. -/
def words (d : Statics) : Nat := d.bytes.size / wordSize

/-- The segment with `n` zero words more.  The machine starts with the segment as it is stored, so
that the words are zero until they are set. -/
def alloc (d : Statics) (n : Nat) : Statics :=
  ⟨d.bytes ++ Array.replicate (n * wordSize) 0⟩

/-- The greatest number of bytes that can be addressed.  An allocation has at most as many bytes as
an address with a sign can reach. -/
def maxBytes : Nat := 9223372036854775807

/-- Whether `n` words more can be addressed.  The words are counted in bytes, which is how the
segment is kept. -/
def hasRoom (d : Statics) (n : Nat) : Bool := d.bytes.size + n * wordSize ≤ maxBytes

/-- A text as it is stored: its bytes, a zero byte, and more of them up to a whole word.  A text
that fills its last word gets another one, since a zero byte must follow. -/
def stringBytes (text : String) : List UInt8 :=
  let bs := Utf8.encode text
  bs ++ List.replicate (wordSize - bs.length % wordSize) 0

/-- The segment with a text more.  Equal texts are stored as often as they are added. -/
def allocString (d : Statics) (text : String) : Statics :=
  ⟨d.bytes ++ stringBytes text⟩

end Statics
end MJ
