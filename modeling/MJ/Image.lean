import MJ.ImageError
import MJ.Misuse

/-!
# Object images

An object file is a header of fourteen bytes, a code segment and a static segment of whole words.

## Main definitions

* `Header`, `Header.bytes`, `Header.parse`
* `Image`, `Image.ofSegments`, `Image.ofSegments?`, `Image.bytes`, `Image.parse`

## References

The MJ specification, §6 *External Interfaces*, under *Object file binary layout*.
-/

namespace MJ

/-- The header of an object file.  It tells where the segments end, since they follow it without a
gap. -/
structure Header where
  /-- The size of the code segment in bytes. -/
  codeSize : UInt32
  /-- The size of the static segment in words. -/
  dataWords : UInt32
  /-- The code address at which a run starts. -/
  startPc : UInt32
  deriving DecidableEq, Repr, Inhabited

namespace Header

/-- The header as it stands in a file: the letters `MJ`, then three numbers.  It has fourteen bytes,
whatever the numbers are. -/
def bytes (h : Header) : List UInt8 :=
  [0x4d, 0x4a] ++ BigEndian.bytes 4 h.codeSize.toNat ++ BigEndian.bytes 4 h.dataWords.toNat ++
    BigEndian.bytes 4 h.startPc.toNat

/-- The number in the four bytes of `bs` from `start` on.  Bytes that are missing make it smaller,
and so the caller checks the length before. -/
def field (bs : List UInt8) (start : Nat) : UInt32 :=
  UInt32.ofNat (BigEndian.value ((bs.drop start).take 4))

/-- Reads the header at the front of a file.  The length is looked at before the letters, and the
numbers are not compared with each other. -/
def parse (bs : List UInt8) : Except ImageError Header :=
  if bs.length < headerSize then .error (.shortHeader bs.length)
  else match bs with
    | 0x4d :: 0x4a :: _ => .ok ⟨field bs 2, field bs 6, field bs 10⟩
    | first :: second :: _ => .error (.badMagic first second)
    | _ => .error (.shortHeader bs.length)

end Header

/-- An object file in memory.  Its header may contradict the segments if it was not made by
`ofSegments`. -/
structure Image where
  /-- The header. -/
  header : Header
  /-- The code segment. -/
  code : List UInt8
  /-- The static segment. -/
  data : List UInt8
  deriving DecidableEq, Repr, Inhabited

namespace Image

/-- The image with the given segments; its header tells their sizes.  An incomplete word at the end
of the static segment would not be counted. -/
def ofSegments (code data : List UInt8) (startPc : UInt32) : Image where
  header := ⟨UInt32.ofNat code.length, UInt32.ofNat (data.length / wordSize), startPc⟩
  code := code
  data := data

/-- The image with the given segments, of which the static one must be made of whole words. -/
def ofSegments? (code data : List UInt8) (startPc : UInt32) : Except Misuse Image :=
  let excess := data.length % wordSize
  if excess = 0 then .ok (.ofSegments code data startPc) else .error (.brokenWord excess)

/-- The image as a file.  The parts follow each other without gaps. -/
def bytes (i : Image) : List UInt8 := i.header.bytes ++ i.code ++ i.data

/-- Reads an image from a file; bytes after the static segment are ignored. -/
def parse (bs : List UInt8) : Except ImageError Image := do
  let header ← Header.parse bs
  let codeSize := header.codeSize.toNat
  let dataSize := header.dataWords.toNat * wordSize
  let announced := headerSize + codeSize + dataSize
  if bs.length < announced then
    .error (.shortSegments announced bs.length)
  else
    let segments := bs.drop headerSize
    .ok ⟨header, segments.take codeSize, (segments.drop codeSize).take dataSize⟩

/-- The image written over the front of a sink of `capacity` zero bytes.  A sink that is too small
is an error, whatever part of the image would fit. -/
def writeInto (capacity : Nat) (i : Image) : Except ImageError (List UInt8) :=
  let bs := i.bytes
  if capacity < bs.length then .error .sinkFull
  else .ok (bs ++ List.replicate (capacity - bs.length) 0)

end Image
end MJ
