import MJ.ImageError
import MJ.Text.Utf8

/-!
# Label maps

The names of code addresses, kept in a file beside an object file for its listing.

## Main definitions

* `LabelMap` — the entry address and the labels.
* `LabelMap.namesAt` — the labels of an address.
* `LabelMap.bytes`, `LabelMap.parse` — the map as a file and back.

## References

The MJ specification, §E5 *Serialization of auxiliary data*, where the map is called the symbol
map.
-/

namespace MJ

/-- Names of code addresses.  A run does not need it. -/
structure LabelMap where
  /-- The address of the main procedure. -/
  entry : UInt16
  /-- The labels with their addresses, in the order of the file. -/
  labels : List (String × UInt16)
  deriving DecidableEq, Repr, Inhabited

namespace LabelMap

/-- The labels of an address, in the order of the map.  There may be none or several. -/
def namesAt (m : LabelMap) (address : Nat) : List String :=
  m.labels.filterMap fun (name, a) => if a.toNat = address then some name else none

/-- A label as it stands in a file: the length of its name, the name, the address.  The length
counts bytes, not characters. -/
def labelBytes (label : String × UInt16) : List UInt8 :=
  let name := Utf8.encode label.1
  Varint.encode name.length ++ name ++ Varint.encode label.2.toNat

/-- The map as a file: entry, number of labels, labels.  The numbers have no fixed size. -/
def bytes (m : LabelMap) : List UInt8 :=
  Varint.encode m.entry.toNat ++ Varint.encode m.labels.length ++ m.labels.flatMap labelBytes

/-- Reads a label from the front of `bs`.  Also gives the bytes after it. -/
def readLabel (bs : List UInt8) : Except ReadError ((String × UInt16) × List UInt8) := do
  let (length, bs) ← Varint.read64 bs
  if bs.length < length then .error .endOfInput
  else
    match Utf8.decode? (bs.take length) with
    | none => .error .badText
    | some name =>
      let (address, bs) ← Varint.read16 (bs.drop length)
      .ok ((name, UInt16.ofNat address), bs)

/-- Reads `count` labels from the front of `bs`.  The first one that cannot be read is the error. -/
def readLabels : (count : Nat) → (bs : List UInt8) → Except ReadError (List (String × UInt16))
  | 0, _ => .ok []
  | count + 1, bs => do
    let (label, bs) ← readLabel bs
    let labels ← readLabels count bs
    .ok (label :: labels)

/-- Reads a map; bytes after its last label are ignored. -/
def read (bs : List UInt8) : Except ReadError LabelMap := do
  let (entry, bs) ← Varint.read16 bs
  let (count, bs) ← Varint.read64 bs
  let labels ← readLabels count bs
  .ok ⟨UInt16.ofNat entry, labels⟩

/-- Reads a map from a file.  The cause is kept, and shown as one of an image. -/
def parse (bs : List UInt8) : Except ImageError LabelMap :=
  match read bs with
  | .ok m => .ok m
  | .error cause => .error (.labelMap cause)

end LabelMap
end MJ
