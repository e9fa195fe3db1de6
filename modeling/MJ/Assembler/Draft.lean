import MJ.ImageError
import MJ.Misuse

/-!
# Drafts of code

Code under construction only grows at its end.  A byte that is not known yet is a hole; each hole
is filled once.

## Main definitions

* `Slot`, `Draft` — bytes, some of them not known yet.
* `Draft.emit`, `Draft.emitOperand`, `Draft.emitHoles` — growth at the end.
* `Draft.fill` — fills holes.
* `Draft.bytes` — the finished code.

## References

The MJ specification, §3 *Data Model*, under *Code Buffer*, and §4.2 *Code Buffer & Backpatch
Resolver*: a hole is called a placeholder there, and to fill one is to backpatch it.
-/

namespace MJ

/-- A byte of code under construction.  A hole is told apart from every byte, zero included, so that
no byte is taken for one that is still missing. -/
inductive Slot where
  /-- A byte that does not change any more. -/
  | known (byte : UInt8)
  /-- A byte that is not known yet. -/
  | hole
  deriving DecidableEq, Repr, Inhabited

/-- Code under construction.  The addresses of its bytes are their places in it, and a byte keeps
its address for good. -/
structure Draft where
  /-- The bytes written so far. -/
  slots : Array Slot
  deriving DecidableEq, Repr

namespace Draft

/-- The draft without any code. -/
def empty : Draft := ⟨#[]⟩

/-- The address of the next byte.  Nothing is ever taken off, so this only grows. -/
def size (d : Draft) : Nat := d.slots.size

/-- Appends known bytes.  They are the last ones, and what was there before keeps its address. -/
def append (d : Draft) : List UInt8 → Draft
  | [] => d
  | b :: bs => append ⟨d.slots.push (.known b)⟩ bs

/-- Appends an opcode. -/
def emit (d : Draft) (op : Opcode) : Draft := d.append [op.byte]

/-- Appends the operand bytes of a word.  Whether the word fits the width is for the caller to
check: only its low bytes are kept. -/
def emitOperand (d : Draft) (v : Word) (w : Width) : Draft := d.append (w.encode v)

/-- Appends `n` holes.  They are to be filled once their bytes are known. -/
def emitHoles (d : Draft) : (n : Nat) → Draft
  | 0 => d
  | n + 1 => emitHoles ⟨d.slots.push .hole⟩ n

/-- The greatest number of slots that can be addressed.  Each slot is counted as two bytes, and an
allocation has at most as many bytes as an address with a sign can reach. -/
def maxSlots : Nat := 4611686018427387903

/-- Whether `n` slots more can be addressed.  Growth is not refused for want of room here; the
callers for whom it matters ask before. -/
def hasRoom (d : Draft) (n : Nat) : Bool := d.size + n ≤ maxSlots

/-- Fills the holes from `address` on with bytes.  They are filled from left to right, and the first
slot that is not a hole, or not there, is a misuse. -/
def fillBytes (d : Draft) (address : Nat) : List UInt8 → Except Misuse Draft
  | [] => .ok d
  | b :: bs =>
    match d.slots[address]? with
    | some .hole => fillBytes ⟨d.slots.setIfInBounds address (.known b)⟩ (address + 1) bs
    | some (.known _) => .error (.noHole address)
    | none => .error (.pastEnd address d.size)

/-- Fills the holes from `address` on with the operand bytes of a word. -/
def fill (d : Draft) (address : Nat) (v : Word) (w : Width) : Except Misuse Draft :=
  d.fillBytes address (w.encode v)

/-- The bytes in slots of which the first stands at `address`; no hole may be left.  The address is
kept only for the error, which names the first hole. -/
def bytesFrom (address : Nat) : List Slot → Except ImageError (List UInt8)
  | [] => .ok []
  | .known b :: slots => do
    let bs ← bytesFrom (address + 1) slots
    .ok (b :: bs)
  | .hole :: _ => .error (.unfilledHole address)

/-- The finished code; no hole may be left. -/
def bytes (d : Draft) : Except ImageError (List UInt8) := bytesFrom 0 d.slots.toList

end Draft
end MJ
