import MJ.Misuse

/-!
# Procedures under construction

A procedure keeps its parameters in the first words of its frame and its locals after them, in
the order in which they were set aside.

## Main definitions

* `Procedure`, `Procedure.alloc` — the open procedure and its frame.
* `Procedure.countedSize` — the size of the frame, which must fit sixty-four bits.
* `Procedure.sizeByte` — the size of the frame as `enter` stores it.
* `paramOffset` — where a parameter is.

## References

The MJ specification, §4.3 *Procedure Frame Tracker*.  The offset of a local is the sum of the
sizes before it, as §E8 *Decisions on ambiguities* reads that section.
-/

namespace MJ

/-- The place of a parameter in the frame: parameters come first, in order.  `enter` moves the
arguments there in the order in which they were pushed. -/
def paramOffset (index : Nat) : Nat := index

/-- A procedure under construction.  At most one is open at a time, since procedures are not nested.
-/
structure Procedure where
  /-- The label at its start. -/
  label : String
  /-- The number of its parameters. -/
  params : Nat
  /-- The code address of the byte that is to hold the size of its frame. -/
  sizeSlot : Nat
  /-- The words of the frame set aside so far, parameters included. -/
  size : Nat
  deriving DecidableEq, Repr

namespace Procedure

/-- A procedure without locals.  Its frame holds the parameters from the start. -/
def ofParams (label : String) (params sizeSlot : Nat) : Procedure :=
  ⟨label, params, sizeSlot, params⟩

/-- The size of the frame, which is counted in sixty-four bits.  A count that has gone past them is
found when it is used the next time. -/
def countedSize (p : Procedure) : Except Misuse Nat :=
  if p.size < UInt64.size then .ok p.size else .error .sizeOverflow

/-- The procedure with `words` words more in its frame, and the offset of the first of them.  Only
the words before them are counted. -/
def alloc (p : Procedure) (words : Nat) : Except Misuse (Nat × Procedure) := do
  let offset ← p.countedSize
  .ok (offset, { p with size := offset + words })

/-- The size of the frame as the unsigned byte of `enter`.  A frame that is larger cannot be
announced to the machine, and so to close the procedure is a misuse. -/
def sizeByte (p : Procedure) : Except Misuse UInt8 := do
  let size ← p.countedSize
  if size ≤ 255 then .ok (UInt8.ofNat size) else .error (.frameTooLarge p.label size)

end Procedure
end MJ
