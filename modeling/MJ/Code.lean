import MJ.Instruction
import MJ.ImageError

/-!
# Code segments

A code segment is a run of instructions without gaps.  Decoding finds where each one starts.

## Main definitions

* `Located` — an instruction at its address.
* `Code.decode` — all instructions of a code segment.
* `Code.histogram` — how often each mnemonic occurs.

## References

The MJ specification, §6 *External Interfaces*, under *Instruction catalogue*, and §E6
*Supplemented features* for the disassembler that decoding is for.
-/

namespace MJ

/-- An instruction at its code address.  Listings show both, and jumps refer to the address. -/
structure Located where
  /-- The address of the opcode. -/
  address : Nat
  /-- The instruction there. -/
  instruction : Instruction
  deriving DecidableEq, Repr, Inhabited

namespace Code

/-- Decodes `bs`, whose first byte stands at `address`.  The address is kept for the result and for
the errors; it plays no part in decoding. -/
def decodeFrom (address : Nat) (bs : List UInt8) : Except ImageError (List Located) :=
  match bs with
  | [] => .ok []
  | b :: rest =>
    match Opcode.ofByte? b with
    | none => .error (.unknownOpcode address b)
    | some op =>
      let operands := rest.take op.operandSize
      if operands.length < op.operandSize then
        .error (.shortInstruction op address (rest.length + 1))
      else do
        let following ← decodeFrom (address + op.size) (rest.drop op.operandSize)
        .ok (⟨address, .ofOperands op fun i => operands.getD i 0⟩ :: following)
termination_by bs.length
decreasing_by simp only [List.length_drop, List.length_cons]; omega

/-- Decodes a whole code segment.  All bytes have to belong to instructions, in one pass from the
first to the last. -/
def decode (code : List UInt8) : Except ImageError (List Located) := decodeFrom 0 code

/-! ### Counting instructions -/

/-- Adds one occurrence of `name` to a table of counts.  A name that is new comes last, so that the
table has each name once. -/
def count (name : String) : List (String × Nat) → List (String × Nat)
  | [] => [(name, 1)]
  | (other, n) :: rest =>
    if other = name then (other, n + 1) :: rest else (other, n) :: count name rest

/-- Whether an entry of a table of counts comes before another: the more frequent first, and
names in their order among equally frequent ones. -/
def countLE (a b : String × Nat) : Bool :=
  b.2 < a.2 || (a.2 == b.2 && a.1 ≤ b.1)

/-- How often each mnemonic occurs, the most frequent first.  The order among equally frequent ones
is fixed, so that the same code always gives the same table. -/
def histogram (code : List Located) : List (String × Nat) :=
  (code.foldl (fun counts l => count l.instruction.opcode.mnemonic counts) []).mergeSort countLE

end Code
end MJ
