import MJ.Text.Column
import MJ.Text.Quoted
import MJ.Width

/-!
# Faults

What can stop a run before the program returns.

## Main definitions

* `Fault`, `Fault.message` — the causes and their wording.
* `Failure`, `Failure.message` — a fault with the place where it struck.

## References

The MJ specification, §E2 *Error handling*, on the faults of the stack machine.
-/

namespace MJ

/-- Why an instruction could not be executed.  A run ends at the first one; the program cannot catch
it. -/
inductive Fault where
  /-- A pop from the empty evaluation stack. -/
  | stackUnderflow
  /-- The evaluation stack holds more words than allowed. -/
  | stackLimit (max : Nat)
  /-- All allowed steps are used up. -/
  | stepLimit (max : Nat)
  /-- All allowed calls are open. -/
  | callDepth (max : Nat)
  /-- The byte at the program counter is no executable opcode. -/
  | invalidOpcode (byte : UInt8)
  /-- The instruction does not lie inside the code segment. -/
  | pcOutOfBounds
  /-- Division or remainder by zero. -/
  | divisionByZero
  /-- A local or `exit` without a frame. -/
  | noFrame
  /-- A local outside its frame. -/
  | frameAccess (offset size : Nat)
  /-- A static word or string outside the static segment. -/
  | staticAccess (address : Int)
  /-- An access through address 0. -/
  | nullReference
  /-- An access outside the heap. -/
  | heapAccess (address : Word)
  /-- An index outside its array. -/
  | indexOutOfBounds (index length : Word)
  /-- An array of negative length. -/
  | negativeArraySize (size : Word)
  /-- The heap would outgrow its limit. -/
  | heapExhausted (max : Nat)
  /-- A line of input without a number that fits a word. -/
  | badInput (text : String)
  /-- No input is left. -/
  | inputEnd
  /-- The program stopped itself. -/
  | trap
  /-- A line of input that is not UTF-8. -/
  | inputNotText
  deriving DecidableEq, Repr

/-- The text of a fault. -/
def Fault.message : Fault → String
  | stackUnderflow => "expression stack underflow"
  | stackLimit max => s!"expression stack limit exceeded ({max})"
  | stepLimit max => s!"execution step limit exceeded ({max})"
  | callDepth max => s!"call depth limit exceeded ({max}) - possible infinite recursion"
  | invalidOpcode byte => s!"invalid opcode {byte}"
  | pcOutOfBounds => "program counter left the code segment"
  | divisionByZero => "division by zero"
  | noFrame => "no active stack frame"
  | frameAccess offset size => s!"frame offset {offset} outside frame of {size} words"
  | staticAccess address => s!"static address {address} outside data segment"
  | nullReference => "null reference"
  | heapAccess address => s!"heap address {address.toInt} outside heap"
  | indexOutOfBounds index length =>
    s!"array index {index.toInt} out of bounds for length {length.toInt}"
  | negativeArraySize size => s!"negative array size {size.toInt}"
  | heapExhausted max => s!"heap exhausted ({max} words)"
  | badInput text => "invalid integer input " ++ Text.quoted text
  | inputEnd => "end of input"
  | trap => "trap"
  | inputNotText => "i/o error: stream did not contain valid UTF-8"

/-- A fault together with where it struck.  The address is that of the faulting instruction, not of
the one after it. -/
structure Failure where
  /-- The cause. -/
  fault : Fault
  /-- The address of the instruction. -/
  pc : Nat
  /-- The return addresses of the open calls, innermost last. -/
  callStack : List Nat
  deriving DecidableEq, Repr

namespace Failure

/-- One line for each open call, innermost first.  They are counted from 0 in that order. -/
def callLines (callStack : List Nat) : List String :=
  callStack.reverse.zipIdx.map fun (address, i) =>
    s!"\n    {i}: returns to " ++ Text.address address

/-- The text of a failure.  The open calls are listed after the fault, if there are any. -/
def message (f : Failure) : String :=
  let calls := if f.callStack.isEmpty then "" else "\n  call stack:"
  "runtime error at " ++ Text.address f.pc ++ ": " ++ f.fault.message ++ calls ++
    String.join (callLines f.callStack)

end Failure
end MJ
