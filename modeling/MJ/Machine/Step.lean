import MJ.Machine.State

/-!
# One step of the machine

A step counts itself, checks the limits, fetches the instruction at the program counter, moves
the program counter past it and executes it.

## Main definitions

* `Machine.fetch` — the instruction at an address of the code.
* `Machine.execute` — the effect of an instruction.
* `Machine.step` — a whole step.

## References

The MJ specification, §6 *External Interfaces*, under *Instruction catalogue*, and §E6
*Supplemented features*, under *Stack machine*.
-/

namespace MJ
namespace Machine

/-- The executable instruction at `pc`.  The operands have to lie inside of the code, too. -/
def fetch (code : Array UInt8) (pc : Nat) : Except Fault Instruction :=
  match code[pc]? with
  | none => .error .pcOutOfBounds
  | some b =>
    match Opcode.ofByte? b with
    | none | some .last => .error (.invalidOpcode b)
    | some op =>
      if code.size < pc + op.size then .error .pcOutOfBounds
      else .ok (.ofOperands op fun i => code.getD (pc + 1 + i) 0)

/-- Goes on at an address.  Whether an instruction is there is found at the next step. -/
@[inline] def goto (target : Nat) : Exec Unit := fun s => .ok () { s with pc := target }

/-- Opens a call from the current program counter to `target`.  The program counter is already past
the call, and that is where to return to. -/
def call (limits : Limits) (target : Nat) : Exec Unit := fun s =>
  if limits.maxCalls ≤ s.returns.size then .error (.fault (.callDepth limits.maxCalls)) s
  else .ok () { s with returns := s.returns.push s.pc, pc := target }

/-- Returns from the innermost call; `false` if there is none.  That ends the run without a fault.
-/
def ret : Exec Bool := fun s =>
  match s.returns.back? with
  | some address => .ok true { s with returns := s.returns.pop, pc := address }
  | none => .ok false s

/-- Opens a frame whose first slots hold the popped arguments.  The frame is large enough for the
arguments, even if its announced size is not. -/
def enter (params size : Nat) : Exec Unit := do
  let frame ← popInto params (Array.replicate (max size params) 0)
  fun s => .ok () { s with frames := s.frames.push frame }

/-- Drops the innermost frame.  The words on the evaluation stack stay, and with them a result. -/
def exit : Exec Unit := fun s =>
  if s.frames.isEmpty then .error (.fault .noFrame) s
  else .ok () { s with frames := s.frames.pop }

/-- Reads the number on the next line of input.  The line is used up even if there is no number on
it. -/
def readInteger : Exec Word := fun s =>
  match Input.readInteger s.input with
  | (.ok v, rest) => .ok v { s with input := rest }
  | (.error cause, rest) => .error (.fault cause) { s with input := rest }

/-- Reads the next byte of input; -1 at its end.  The end of input is no fault here, other than for
numbers. -/
def readByte : Exec Word := fun s =>
  match s.input with
  | [] => .ok (-1) s
  | b :: rest => .ok (Int32.ofNat b.toNat) { s with input := rest }

/-- Prints the string at a static word.  A segment may end without a zero byte. -/
def printString (address : Int16) : Exec Unit := fun s =>
  let start := Instruction.address address * wordSize
  if s.statics.size < start then .error (.fault (.staticAccess address.toInt)) s
  else write (stringAt s.statics start (s.statics.size - start)) s

/-- The word that an unsigned operand stands for.  Offsets inside of an object are not negative. -/
def unsigned (n : Int16) : Word := Int32.ofNat (Instruction.address n)

/-- Executes an instruction; the program counter already points past it.  Tells whether the
machine goes on. -/
def execute (limits : Limits) : Instruction → Exec Bool
  | .load slot => do
    push (← getLocal slot.toNat)
    return true
  | .loadShort slot => do
    push (← getLocal slot.val)
    return true
  | .store slot => do
    let v ← pop
    setLocal slot.toNat v
    return true
  | .storeShort slot => do
    let v ← pop
    setLocal slot.val v
    return true
  | .getStatic n => do
    push (← getStatic (Instruction.address n))
    return true
  | .putStatic n => do
    let v ← pop
    setStatic (Instruction.address n) v
    return true
  | .getField n => do
    let base ← pop
    push (← getHeap (← heapIndex base (unsigned n)))
    return true
  | .putField n => do
    let v ← pop
    let base ← pop
    setHeap (← heapIndex base (unsigned n)) v
    return true
  | .constShort v => do
    push (Int32.ofNat v.val)
    return true
  | .constMinusOne => do
    push (-1)
    return true
  | .const v => do
    push v
    return true
  | .arithmetic op => do
    let b ← pop
    let a ← pop
    match op.apply a b with
    | some v =>
      push v
      return true
    | none => fault .divisionByZero
  | .neg => do
    let a ← pop
    push (-a)
    return true
  | .new n => do
    push (← allocate limits (Instruction.address n))
    return true
  | .newArray _ => do
    let length ← pop
    if length < 0 then fault (.negativeArraySize length)
    else
      let base ← allocate limits (length.toInt.toNat + 1)
      setHeap base.toInt.toNat length
      push base
      return true
  | .loadElement | .loadByteElement => do
    let index ← pop
    let base ← pop
    push (← getHeap (← elementIndex base index))
    return true
  | .storeElement => do
    let v ← pop
    let index ← pop
    let base ← pop
    setHeap (← elementIndex base index) v
    return true
  | .storeByteElement => do
    let v ← pop
    let index ← pop
    let base ← pop
    setHeap (← elementIndex base index) (Int32.ofNat v.toUInt32.toUInt8.toNat)
    return true
  | .arrayLength => do
    let base ← pop
    push (← getHeap (← heapIndex base 0))
    return true
  | .pop => do
    let _ ← pop
    return true
  | .jump n => do
    goto (Instruction.address n)
    return true
  | .branch test n => do
    let b ← pop
    let a ← pop
    if test.holds a b then goto (Instruction.address n)
    return true
  | .call n => do
    call limits (Instruction.address n)
    return true
  | .ret => ret
  | .enter params size => do
    enter params.toNat size.toNat
    return true
  | .exit => do
    exit
    return true
  | .read => do
    push (← readInteger)
    return true
  | .print => do
    let width ← pop
    let v ← pop
    writeField width (Text.decimal v.toInt)
    return true
  | .readByte => do
    push (← readByte)
    return true
  | .printByte => do
    let width ← pop
    let v ← pop
    writeField width [Char.ofNat v.toUInt32.toUInt8.toNat]
    return true
  | .trap => fault .trap
  | .printString n => do
    printString n
    return true
  | .last => fault (.invalidOpcode Opcode.last.byte)

/-- Counts a step and checks the limits on steps and on the evaluation stack.  This comes before
anything else, so that a step too many has no other effect. -/
def checkLimits (limits : Limits) : Exec Unit := fun s =>
  let s := { s with steps := s.steps + 1 }
  match limits.maxSteps.filter (· < s.steps) with
  | some max => .error (.fault (.stepLimit max)) s
  | none =>
    if limits.maxStack < s.stack.size then .error (.fault (.stackLimit limits.maxStack)) s
    else .ok () s

/-- Moves to the instruction after the next one, which it gives.  Jumps and calls set the program
counter after this. -/
def advance (code : Array UInt8) : Exec Instruction := fun s =>
  match fetch code s.pc with
  | .ok i => .ok i { s with pc := s.pc + i.size }
  | .error cause => .error (.fault cause) s

/-- One step; tells whether the machine goes on.  The limits are checked first, and then the
instruction is fetched and executed. -/
def step (limits : Limits) (code : Array UInt8) : Exec Bool := do
  checkLimits limits
  let i ← advance code
  execute limits i

end Machine
end MJ
