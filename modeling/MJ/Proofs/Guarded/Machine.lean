import MJ.Proofs.Guarded.Number

/-!
# The guarded machine

The machine with a guard on every operation that has a domain.  What is fetched is an opcode with a
list of operands, which are decoded from ranges of the code and looked up by index.  Static words
are ranges of bytes, the heap and the frames are indexed, addresses are added and multiplied as
numbers of 64 bits, and a line of input is taken apart byte by byte.

Popping and pushing, the locals, the check of a heap address, control transfer and printing are
those of the machine.  What the machine refuses without a fault, a field that is too wide, is a
breach.

## Main definitions

* `Machine.Guarded.getStatic`, `setStatic`, `printString` — the static segment.
* `Machine.Guarded.getField`, `setField`, `getElement`, `setElement`, `allocate`, `newArray` — the
  heap.
* `Machine.Guarded.popInto`, `readInteger` — arguments and input.
* `Machine.Guarded.perform`, `execute` — the effect of an operation.
* `Machine.Guarded.fetch`, `step` — a whole step.
-/

namespace MJ
namespace Machine
namespace Guarded

/-! ### Operands -/

/-- An operand as an unsigned number of eight bits.  All operands are fetched with a sign, which is
taken off again here. -/
def byte (v : Word) : Nat := v.toInt8.toUInt8.toNat

/-- An operand as an unsigned number of sixteen bits. -/
def half (v : Word) : Nat := v.toInt16.toUInt16.toNat

/-- A word as an index: its sign fills the upper 32 of 64 bits.  A negative word is therefore a huge
index, and adding to it could overflow. -/
def index (v : Word) : Nat := v.toInt64.toUInt64.toNat

/-! ### Static words -/

/-- Where the static word at `address` starts.  The end of the word is compared with the size of the
segment, so that no byte of it lies outside. -/
def staticStart (address : Nat) : Guarded Nat := do
  let start ← product address wordSize
  let stop ← sum start wordSize
  if (← get).statics.size < stop then fail (.staticAccess address) else return start

/-- The static word at `address`. -/
def getStatic (address : Nat) : Guarded Word := do
  let start ← staticStart address
  let stop ← sum start wordSize
  decode .s32 (← slice (← get).statics.toList start stop)

/-- Changes the static word at `address`.  A range is overwritten as a whole, which needs as many
new bytes as there are old ones. -/
def setStatic (address : Nat) (v : Word) : Guarded Unit := do
  let start ← staticStart address
  let stop ← sum start wordSize
  let old ← slice (← get).statics.toList start stop
  let new ← encode .s32 v
  if old.length = new.length then
    modify fun s => { s with statics := writeAt s.statics start new }
  else breach .length

/-- Prints the string at a static word, up to the first zero byte or to the end of the segment. -/
def printString (operand : Word) : Guarded Unit := do
  let start ← product (half operand) wordSize
  let statics := (← get).statics
  if statics.size < start then fail (.staticAccess operand.toInt)
  else
    let bs := statics.toList.drop start
    write (← slice bs 0 (bs.findIdx (· == 0)))

/-! ### The heap -/

/-- The heap word at an index. -/
def getHeap (i : Nat) : Guarded Word := do
  element (← get).heap.toList i

/-- Changes the heap word at an index. -/
def setHeap (i : Nat) (v : Word) : Guarded Unit := do
  let heap ← replace (← get).heap i v
  modify fun s => { s with heap := heap }

/-- The word `offset` words after `base`. -/
def getField (base offset : Word) : Guarded Word := do
  getHeap (← heapIndex base offset)

/-- Changes the word `offset` words after `base`. -/
def setField (base offset v : Word) : Guarded Unit := do
  setHeap (← heapIndex base offset) v

/-- The heap index of an element of the array at `base`.  The index is compared with the length
before one is added to it, and so the addition cannot overflow. -/
def elementIndex (base index : Word) : Guarded Nat := do
  let length ← getField base 0
  if index < 0 ∨ length ≤ index then fail (.indexOutOfBounds index length)
  else heapIndex base (← successor index)

/-- An element of the array at `base`. -/
def getElement (base index : Word) : Guarded Word := do
  getHeap (← elementIndex base index)

/-- Changes an element of the array at `base`. -/
def setElement (base index v : Word) : Guarded Unit := do
  setHeap (← elementIndex base index) v

/-- Adds a zeroed object of `words` words to the heap and gives its address.  An object without
words takes one, so that no two objects have the same address. -/
def allocate (limits : Limits) (words : Nat) : Guarded Word := do
  let base := (← get).heap.size
  let stop ← sum base words
  if limits.heapWords < stop then fail (.heapExhausted limits.heapWords)
  else
    let size ← sum base (max words 1)
    modify fun s => { s with heap := s.heap ++ Array.replicate (size - base) 0 }
    return Int32.ofNat base

/-- Replaces a length by the address of a new array. -/
def newArray (limits : Limits) : Guarded Unit := do
  let length ← pop
  if length < 0 then fail (.negativeArraySize length)
  else
    let words ← sum (index length) 1
    let base ← allocate limits words
    setHeap (index base) length
    push base

/-! ### Frames and input -/

/-- Pops `n` words into the first `n` slots of a frame, the topmost word into the last of them. -/
def popInto : (n : Nat) → (frame : Array Word) → Guarded (Array Word)
  | 0, frame => return frame
  | n + 1, frame => do
    let v ← pop
    popInto n (← replace frame n v)

/-- Opens a frame whose first slots hold the popped arguments. -/
def enter (params size : Nat) : Guarded Unit := do
  let frame ← popInto params (Array.replicate (max size params) 0)
  modify fun s => { s with frames := s.frames.push frame }

/-- The number on a line of input. -/
def lineNumber (line : List UInt8) : Guarded Word :=
  if line.isEmpty then fail .inputEnd
  else match Utf8.decode? line with
    | none => fail .inputNotText
    | some text => number (Text.trim text.toList)

/-- Reads the number on the next line of input. -/
def readInteger : Guarded Word := do
  let (line, rest) := Input.line (← get).input
  modify fun s => { s with input := rest }
  lineNumber line

/-! ### Instructions -/


/-- Combines the two topmost words. -/
def binary (f : Word → Word → Guarded Word) : Guarded Unit := do
  let b ← pop
  let a ← pop
  push (← f a b)

/-- Pops two words and goes on at the operand if they compare so. -/
def branch (test : Comparison) (operands : List Word) : Guarded Unit := do
  let b ← pop
  let a ← pop
  if test.holds a b then goto (half (← element operands 0))

/-- The effect of an operation other than `ret`.  The operands are looked up by index, which is a
breach if the opcode has fewer of them. -/
def perform (limits : Limits) (op : Opcode) (operands : List Word) : Guarded Unit :=
  match op with
  | .load => do
    push (← getLocal (byte (← element operands 0)))
  | .load0 | .load1 | .load2 | .load3 => do
    push (← getLocal (← difference op.byte.toNat Opcode.load0.byte.toNat))
  | .store => do
    let v ← pop
    setLocal (byte (← element operands 0)) v
  | .store0 | .store1 | .store2 | .store3 => do
    let v ← pop
    setLocal (← difference op.byte.toNat Opcode.store0.byte.toNat) v
  | .getstatic => do
    push (← getStatic (half (← element operands 0)))
  | .putstatic => do
    let v ← pop
    setStatic (half (← element operands 0)) v
  | .getfield => do
    let base ← pop
    push (← getField base (Int32.ofNat (half (← element operands 0))))
  | .putfield => do
    let v ← pop
    let base ← pop
    setField base (Int32.ofNat (half (← element operands 0))) v
  | .const0 | .const1 | .const2 | .const3 | .const4 | .const5 => do
    push (Int32.ofNat (← difference op.byte.toNat Opcode.const0.byte.toNat))
  | .constM1 => push (-1)
  | .const => do
    push (← element operands 0)
  | .add => binary fun a b => return a + b
  | .sub => binary fun a b => return a - b
  | .mul => binary fun a b => return a * b
  | .div => binary fun a b => if b = 0 then fail .divisionByZero else quotient a b
  | .rem => binary fun a b => if b = 0 then fail .divisionByZero else remainder a b
  | .neg => do
    let a ← pop
    push (-a)
  | .shl => binary fun a b => return a <<< b
  | .shr => binary fun a b => return a >>> b
  | .new => do
    push (← allocate limits (half (← element operands 0)))
  | .newarray => newArray limits
  | .aload | .baload => do
    let index ← pop
    let base ← pop
    push (← getElement base index)
  | .astore => do
    let v ← pop
    let index ← pop
    let base ← pop
    setElement base index v
  | .bastore => do
    let v ← pop
    let index ← pop
    let base ← pop
    setElement base index (Int32.ofNat v.toUInt32.toUInt8.toNat)
  | .arraylength => do
    let base ← pop
    push (← getField base 0)
  | .pop => do
    let _ ← pop
  | .jmp => do
    goto (half (← element operands 0))
  | .jeq => branch .eq operands
  | .jne => branch .ne operands
  | .jlt => branch .lt operands
  | .jle => branch .le operands
  | .jgt => branch .gt operands
  | .jge => branch .ge operands
  | .call => do
    call limits (half (← element operands 0))
  | .ret => return
  | .enter => do
    let params ← element operands 0
    let size ← element operands 1
    enter (byte params) (byte size)
  | .exit => exit
  | .read => do
    push (← readInteger)
  | .print => do
    let width ← pop
    let v ← pop
    writeField width (Text.decimal v.toInt)
  | .bread => do
    push (← readByte)
  | .bprint => do
    let width ← pop
    let v ← pop
    writeField width [Char.ofNat v.toUInt32.toUInt8.toNat]
  | .trap => fail .trap
  | .sprint => do
    printString (← element operands 0)
  | .last => fail (.invalidOpcode Opcode.last.byte)

/-- Executes an operation; tells whether the machine goes on. -/
def execute (limits : Limits) (op : Opcode) (operands : List Word) : Guarded Bool := do
  if op = .ret then ret
  else
    perform limits op operands
    return true

/-! ### Steps -/

/-- The operands of the given widths in the code from `start` on. -/
def fetchOperands (code : List UInt8) : (start : Nat) → List Width → Guarded (List Word)
  | _, [] => return []
  | start, w :: ws => do
    let v ← decode w (← slice code start code.length)
    let next ← sum start w.size
    return v :: (← fetchOperands code next ws)

/-- The operation at `pc` and its operands.  All bytes of the instruction are asked for at once,
before any operand is decoded. -/
def fetch (code : List UInt8) (pc : Nat) : Guarded (Opcode × List Word) :=
  match code[pc]? with
  | none => fail .pcOutOfBounds
  | some b =>
    match (Opcode.ofByte? b).filter (· ≠ .last) with
    | none => fail (.invalidOpcode b)
    | some op => do
      let stop ← sum pc op.size
      if code.length < stop then fail .pcOutOfBounds
      else
        let first ← sum pc 1
        return (op, ← fetchOperands code first op.operands)

/-- One step; tells whether the machine goes on.  As in the machine, the limits are checked first
and the program counter moves before the instruction is executed. -/
def step (limits : Limits) (code : List UInt8) : Guarded Bool := do
  checkLimits limits
  let pc := (← get).pc
  let (op, operands) ← fetch code pc
  let next ← sum pc op.size
  modify fun s => { s with pc := next }
  execute limits op operands

end Guarded
end Machine
end MJ
