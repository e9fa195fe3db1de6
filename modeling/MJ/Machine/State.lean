import MJ.Image
import MJ.Instruction
import MJ.Machine.Input

/-!
# The state of the machine

The machine has an evaluation stack, a stack of frames that hold the locals, a stack of return
addresses, a heap of words and the static segment.  Address 0 of the heap is never handed out.

## Main definitions

* `Limits` — how much a run may use.
* `State`, `State.load` — the machine, and the machine ready to run an image.
* `Exec` — an action on the machine that may stop the run; what it did before it stopped stays.
* `pop`, `push`, `getLocal`, `setLocal`, `getStatic`, `setStatic`, `getHeap`, `setHeap`,
  `allocate` — the accesses that instructions are made of.

## References

The MJ specification, §E6 *Supplemented features*, under *Stack machine*, and §E4 *Configuration*
for the limits of a run.  *Frame*, *word* and *static data segment* are as in the Glossary.
-/

namespace MJ

/-- How much a run may use.  The number of steps is the only one that may be left open. -/
structure Limits where
  /-- The number of steps, if it is bounded. -/
  maxSteps : Option Nat
  /-- The number of words on the evaluation stack when an instruction starts. -/
  maxStack : Nat
  /-- The number of open calls. -/
  maxCalls : Nat
  /-- The number of heap words, the unused word 0 included. -/
  heapWords : Nat
  deriving DecidableEq, Repr

/-- The limits of a run for which none are asked. -/
def Limits.standard : Limits where
  maxSteps := none
  maxStack := 10000
  maxCalls := 1000
  heapWords := 1048576

/-- Why a run stops before the program returns.  The second is not a fault of the machine, and so
there is no failure to report. -/
inductive Stop where
  /-- An instruction faulted. -/
  | fault (cause : Fault)
  /-- A number or character was to be printed in a field wider than 65535. -/
  | wideField
  deriving DecidableEq, Repr

namespace Machine

/-- The state of the machine between two instructions.  All of it is a value, so that a run is a
function of the image and the input. -/
structure State where
  /-- The address of the next instruction. -/
  pc : Nat
  /-- How many steps have been started. -/
  steps : Nat
  /-- The evaluation stack, its top last. -/
  stack : Array Word
  /-- The locals of the open procedures, innermost last. -/
  frames : Array (Array Word)
  /-- The return addresses of the open calls, innermost last. -/
  returns : Array Nat
  /-- The heap. -/
  heap : Array Word
  /-- The static segment. -/
  statics : Array UInt8
  /-- The input that has not been read. -/
  input : List UInt8
  /-- What has been printed. -/
  output : Array UInt8
  deriving DecidableEq, Repr

/-- The machine ready to run an image. -/
def State.load (image : Image) (input : List UInt8) : State where
  pc := image.header.startPc.toNat
  steps := 0
  stack := #[]
  frames := #[]
  returns := #[]
  heap := #[0]
  statics := image.data.toArray
  input := input
  output := #[]

/-- An action on the machine.  It stops the run by an error, and the state at that moment is kept.
-/
abbrev Exec := EStateM Stop State

/-- Stops the run with a fault.  Nothing is undone. -/
@[inline] def fault {α : Type} (cause : Fault) : Exec α := throw (.fault cause)

/-! ### The evaluation stack -/

/-- Pushes a word.  The limit on the stack is checked before the next instruction, not here. -/
@[inline] def push (v : Word) : Exec Unit := fun s =>
  .ok () { s with stack := s.stack.push v }

/-- Pops a word.  The machine does not know types, and takes any word. -/
@[inline] def pop : Exec Word := fun s =>
  match s.stack.back? with
  | some v => .ok v { s with stack := s.stack.pop }
  | none => .error (.fault .stackUnderflow) s

/-! ### Locals -/

/-- The local at `slot` of the innermost frame.  The frames below it cannot be reached. -/
@[inline] def getLocal (slot : Nat) : Exec Word := fun s =>
  match s.frames.back? with
  | none => .error (.fault .noFrame) s
  | some frame =>
    match frame[slot]? with
    | some v => .ok v s
    | none => .error (.fault (.frameAccess slot frame.size)) s

/-- Changes the local at `slot` of the innermost frame.  Frames do not grow, and so the slot has to
exist. -/
@[inline] def setLocal (slot : Nat) (v : Word) : Exec Unit := fun s =>
  match s.frames.back? with
  | none => .error (.fault .noFrame) s
  | some frame =>
    if slot < frame.size then
      .ok () { s with frames := s.frames.pop.push (frame.setIfInBounds slot v) }
    else .error (.fault (.frameAccess slot frame.size)) s

/-- Pops `n` words into the first `n` slots of a frame, the topmost into the last. -/
def popInto : (n : Nat) → (frame : Array Word) → Exec (Array Word)
  | 0, frame => pure frame
  | n + 1, frame => do
    let v ← pop
    popInto n (frame.setIfInBounds n v)

/-! ### Static words -/

/-- The static word at `address`.  All four bytes have to lie inside of the segment. -/
def getStatic (address : Nat) : Exec Word := fun s =>
  let start := address * wordSize
  if start + wordSize ≤ s.statics.size then
    let byte (i : Nat) : UInt8 := s.statics.getD (start + i) 0
    .ok (Word.ofBytes (byte 0) (byte 1) (byte 2) (byte 3)) s
  else .error (.fault (.staticAccess address)) s

/-- The bytes `bs` written over `data` from `start` on.  Bytes that would come after the end are
dropped. -/
def writeAt (data : Array UInt8) (start : Nat) : List UInt8 → Array UInt8
  | [] => data
  | b :: bs => writeAt (data.setIfInBounds start b) (start + 1) bs

/-- Changes the static word at `address`.  The size of the segment does not change, and the other
words stay as they are. -/
def setStatic (address : Nat) (v : Word) : Exec Unit := fun s =>
  let start := address * wordSize
  if start + wordSize ≤ s.statics.size then
    .ok () { s with statics := writeAt s.statics start (Width.s32.encode v) }
  else .error (.fault (.staticAccess address)) s

/-- The bytes of `data` from `start` on up to the first zero byte, at most `n` of them. -/
def stringAt (data : Array UInt8) (start : Nat) : (n : Nat) → List UInt8
  | 0 => []
  | n + 1 =>
    let b := data.getD start 0
    if b = 0 then [] else b :: stringAt data (start + 1) n

/-! ### The heap -/

/-- The heap index of the word `offset` words after `base`.  The sum wraps around, as all words do,
and is checked afterwards. -/
@[inline] def heapIndex (base offset : Word) : Exec Nat := fun s =>
  if base = 0 then .error (.fault .nullReference) s
  else
    let address := base + offset
    if 0 ≤ address ∧ address.toInt.toNat < s.heap.size then .ok address.toInt.toNat s
    else .error (.fault (.heapAccess address)) s

/-- The heap word at an index.  The index comes from `heapIndex`, and so it is inside of the heap.
-/
@[inline] def getHeap (i : Nat) : Exec Word := fun s => .ok (s.heap.getD i 0) s

/-- Changes the heap word at an index.  As for reading, the index has been checked before. -/
@[inline] def setHeap (i : Nat) (v : Word) : Exec Unit := fun s =>
  .ok () { s with heap := s.heap.setIfInBounds i v }

/-- The heap index of an element of the array at `base`, whose first word is its length.  The index
is compared with the length before the element is looked for. -/
def elementIndex (base index : Word) : Exec Nat := do
  let length ← getHeap (← heapIndex base 0)
  if index < 0 ∨ length ≤ index then fault (.indexOutOfBounds index length)
  else heapIndex base (index + 1)

/-- Adds a zeroed object of `words` words to the heap and gives its address.  An object without
words takes up one word all the same, so that no two objects share an address. -/
def allocate (limits : Limits) (words : Nat) : Exec Word := fun s =>
  let base := s.heap.size
  if limits.heapWords < base + words then .error (.fault (.heapExhausted limits.heapWords)) s
  else .ok (Int32.ofNat base) { s with heap := s.heap ++ Array.replicate (max words 1) 0 }

/-! ### Output -/

/-- Prints bytes.  Nothing that was printed is taken back. -/
def write (bs : List UInt8) : Exec Unit := fun s =>
  .ok () { s with output := s.output ++ bs }

/-- Prints a text in a field of at least `width` characters, its blanks first.  A longer text is not
cut. -/
def writeField (width : Word) (text : List Char) : Exec Unit :=
  if 65535 < width then throw .wideField
  else write ((Text.padLeft width.toInt.toNat text).flatMap String.utf8EncodeChar)

end Machine
end MJ
