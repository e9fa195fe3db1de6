import MJ.Assembler.Labels
import MJ.Assembler.Procedure
import MJ.Assembler.Statics
import MJ.Image
import MJ.Instruction
import MJ.LabelMap

/-!
# The assembler

The assembler writes code and static data for one program.  Procedures are written one after the
other; the size of a procedure's frame is filled in when it ends, and labels that were used before
their definition are filled in when the program is finished.

## Main definitions

* `Assembler` — a program under construction.
* `Asm` — an action on it.
* `Assembler.enter`, `Assembler.exit` — the two ends of a procedure.
* `Assembler.compare` — turns a comparison into the word 0 or 1.
* `Assembler.finish` — the finished image.
* `Assembler.labelMap` — the labels for a listing.

## References

The MJ specification, §4.4 *Backend Emitter*: each of its operations is one action here.  The end of
a program is `writeObjectFile` there, and §6 *External Interfaces* has the layout of what it writes.
-/

namespace MJ

/-- A program under construction.  It consists of what an image is made of, and of what is needed
only until then: the labels and the open procedure. -/
structure Assembler where
  /-- The code. -/
  code : Draft
  /-- The static data. -/
  statics : Statics
  /-- The labels. -/
  labels : Labels
  /-- The open procedure. -/
  procedure? : Option Procedure
  /-- The label of the main procedure. -/
  main? : Option String
  deriving DecidableEq, Repr

/-- The program without anything in it. -/
def Assembler.empty : Assembler := ⟨.empty, .empty, .empty, none, none⟩

/-- An action on a program under construction.  It fails only by a misuse of the assembler, which
leaves the program as it is at that moment. -/
abbrev Asm := EStateM Misuse Assembler

/-- Where a word is kept.  The three differ in the opcodes that load and store, and in how large an
offset may be. -/
inductive Region where
  /-- In the innermost frame. -/
  | stack
  /-- In the static segment. -/
  | static
  /-- In an object on the heap, whose address is on the evaluation stack. -/
  | heap
  deriving DecidableEq, Repr

namespace Region

/-- The opcode that pushes a word of the region. -/
def loadOpcode : Region → Opcode
  | stack => .load
  | static => .getstatic
  | heap => .getfield

/-- The opcode that stores into a word of the region. -/
def storeOpcode : Region → Opcode
  | stack => .store
  | static => .putstatic
  | heap => .putfield

/-- The width of the offset of a word in the region.  Frames have at most 255 words, and so one byte
is enough for them. -/
def offsetWidth : Region → Width
  | stack => .s8
  | static | heap => .s16

end Region

/-- The word that stands for a truth value.  Conditions compare with this word. -/
def boolWord (b : Bool) : Word := if b then 1 else 0

namespace Assembler

/-! ### Single instructions -/

/-- Emits an instruction without operands.  There is nothing that would have to fit, and so this
never fails. -/
def emit (op : Opcode) : Asm Unit := fun a => .ok () { a with code := a.code.emit op }

/-- Emits an instruction with an operand, which must fit.  One that fits neither with a sign nor
without is a misuse, and no byte of the instruction is emitted. -/
def emitWith (op : Opcode) (w : Width) (v : Word) : Asm Unit := fun a =>
  if w.holds v then .ok () { a with code := (a.code.emit op).emitOperand v w }
  else .error (.operandTooLarge op v w) a

/-- Emits `n` holes and gives the address of the first.  The caller keeps the address and fills the
holes in later. -/
def emitHoles (n : Nat) : Asm Nat := fun a =>
  let address := a.code.size
  .ok address { a with code := a.code.emitHoles n }

/-- Fills holes of the code.  The code is taken out of the assembler while it changes, so that it
changes in place. -/
def fill (address : Nat) (v : Word) (w : Width) : Asm Unit := fun a =>
  let code := a.code
  let rest := { a with code := .empty }
  match code.fill address v w with
  | .ok code => .ok () { rest with code := code }
  | .error misuse => .error misuse rest

/-- The address of the next byte of code.  Jumps of which the target is known only after their own
code use it. -/
def here : Asm Nat := fun a => .ok a.code.size a

/-- The address of a label.  There is none before the label is defined. -/
def addressOf? (label : String) : Asm (Option Nat) := fun a => .ok (a.labels.address? label) a

/-- Notes that the two bytes at `address` wait for a label.  They are filled in when the program is
finished. -/
def refer (label : String) (address : Nat) : Asm Unit := fun a =>
  .ok () { a with labels := a.labels.refer label address }

/-- Emits an instruction whose operand is the address of a label.  A label that is defined already
is written at once; otherwise two holes wait for it. -/
def emitLabel (op : Opcode) (label : String) : Asm Unit := do
  match ← addressOf? label with
  | some address => emitWith op .s16 (Int32.ofNat address)
  | none =>
    emit op
    refer label (← emitHoles 2)

/-! ### Storage -/

/-- Sets static words aside and gives the address of the first.  A segment that could not be
addressed is a misuse. -/
def allocStatic (words : Nat) : Asm Nat := fun a =>
  if a.statics.hasRoom words then
    let address := a.statics.words
    .ok address { a with statics := a.statics.alloc words }
  else .error .sizeOverflow a

/-- Stores a text among the static data and gives its address.  Other than for words, the room is
not checked. -/
def allocString (text : String) : Asm Nat := fun a =>
  let address := a.statics.words
  .ok address { a with statics := a.statics.allocString text }

/-- Sets words of the open procedure's frame aside and gives the offset of the first.  Outside of a
procedure there is no frame, and to ask for words is a misuse. -/
def allocLocal (words : Nat) : Asm Nat := fun a =>
  match a.procedure? with
  | none => .error (.noFrame words) a
  | some p =>
    match p.alloc words with
    | .ok (offset, p) => .ok offset { a with procedure? := some p }
    | .error misuse => .error misuse a

/-! ### Words and objects -/

/-- The opcode that pushes a small constant.  These opcodes have their constant in them and take no
operand. -/
def shortConst? (v : Word) : Option Opcode :=
  if v = 0 then some .const0
  else if v = 1 then some .const1
  else if v = 2 then some .const2
  else if v = 3 then some .const3
  else if v = 4 then some .const4
  else if v = 5 then some .const5
  else if v = -1 then some .constM1
  else none

/-- Pushes a constant in its shortest form.  Every word has one, so that this never fails. -/
def pushConst (v : Word) : Asm Unit :=
  match shortConst? v with
  | some op => emit op
  | none => emitWith .const .s32 v

/-- Pushes a word of a region.  For a word on the heap, the address of its object has been pushed
before. -/
def loadWord (r : Region) (offset : Word) : Asm Unit := emitWith r.loadOpcode r.offsetWidth offset

/-- Stores into a word of a region.  The value has been pushed before, after the address of the
object if the word is on the heap. -/
def storeWord (r : Region) (offset : Word) : Asm Unit :=
  emitWith r.storeOpcode r.offsetWidth offset

/-- Pushes the address of a new object.  The words of the object are zero. -/
def newObject (words : Nat) : Asm Unit := emitWith .new .s16 (Int32.ofNat words)

/-- Replaces a length by the address of a new array of words.  The elements take a word each,
whatever their type. -/
def newArray : Asm Unit := emitWith .newarray .s8 1

/-! ### Arithmetic and logic -/

/-- Replaces the two topmost words by 1 if they compare so, by 0 otherwise:

```text
     jump to T if they do
     push 0
     jump to E
  T: push 1
  E:
``` -/
def compare (test : Comparison) : Asm Unit := do
  emit test.opcode
  let toTrue ← emitHoles 2
  pushConst 0
  emit .jmp
  let toEnd ← emitHoles 2
  fill toTrue (Int32.ofNat (← here)) .s16
  pushConst 1
  fill toEnd (Int32.ofNat (← here)) .s16

/-- Conjunction: the product of two truth values.  Both operands have been evaluated by then; there
is no short cut. -/
def conjunction : Asm Unit := emit .mul

/-- Disjunction: whether the sum of two truth values is at least 1.  The sum of two true values is
2, and so it has to be brought back to a truth value. -/
def disjunction : Asm Unit := do
  emit .add
  pushConst 1
  compare .ge

/-- Negation: 1 minus a truth value.  The difference is formed as a sum, since the operand is on the
stack already. -/
def negation : Asm Unit := do
  emit .neg
  pushConst 1
  emit .add

/-! ### Input and output -/

/-- Prints a number without blanks.  The width is pushed after the number, and 0 asks for no blanks.
-/
def printInteger : Asm Unit := do
  pushConst 0
  emit .print

/-- Prints a character without blanks.  As with numbers, the width is pushed after it. -/
def printByte : Asm Unit := do
  pushConst 0
  emit .bprint

/-- Prints the string at a static address.  The address counts words, as all static addresses do. -/
def printString (address : Nat) : Asm Unit := emitWith .sprint .s16 (Int32.ofNat address)

/-! ### Control -/

/-- Defines a label as the address of the next byte.  To define it a second time is a misuse. -/
def define (label : String) : Asm Unit := fun a =>
  match a.labels.define label a.code.size with
  | .ok labels => .ok () { a with labels := labels }
  | .error misuse => .error misuse a

/-- Goes on at a label if the topmost word is the given truth value.  The machine has no jump on one
word, so the word is compared with a constant. -/
def branchIf (value : Bool) (label : String) : Asm Unit := do
  pushConst (boolWord value)
  emitLabel .jeq label

/-- Goes on at a label.  The label may be defined later. -/
def jump (label : String) : Asm Unit := emitLabel .jmp label

/-- Calls the procedure at a label.  The machine notes where to go on afterwards; the arguments are
on the stack. -/
def call (label : String) : Asm Unit := emitLabel .call label

/-! ### Procedures -/

/-- Checks that no procedure is open that would hold the one at `label`.  Procedures are not nested,
because there is one frame under construction only. -/
def requireClosed (label : String) : Asm Unit := fun a =>
  match a.procedure? with
  | some outer => .error (.nestedProcedure label outer.label) a
  | none => .ok () a

/-- Makes the procedure at `label` the main one.  A program has one, and the run starts there. -/
def claimMain (label : String) : Asm Unit := fun a =>
  match a.main? with
  | some main => .error (.secondMain label main) a
  | none => .ok () { a with main? := some label }

/-- Opens a procedure.  The size of its frame is left open.  How many locals there are is known at
the end only. -/
def enter (label : String) (params : Nat) (isMain : Bool) : Asm Unit := do
  requireClosed label
  if isMain then claimMain label
  define label
  emitWith .enter .s8 (Int32.ofNat params)
  let slot ← emitHoles 1
  modify fun a => { a with procedure? := some (.ofParams label params slot) }

/-- Closes the open procedure and gives it with the size of its frame.  The size is final now, since
nothing can be set aside any more. -/
def close (label : String) : Asm (Procedure × UInt8) := fun a =>
  match a.procedure? with
  | none => .error (.nothingToExit label) a
  | some p =>
    match p.sizeByte with
    | .ok size => .ok (p, size) { a with procedure? := none }
    | .error misuse => .error misuse a

/-- Ends the open procedure; `label` is the address of its last two instructions.  Early returns
jump to this label. -/
def exit (label : String) : Asm Unit := do
  let (p, size) ← close label
  fill p.sizeSlot (Int32.ofNat size.toNat) .s8
  define label
  emit .exit
  emit .ret

/-! ### The finished program -/

/-- The greatest size of a code segment whose addresses fit sixteen bits.  Jumps could not reach
every byte of longer code. -/
def maxCode : Nat := 65536

/-- The image of the program, of which all labels are filled in.  The code must not be too long and
have no hole left. -/
def image (a : Assembler) (startPc : Nat) : Except ImageError Image :=
  if maxCode < a.code.size then .error (.codeTooLarge a.code.size)
  else do
    let code ← a.code.bytes
    .ok (.ofSegments code a.statics.bytes.toList (UInt32.ofNat startPc))

/-- Fills in all labels and gives the image of the program.  Whatever the result, more code may
follow and the program be finished again. -/
def finish : Asm (Except ImageError Image) := fun a =>
  match a.procedure?, a.main? with
  | some p, _ => .ok (.error (.openProcedure p.label)) a
  | none, none => .ok (.error .noMainProcedure) a
  | none, some main =>
    match a.labels.address? main with
    | none => .ok (.error (.undefinedLabel main)) a
    | some startPc =>
      match a.labels.resolve a.code with
      | .error misuse => .error misuse a
      | .ok (result, labels, code) =>
        let a := { a with labels := labels, code := code }
        match result with
        | .error cause => .ok (.error cause) a
        | .ok () => .ok (a.image startPc) a

/-- The labels defined so far and the address of the main procedure.  It can be asked for at any
time, and without a main procedure its entry is 0. -/
def labelMap (a : Assembler) : LabelMap where
  entry := UInt16.ofNat ((a.main?.bind a.labels.address?).getD 0)
  labels := a.labels.sorted.map fun (label, address) => (label, UInt16.ofNat address)

end Assembler
end MJ
