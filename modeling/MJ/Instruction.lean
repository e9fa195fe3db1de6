import MJ.Opcode

/-!
# Instructions

An instruction is an opcode together with its operands, each read the way the machine uses it:
frame offsets and frame sizes are unsigned bytes, all other operands are signed.

## Main definitions

* `Instruction` — an operation with its operands.
* `Instruction.ofOperands` — the instruction with a given opcode and operand bytes.
* `Instruction.bytes` — its encoding in code.
* `Instruction.operands`, `Instruction.target?` — what a listing shows.

## References

The MJ specification, §6 *External Interfaces*, under *Instruction catalogue*.
-/

namespace MJ

/-- The six ways to compare two words.  They are the conditional jumps of the machine and the
comparisons of the compiled language. -/
inductive Comparison where
  /-- Equal. -/
  | eq
  /-- Not equal. -/
  | ne
  /-- Less. -/
  | lt
  /-- Less or equal. -/
  | le
  /-- Greater. -/
  | gt
  /-- Greater or equal. -/
  | ge
  deriving DecidableEq, Repr, Inhabited

namespace Comparison

/-- Whether `a` stands in the relation to `b`.  Words are compared as signed numbers. -/
def holds : Comparison → Word → Word → Bool
  | eq, a, b => a == b
  | ne, a, b => a != b
  | lt, a, b => a < b
  | le, a, b => a ≤ b
  | gt, a, b => b < a
  | ge, a, b => b ≤ a

/-- The conditional jump taken when the relation holds.  The left operand has been pushed first. -/
def opcode : Comparison → Opcode
  | eq => .jeq
  | ne => .jne
  | lt => .jlt
  | le => .jle
  | gt => .jgt
  | ge => .jge

end Comparison

/-- The two-operand arithmetic of the machine.  Negation has one operand, and so it is not among
them. -/
inductive Arithmetic where
  /-- Sum. -/
  | add
  /-- Difference. -/
  | sub
  /-- Product. -/
  | mul
  /-- Quotient, cut toward zero. -/
  | div
  /-- Remainder of that quotient. -/
  | rem
  /-- Shift to the left. -/
  | shl
  /-- Shift to the right that keeps the sign. -/
  | shr
  deriving DecidableEq, Repr, Inhabited

namespace Arithmetic

/-- The result, which wraps around; `none` for a division by zero.  A shift takes its amount
modulo 32. -/
def apply : Arithmetic → Word → Word → Option Word
  | add, a, b => some (a + b)
  | sub, a, b => some (a - b)
  | mul, a, b => some (a * b)
  | div, a, b => if b = 0 then none else some (a / b)
  | rem, a, b => if b = 0 then none else some (a % b)
  | shl, a, b => some (a <<< b)
  | shr, a, b => some (a >>> b)

/-- The opcode of the operation. -/
def opcode : Arithmetic → Opcode
  | add => .add
  | sub => .sub
  | mul => .mul
  | div => .div
  | rem => .rem
  | shl => .shl
  | shr => .shr

end Arithmetic

/-- An instruction of the MJ machine with its operands.  Opcodes that differ only in a small number,
or in the operation they perform, are one constructor with an argument. -/
inductive Instruction where
  /-- Push a local. -/
  | load (slot : UInt8)
  /-- Push one of the first four locals. -/
  | loadShort (slot : Fin 4)
  /-- Pop into a local. -/
  | store (slot : UInt8)
  /-- Pop into one of the first four locals. -/
  | storeShort (slot : Fin 4)
  /-- Push a static word. -/
  | getStatic (address : Int16)
  /-- Pop into a static word. -/
  | putStatic (address : Int16)
  /-- Replace an object's address by one of its words. -/
  | getField (offset : Int16)
  /-- Pop a value and an object's address, and store into the object. -/
  | putField (offset : Int16)
  /-- Push one of the numbers 0 to 5. -/
  | constShort (value : Fin 6)
  /-- Push -1. -/
  | constMinusOne
  /-- Push a word. -/
  | const (value : Word)
  /-- Combine the two topmost words. -/
  | arithmetic (op : Arithmetic)
  /-- Negate the topmost word. -/
  | neg
  /-- Push the address of a new object. -/
  | new (words : Int16)
  /-- Replace a length by the address of a new array; the operand is not used. -/
  | newArray (kind : Int8)
  /-- Push an element of an array of words. -/
  | loadElement
  /-- Store into an array of words. -/
  | storeElement
  /-- Push an element, as `loadElement` does. -/
  | loadByteElement
  /-- Store the low byte of a value into an array. -/
  | storeByteElement
  /-- Replace an array's address by its length. -/
  | arrayLength
  /-- Drop the topmost word. -/
  | pop
  /-- Go on at `target`. -/
  | jump (target : Int16)
  /-- Pop two words and go on at `target` if they compare so. -/
  | branch (test : Comparison) (target : Int16)
  /-- Go on at `target` and remember where to return to. -/
  | call (target : Int16)
  /-- Return to the caller, or halt if there is none. -/
  | ret
  /-- Open a frame of `size` words and pop `params` arguments into it. -/
  | enter (params size : UInt8)
  /-- Drop the topmost frame. -/
  | exit
  /-- Push a number read from the input. -/
  | read
  /-- Print a number in a field of given width. -/
  | print
  /-- Push the next input byte, or -1. -/
  | readByte
  /-- Print a character in a field of given width. -/
  | printByte
  /-- Stop with a fault. -/
  | trap
  /-- Print a string of the static segment. -/
  | printString (address : Int16)
  /-- The end marker of the numbering. -/
  | last
  deriving DecidableEq, Repr, Inhabited

namespace Instruction

/-- The opcode of an instruction.  Together with the operands it determines the instruction. -/
def opcode : Instruction → Opcode
  | load _ => .load
  | loadShort 0 => .load0
  | loadShort 1 => .load1
  | loadShort 2 => .load2
  | loadShort 3 => .load3
  | store _ => .store
  | storeShort 0 => .store0
  | storeShort 1 => .store1
  | storeShort 2 => .store2
  | storeShort 3 => .store3
  | getStatic _ => .getstatic
  | putStatic _ => .putstatic
  | getField _ => .getfield
  | putField _ => .putfield
  | constShort 0 => .const0
  | constShort 1 => .const1
  | constShort 2 => .const2
  | constShort 3 => .const3
  | constShort 4 => .const4
  | constShort 5 => .const5
  | constMinusOne => .constM1
  | const _ => .const
  | arithmetic op => op.opcode
  | neg => .neg
  | new _ => .new
  | newArray _ => .newarray
  | loadElement => .aload
  | storeElement => .astore
  | loadByteElement => .baload
  | storeByteElement => .bastore
  | arrayLength => .arraylength
  | pop => .pop
  | jump _ => .jmp
  | branch test _ => test.opcode
  | call _ => .call
  | ret => .ret
  | enter _ _ => .enter
  | exit => .exit
  | read => .read
  | print => .print
  | readByte => .bread
  | printByte => .bprint
  | trap => .trap
  | printString _ => .sprint
  | last => .last

/-- The encoded size of an instruction, its opcode included.  It depends on the opcode only. -/
def size (i : Instruction) : Nat := i.opcode.size

/-- A two-byte operand.  The higher byte comes first. -/
@[inline] def half (high low : UInt8) : Int16 :=
  Int16.ofNat (high.toNat * 256 + low.toNat)

/-- The instruction with opcode `op` whose operand bytes are `byteAt 0`, `byteAt 1` and so on. -/
@[inline] def ofOperands (op : Opcode) (byteAt : Nat → UInt8) : Instruction :=
  match op with
  | .load => load (byteAt 0)
  | .load0 => loadShort 0
  | .load1 => loadShort 1
  | .load2 => loadShort 2
  | .load3 => loadShort 3
  | .store => store (byteAt 0)
  | .store0 => storeShort 0
  | .store1 => storeShort 1
  | .store2 => storeShort 2
  | .store3 => storeShort 3
  | .getstatic => getStatic (half (byteAt 0) (byteAt 1))
  | .putstatic => putStatic (half (byteAt 0) (byteAt 1))
  | .getfield => getField (half (byteAt 0) (byteAt 1))
  | .putfield => putField (half (byteAt 0) (byteAt 1))
  | .const0 => constShort 0
  | .const1 => constShort 1
  | .const2 => constShort 2
  | .const3 => constShort 3
  | .const4 => constShort 4
  | .const5 => constShort 5
  | .constM1 => constMinusOne
  | .const => const (Word.ofBytes (byteAt 0) (byteAt 1) (byteAt 2) (byteAt 3))
  | .add => arithmetic .add
  | .sub => arithmetic .sub
  | .mul => arithmetic .mul
  | .div => arithmetic .div
  | .rem => arithmetic .rem
  | .neg => neg
  | .shl => arithmetic .shl
  | .shr => arithmetic .shr
  | .new => new (half (byteAt 0) (byteAt 1))
  | .newarray => newArray (byteAt 0).toInt8
  | .aload => loadElement
  | .astore => storeElement
  | .baload => loadByteElement
  | .bastore => storeByteElement
  | .arraylength => arrayLength
  | .pop => pop
  | .jmp => jump (half (byteAt 0) (byteAt 1))
  | .jeq => branch .eq (half (byteAt 0) (byteAt 1))
  | .jne => branch .ne (half (byteAt 0) (byteAt 1))
  | .jlt => branch .lt (half (byteAt 0) (byteAt 1))
  | .jle => branch .le (half (byteAt 0) (byteAt 1))
  | .jgt => branch .gt (half (byteAt 0) (byteAt 1))
  | .jge => branch .ge (half (byteAt 0) (byteAt 1))
  | .call => call (half (byteAt 0) (byteAt 1))
  | .ret => ret
  | .enter => enter (byteAt 0) (byteAt 1)
  | .exit => exit
  | .read => read
  | .print => print
  | .bread => readByte
  | .bprint => printByte
  | .trap => trap
  | .sprint => printString (half (byteAt 0) (byteAt 1))
  | .last => last

/-- The bytes that follow the opcode.  They are as many as the widths of the operands say. -/
def operandBytes : Instruction → List UInt8
  | load slot | store slot => [slot]
  | getStatic n | putStatic n | getField n | putField n | new n | printString n
  | jump n | branch _ n | call n => BigEndian.bytes 2 n.toUInt16.toNat
  | const v => BigEndian.bytes 4 v.toUInt32.toNat
  | newArray kind => [kind.toUInt8]
  | enter params size => [params, size]
  | _ => []

/-- The encoding of an instruction: its opcode, then its operands. -/
def bytes (i : Instruction) : List UInt8 := i.opcode.byte :: i.operandBytes

/-- The operands as a listing shows them.  Frame offsets and sizes have no sign; all others are
shown with one, even where the machine reads them without. -/
def operands : Instruction → List Int
  | load slot | store slot => [slot.toNat]
  | getStatic n | putStatic n | getField n | putField n | new n | printString n
  | jump n | branch _ n | call n => [n.toInt]
  | const v => [v.toInt]
  | newArray kind => [kind.toInt]
  | enter params size => [params.toNat, size.toNat]
  | _ => []

/-- A code address as an operand stores it: sixteen bits without a sign.  The upper half of the
addresses is stored as negative numbers. -/
def address (n : Int16) : Nat := n.toUInt16.toNat

/-- The code address that the instruction may transfer control to.  A return is not among them,
since its target is not in the code. -/
def target? : Instruction → Option Nat
  | jump n | branch _ n | call n => some (address n)
  | _ => none

end Instruction
end MJ
