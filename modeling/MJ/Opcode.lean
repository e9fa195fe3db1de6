import MJ.Width

/-!
# Opcodes

The fifty-six operations of the MJ machine.  An opcode is one byte, `1` to `56` in the order of
declaration, followed in the code by operands of fixed widths.

## Main definitions

* `Opcode.byte`, `Opcode.ofByte?` — the opcode as a byte of code and back.
* `Opcode.operands` — the widths of the operands that follow it.
* `Opcode.mnemonic` — the name used in listings.

## References

The MJ specification, §6 *External Interfaces*, under *Instruction catalogue*.
-/

namespace MJ

/-- An operation of the MJ machine.  The order is that of the bytes, on which `byte` and `ofByte?`
rely. -/
inductive Opcode where
  -- Locals
  | load | load0 | load1 | load2 | load3
  | store | store0 | store1 | store2 | store3
  -- Static words and record fields
  | getstatic | putstatic | getfield | putfield
  -- Constants
  | const0 | const1 | const2 | const3 | const4 | const5 | constM1 | const
  -- Arithmetic
  | add | sub | mul | div | rem | neg | shl | shr
  -- Heap objects
  | new | newarray | aload | astore | baload | bastore | arraylength
  -- The evaluation stack
  | pop
  -- Jumps to an absolute code address
  | jmp | jeq | jne | jlt | jle | jgt | jge
  -- Procedures
  | call | ret | enter | exit
  -- Input, output and the rest
  | read | print | bread | bprint | trap | sprint
  /-- The end marker of the numbering; it is never executed. -/
  | last
  deriving DecidableEq, Repr, Inhabited

namespace Opcode

/-- All opcodes in the order of their bytes.  The table is what a byte is looked up in. -/
def all : Array Opcode := #[
    load, load0, load1, load2, load3, store, store0, store1, store2, store3,
    getstatic, putstatic, getfield, putfield,
    const0, const1, const2, const3, const4, const5, constM1, const,
    add, sub, mul, div, rem, neg, shl, shr,
    new, newarray, aload, astore, baload, bastore, arraylength, pop,
    jmp, jeq, jne, jlt, jle, jgt, jge, call, ret, enter, exit,
    read, print, bread, bprint, trap, sprint, last]

/-- The byte that stands for the opcode in code.  Zero stands for none of them. -/
def byte (op : Opcode) : UInt8 := UInt8.ofNat (op.ctorIdx + 1)

/-- The opcode that a byte of code stands for.  There is none for zero and for bytes above the last
one. -/
def ofByte? (b : UInt8) : Option Opcode :=
  if b = 0 then none else all[b.toNat - 1]?

/-- The widths of the operands that follow the opcode, in order.  They are fixed for each opcode,
and so the bytes of code can be told apart without running it. -/
def operands : Opcode → List Width
  | load | store | newarray => [.s8]
  | getstatic | putstatic | getfield | putfield | new | sprint => [.s16]
  | jmp | jeq | jne | jlt | jle | jgt | jge | call => [.s16]
  | const => [.s32]
  | enter => [.s8, .s8]
  | _ => []

/-- How many operand bytes follow the opcode.  The longest instruction has four. -/
def operandSize (op : Opcode) : Nat := op.operands.foldr (fun w n => w.size + n) 0

/-- The encoded size of an instruction with this opcode.  The next instruction starts so many bytes
further on. -/
def size (op : Opcode) : Nat := 1 + op.operandSize

/-- Whether the opcode is a conditional jump: it compares the two topmost words.  All the others go
on in one way only. -/
def isConditional : Opcode → Bool
  | jeq | jne | jlt | jle | jgt | jge => true
  | _ => false

/-- The name of the opcode in listings.  No two opcodes share one. -/
def mnemonic : Opcode → String
  | load => "load" | load0 => "load0" | load1 => "load1" | load2 => "load2" | load3 => "load3"
  | store => "store" | store0 => "store0" | store1 => "store1" | store2 => "store2"
  | store3 => "store3"
  | getstatic => "getstatic" | putstatic => "putstatic"
  | getfield => "getfield" | putfield => "putfield"
  | const0 => "const0" | const1 => "const1" | const2 => "const2" | const3 => "const3"
  | const4 => "const4" | const5 => "const5" | constM1 => "const_m1" | const => "const"
  | add => "add" | sub => "sub" | mul => "mul" | div => "div" | rem => "rem" | neg => "neg"
  | shl => "shl" | shr => "shr"
  | new => "new" | newarray => "newarray" | aload => "aload" | astore => "astore"
  | baload => "baload" | bastore => "bastore" | arraylength => "arraylength"
  | pop => "pop"
  | jmp => "jmp" | jeq => "jeq" | jne => "jne" | jlt => "jlt" | jle => "jle" | jgt => "jgt"
  | jge => "jge"
  | call => "call" | ret => "return" | enter => "enter" | exit => "exit"
  | read => "read" | print => "print" | bread => "bread" | bprint => "bprint"
  | trap => "trap" | sprint => "sprint" | last => "last"

/-- The opcode with the given mnemonic.  The search is for exactly this spelling. -/
def ofMnemonic? (name : String) : Option Opcode :=
  all.find? fun op => op.mnemonic == name

theorem ofByte?_byte (op : Opcode) : ofByte? op.byte = some op := by
  cases op <;> rfl

end Opcode
end MJ
