import MJ.Assembler.Basic
import MJ.Language.Diagnostic
import MJ.Language.Operand

/-!
# The state of a compilation

The compiler turns typed operands into code.  Its caller walks the program, loads operands in the
order in which the program evaluates them, and calls one action for each construct.

## Main definitions

* `Compiler` — the state.
* `Compile`, `Checked` — actions, and actions that may find the program wrong.
* `Compiler.newLabel`, `Compiler.loadValue`, `Compiler.allocVariable`

## References

The MJ specification, §4.5 *Code Generator*, under *Load value* and `allocVariable`, and §E6
*Supplemented features* for `newLabel` and `loadAddress`.
-/

namespace MJ

/-- The state of a compilation.  Beside the program itself it holds what one construct leaves behind
for a later one. -/
structure Compiler where
  /-- The program under construction. -/
  assembler : Assembler
  /-- How many labels have been made up. -/
  labelCount : Nat
  /-- The static address and value of each global constant that is still to be set, in order. -/
  constants : List (Word × Word)
  /-- Whether the main procedure has been entered. -/
  mainEntered : Bool
  /-- The label at the end of the open procedure. -/
  exitLabel? : Option String
  /-- For each array under construction with several dimensions, innermost first: the frame
  offsets that hold its second and later lengths. -/
  pendingLengths : List (List Word)
  /-- The static address of the text that ends a line. -/
  newline? : Option Nat
  deriving DecidableEq, Repr

namespace Compiler

/-- The compiler that goes on with a program under construction.  It has made up no label and noted
no constant, whatever the program holds. -/
def ofAssembler (a : Assembler) : Compiler := ⟨a, 0, [], false, none, [], none⟩

/-- The compiler at the start of a program.  Nothing has been emitted or set aside. -/
def empty : Compiler := ofAssembler .empty

end Compiler

/-- An action of the compiler.  A misuse ends the compilation, since there is nothing to go on with.
-/
abbrev Compile := EStateM Misuse Compiler

/-- An action of the compiler that may find the program wrong.  Such a finding is a result: the
compiler stays usable, other than after a misuse. -/
abbrev Checked := ExceptT Diagnostic Compile

namespace Compiler

/-- Emits code.  The assembler is taken out of the compiler while it changes, so that it changes
in place. -/
def assemble {α : Type} (action : Asm α) : Compile α := fun c =>
  let assembler := c.assembler
  let rest := { c with assembler := .empty }
  match action assembler with
  | .ok x assembler => .ok x { rest with assembler := assembler }
  | .error misuse assembler => .error misuse { rest with assembler := assembler }

instance : MonadLift Asm Compile := ⟨assemble⟩

/-- Finds the program wrong.  No code is taken back, and so a construct rejects before it emits. -/
def reject {α : Type} (defect : Defect) (span : Span) : Checked α := throw ⟨defect, span⟩

/-! ### Labels -/

/-- A label that has not been made up before.  The labels of declared procedures have a `#` in them,
so that the two kinds do not meet. -/
def newLabel : Compile String := fun c =>
  .ok ("L" ++ toString c.labelCount) { c with labelCount := c.labelCount + 1 }

/-- Defines a label as the address of the next byte.  The callers of the compiler use it for the
labels that `newLabel` gives them. -/
def define (label : String) : Compile Unit := Assembler.define label

/-- Goes on at a label.  The label may be defined later. -/
def jump (label : String) : Compile Unit := Assembler.jump label

/-! ### Operands -/

/-- Where the variable of an operand is kept.  Elements and fields are not looked up here, since
their objects are on the stack. -/
def region (x : Operand) : Region := if x.isGlobal then .static else .stack

/-- The code that pushes a value that is at a place.  What is on the stack already needs none. -/
def pushFrom (x : Operand) : Asm Unit :=
  match x.place with
  | .literal v => Assembler.pushConst v
  | .memory => Assembler.loadWord (region x) x.offset
  | .element => Assembler.emit .aload
  | .field => Assembler.loadWord .heap x.offset
  | .value | .address => pure ()

/-- Pushes the value of an operand, unless it is on the stack already, and gives the operand as
it is then. -/
def loadValue (x : Operand) : Compile Operand := do
  if x.isOnStack then return x
  else
    pushFrom x
    return { x with place := Operand.stackPlace x.type }

/-- Pushes the address of an object.  Variables hold addresses, so this is their value. -/
def loadAddress (x : Operand) : Compile Operand := loadValue x

/-- Pushes the value of an operand that the caller has not loaded.  Other than `loadValue`, it does
not give the operand back, since the construct uses it up. -/
def loadIfNeeded (x : Operand) : Compile Unit := pushFrom x

/-! ### Storage -/

/-- Sets a word of the frame aside.  It is used within one construct and never given back. -/
def allocTemp : Compile Word := do
  let offset ← Assembler.allocLocal 1
  return Int32.ofNat offset

/-- Gives a variable or constant a word of its own.  Global ones are static, and all others are in
the frame of the open procedure; any other name stays as it is. -/
def allocVariable (s : Decl) : Compile Decl := do
  match s.kind with
  | .var | .constant =>
    let offset : Nat ← if s.isGlobal then Assembler.allocStatic 1 else Assembler.allocLocal 1
    return { s with offset? := some (Int32.ofNat offset) }
  | _ => return s

/-- Gives a parameter its place in the frame.  Nothing is set aside, since the frame has the
parameters in it from the start. -/
def setParamOffset (s : Decl) (position : Nat) : Decl :=
  { s with offset? := some (Int32.ofNat (paramOffset position)) }

end Compiler
end MJ
