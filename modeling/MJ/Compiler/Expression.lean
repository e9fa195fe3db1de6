import MJ.Compiler.Basic
import MJ.Language.Operator

/-!
# Expressions and assignments

Operators find their operands on the evaluation stack and leave their result there.  All checks
come before the first byte of code, so that a wrong program leaves no trace.

## Main definitions

* `Compiler.unary`, `Compiler.binary`, `Compiler.relation`, `Compiler.equality`
* `Compiler.assign` — stores a value; the constants of the program are set when it starts.
* `Compiler.branchIfFalse` — the jump of a condition.

## References

The MJ specification, §4.5 *Code Generator*, under *Assign* and `op1/op2/relOp/equalOp`.  Constants
that are set when the program starts are scenario C of §8 *Testable Properties*.
-/

namespace MJ
namespace Compiler

/-- An operator before an operand; without one the operand stays as it is.  The operand is pushed
only after its type was checked, so that a wrong program leaves no code. -/
def unary (op? : Option Unary) (span : Span) (x : Operand) : Checked Operand := do
  match op? with
  | none => return x
  | some op =>
    let legal := match op with
      | .plus | .minus => x.type.isInt
      | .not => x.type.isBool
    if !legal then reject (.illegalUnary op.symbol) span
    else
      loadIfNeeded x
      match op with
      | .plus => pure ()
      | .minus => Assembler.emit .neg
      | .not => Assembler.negation
      return .ofType x.type

/-- The code of an operator between two operands.  Both operands are on the stack, and there is no
short cut for the logical ones. -/
def emitBinary : Binary → Asm Unit
  | .add => Assembler.emit .add
  | .sub => Assembler.emit .sub
  | .mul => Assembler.emit .mul
  | .div => Assembler.emit .div
  | .mod => Assembler.emit .rem
  | .and => Assembler.conjunction
  | .or => Assembler.disjunction

/-- An operator between two operands on the stack.  Both must have the same type, which is also that
of the result. -/
def binary (x : Operand) (op : Binary) (span : Span) (y : Operand) : Checked Operand := do
  let legal := if op.isLogical then x.type.isBool else x.type.isInt
  if x.type != y.type || !legal then reject (.illegalBinary op.symbol) span
  else
    emitBinary op
    return .ofType x.type

/-- A comparison of two numbers on the stack.  Truth values are not ordered. -/
def relation (x : Operand) (op : Relation) (span : Span) (y : Operand) : Checked Operand := do
  if !(x.type.isInt && y.type.isInt) then reject (.illegalRelation op.symbol) span
  else
    Assembler.compare op.comparison
    return .ofType .bool

/-- A test of two numbers or truth values on the stack for equality.  Arrays and records are not
compared, although they are words. -/
def equality (x : Operand) (op : Equality) (span : Span) (y : Operand) : Checked Operand := do
  let comparable := (x.type.isInt && y.type.isInt) || (x.type.isBool && y.type.isBool)
  if !comparable then reject (.illegalEquality op.symbol) span
  else
    Assembler.compare op.comparison
    return .ofType .bool

/-- The code that sets a static word to a value.  The value is pushed first, and then stored. -/
def setConstant (offset value : Word) : Asm Unit := do
  Assembler.pushConst value
  Assembler.storeWord .static offset

/-- Sets a global constant: at once inside the main procedure or after it, at the start of the
main procedure otherwise, since no code before it is run. -/
def assignConstant (offset value : Word) : Compile Unit := do
  if (← get).mainEntered then setConstant offset value
  else modify fun c => { c with constants := c.constants ++ [(offset, value)] }

/-- Stores the value on top of the stack.  An operand that is no place in memory is a misuse, found
only after the value was pushed. -/
def store (target : Operand) : Compile Unit :=
  match target.place with
  | .memory => Assembler.storeWord (region target) target.offset
  | .element => Assembler.emit .astore
  | .field => Assembler.storeWord .heap target.offset
  | place => throw (.notAssignable place.name)

/-- Stores the value of an operand.  A constant is assigned to although it may be read-only, which
is how it gets its value; that of a global one has to be a literal. -/
def assign (target x : Operand) (span : Span) : Checked Unit := do
  if target.isReadonly && !target.isConstant then reject .readonlyAssign span
  else if target.type != x.type then reject .typeMismatch span
  else if target.isGlobal && target.isConstant then
    match x.literal? with
    | none => throwThe Misuse (.literalNeeded target.offset)
    | some value => assignConstant target.offset value
  else
    loadIfNeeded x
    store target

/-- Goes on at a label if a condition is false.  This is how loops and conditions leave out code. -/
def branchIfFalse (condition : Operand) (label : String) (span : Span) : Checked Unit := do
  if !condition.type.isBool then reject .conditionNotBool span
  else
    loadIfNeeded condition
    Assembler.branchIf false label

end Compiler
end MJ
