import MJ.Language.Decl

/-!
# Operands

An operand tells where a value is while code is generated: not pushed yet, on the evaluation
stack, or reachable through addresses that are.

## Main definitions

* `Place`, `Operand`
* `Operand.int`, `Operand.bool`, `Operand.ofType`, `Operand.ofDecl` — the ways to get one.

## References

The MJ specification, §3 *Data Model*, under *Attrib*.
-/

namespace MJ

/-- Where a value is.  The kinds differ in the code that loads the value and in the code that stores
a new one. -/
inductive Place where
  /-- A literal that has not been pushed. -/
  | literal (value : Word)
  /-- A variable in the static segment or in the frame. -/
  | memory
  /-- An element whose array and index are on the stack. -/
  | element
  /-- A field whose record is on the stack. -/
  | field
  /-- A number or truth value on top of the stack. -/
  | value
  /-- The address of an object on top of the stack. -/
  | address
  deriving DecidableEq, Repr

/-- The place as a misuse shows it. -/
def Place.name : Place → String
  | literal v => "Constant \x7b value: " ++ toString v.toInt ++ " \x7d"
  | memory => "Memory"
  | element => "ArrayElement"
  | field => "RecordField"
  | value => "StackValue"
  | address => "StackAddress"

/-- A value during code generation.  It is a note of the compiler's and takes no code by itself. -/
structure Operand where
  /-- Where it is. -/
  place : Place
  /-- Its type. -/
  type : Ty
  /-- Whether it is in the static segment. -/
  isGlobal : Bool
  /-- Whether it is a constant. -/
  isConstant : Bool
  /-- Whether the program may not change it. -/
  isReadonly : Bool
  /-- Its place in the frame, the static segment or the record. -/
  offset : Word
  deriving Repr, BEq

namespace Operand

/-- An operand at a place, without a name.  It is marked neither as constant nor as read-only; what
is no place in memory is refused when it is stored to. -/
def ofPlace (place : Place) (type : Ty) : Operand := ⟨place, type, false, false, false, 0⟩

/-- A number in the program.  It takes no code until it is loaded. -/
def int (v : Word) : Operand := ofPlace (.literal v) .int

/-- A truth value in the program.  It is kept as the word that stands for it. -/
def bool (b : Bool) : Operand := ofPlace (.literal (if b then 1 else 0)) .bool

/-- The place of a value of the given type on top of the stack.  Objects are told apart from other
values, although both are words. -/
def stackPlace (type : Ty) : Place := if type.isReference then .address else .value

/-- A value on top of the stack.  This is what operators and calls leave. -/
def ofType (type : Ty) : Operand := ofPlace (stackPlace type) type

/-- The value of a variable, constant or parameter that has a place.  Names of another kind, and
those without storage, are misuses. -/
def ofDecl (s : Decl) : Except Misuse Operand :=
  if s.isVariable then
    match s.offset? with
    | some offset =>
      .ok ⟨.memory, s.type, s.isGlobal, s.kind == .constant, s.isReadonly, offset⟩
    | none => .error (.noStorage s.kind.name s.name)
  else .error (.notAnOperand s.kind.name s.name)

/-- Whether the value is on top of the stack.  Elements and fields are not, although what they are
found by is. -/
def isOnStack (x : Operand) : Bool :=
  match x.place with
  | .value | .address => true
  | _ => false

/-- The value of a literal that has not been pushed.  Only of such values is the word known to the
compiler. -/
def literal? (x : Operand) : Option Word :=
  match x.place with
  | .literal v => some v
  | _ => none

end Operand
end MJ
