import MJ.Proofs.Expression.Term
import MJ.Proofs.Variables

/-!
# Phrases that reach into arrays and records

Expressions over numbers and truth values, over arrays and records, and over the elements, fields
and lengths of these.  Their meaning is given for a memory of words, in which an array is a word
with its length before its elements, and a record is its fields in the order of declaration.

These are the expressions that the theorems on compiled code are about.  They are compiled as the
terms that they are translated to, and the expressions over numbers and truth values alone are some
of them.

## Main definitions

* `Phrase`, `Access` — expressions, and those of them that name an element or a field.
* `Schema`, `Vocabulary`, `Phrase.Typed` — what types the fields of records have, which variables
  there are, and the expressions that are well-typed.
* `Scope`, `Phrase.WellTyped` — variables with words, and the expressions over them.
* `Access.Alike`, `Access.IsDirect` — accesses to elements or fields of the same kind, and those
  whose path looks at none of the kind that it leads to.
* `Member.place` — the word of the heap that an element or a field is, or the fault that there is
  none.
* `Phrase.eval`, `Access.member` — the value of an expression, and the element or field that is
  named.
* `Phrase.term`, `Phrase.generate`, `Access.store` — the calls that compile them.

## References

The MJ specification, §4.5 *Code Generator*, under *Load value*, *Assign* and
`op1/op2/relOp/equalOp`, and §E6 *Supplemented features* for elements and fields.
-/

namespace MJ

/-! ### Types -/

namespace Ty

/-- The type of the elements of an array type. -/
def elements : Ty → Ty
  | array inner base => element inner base
  | t => t

/-- The type of a field of a record type. -/
def fieldType (name : String) : Ty → Ty
  | record _ fields => ((findField? fields name).map Field.type).getD .void
  | _ => .void

/-- The place of a field in a record: fields are in the order of declaration. -/
def fieldOffset (name : String) : Ty → Nat
  | record _ fields => fields.findIdx (·.name == name)
  | _ => 0

end Ty

/-- The types of the fields of records.  Records of the same name and number of fields count as of
the same type, so that these and the place of a field have to determine its type. -/
abbrev Schema := (name : String) → (count offset : Nat) → Ty

/-- A record type whose fields have been numbered has a field, of the type that the schema says.
The compiler finds fields by name, and the machine by number. -/
def Ty.HasField (schema : Schema) (field : String) (t : Ty) : Prop :=
  ∃ name fields found, t = .record name fields ∧ t.numberFields = t ∧
    Ty.findField? fields field = some found ∧
    (schema name fields.length (t.fieldOffset field)).same found.type = true

/-- The variables that an expression may name, all of which have been given places.  This is enough
to compile an expression; whether the machine has the words is another matter. -/
structure Vocabulary where
  /-- Whether a variable may be named. -/
  Has : Decl → Prop
  /-- Each of them has a place. -/
  hasOffset : ∀ d, Has d → d.HasOffset

/-- Finitely many variables, whose places are numbers of words.  Two of them may be at the same
place, as after the end of a block, but then they have the same type. -/
structure Scope where
  /-- The variables. -/
  decls : List Decl
  /-- Each of them has a place. -/
  located : ∀ d ∈ decls, d.Located
  /-- Variables at the same place have the same type. -/
  consistent : ∀ d ∈ decls, ∀ e ∈ decls, d.region = e.region → d.slot = e.slot →
    d.type = e.type

/-- The variables of a scope. -/
def Scope.vocabulary (scope : Scope) : Vocabulary :=
  ⟨fun d => d ∈ scope.decls, fun d hd => (scope.located d hd).toHasOffset⟩

theorem Scope.nonneg (scope : Scope) (d : Decl) (hd : scope.vocabulary.Has d) :
    0 ≤ d.offset.toInt :=
  (scope.located d hd).nonneg

/-! ### Phrases -/

/-- An expression.  It need not be well-typed: what the compiler does with one that is not is a
matter of its checks. -/
inductive Phrase where
  /-- A number. -/
  | int (v : Word)
  /-- A truth value. -/
  | bool (b : Bool)
  /-- The value of a variable. -/
  | var (d : Decl)
  /-- An operator before an operand. -/
  | unary (op : Unary) (span : Span) (x : Phrase)
  /-- An operator between two operands. -/
  | binary (op : Binary) (span : Span) (x y : Phrase)
  /-- A comparison of two numbers. -/
  | relation (op : Relation) (span : Span) (x y : Phrase)
  /-- A test of two numbers or truth values for equality. -/
  | equality (op : Equality) (span : Span) (x y : Phrase)
  /-- The element of an array at an index. -/
  | element (array index : Phrase) (span : Span)
  /-- A field of a record. -/
  | field (record : Phrase) (name : String) (span : Span)
  /-- The length of an array. -/
  | length (array : Phrase) (span : Span)

/-- An element or a field, which may also be assigned to. -/
inductive Access where
  /-- The element of an array at an index. -/
  | element (array index : Phrase) (span : Span)
  /-- A field of a record. -/
  | field (record : Phrase) (name : String) (span : Span)

namespace Phrase

/-- The type of an expression. -/
def type : Phrase → Ty
  | int _ => .int
  | bool _ => .bool
  | var d => d.type
  | unary op _ _ => op.scalar.ty
  | binary op _ _ _ => op.scalar.ty
  | relation _ _ _ _ => .bool
  | equality _ _ _ _ => .bool
  | element array _ _ => array.type.elements
  | field record name _ => record.type.fieldType name
  | length _ _ => .int

/-- The operands of all operators have the right types, and the variables are known. -/
def Typed (schema : Schema) (vars : Vocabulary) : Phrase → Prop
  | int _ => True
  | bool _ => True
  | var d => vars.Has d
  | unary op _ x => x.Typed schema vars ∧ x.type = op.scalar.ty
  | binary op _ x y => (x.Typed schema vars ∧ x.type = op.scalar.ty) ∧
    y.Typed schema vars ∧ y.type = op.scalar.ty
  | relation _ _ x y => (x.Typed schema vars ∧ x.type = .int) ∧
    y.Typed schema vars ∧ y.type = .int
  | equality _ _ x y => ∃ t : Scalar, (x.Typed schema vars ∧ x.type = t.ty) ∧
    y.Typed schema vars ∧ y.type = t.ty
  | element array index _ => (array.Typed schema vars ∧ array.type.isArray = true) ∧
    index.Typed schema vars ∧ index.type = .int
  | field record name _ => record.Typed schema vars ∧ record.type.HasField schema name
  | length array _ => array.Typed schema vars ∧ array.type.isArray = true

/-- The operands of all operators have the right types, and the variables are in scope. -/
abbrev WellTyped (schema : Schema) (scope : Scope) (e : Phrase) : Prop :=
  e.Typed schema scope.vocabulary

end Phrase

/-- Whether an expression does not look at the heap.  Its value needs no objects, and so it may be
used in memories of which nothing is known but the variables. -/
def Phrase.IsPlain : Phrase → Prop
  | int _ | bool _ | var _ => True
  | unary _ _ x => x.IsPlain
  | binary _ _ x y | relation _ _ x y | equality _ _ x y => x.IsPlain ∧ y.IsPlain
  | element _ _ _ | field _ _ _ | length _ _ => False

/-- Whether an expression is a variable, or an element of an array of arrays that is a variable, at
indices that do not depend on the heap. -/
def Phrase.IsChain : Phrase → Prop
  | var _ => True
  | element array index _ => array.IsChain ∧ index.IsPlain
  | _ => False

namespace Access

/-- The access as an expression. -/
def phrase : Access → Phrase
  | element array index span => .element array index span
  | field record name span => .field record name span

/-- The type of the array or record. -/
def whole : Access → Ty
  | element array _ _ => array.type
  | field record _ _ => record.type

/-- Whether the access is to an array or record that is a variable, or an element of an array of
arrays, at indices that do not depend on the heap. -/
def IsChain : Access → Prop
  | element array index _ => array.IsChain ∧ index.IsPlain
  | field record _ _ => record.IsChain

/-- Whether two accesses are to elements of arrays of the same type, or to the same field of records
of the same type.  Only then can an assignment to one be seen through the other. -/
def Alike : Access → Access → Prop
  | element array _ _, element array' _ _ => array.type.same array'.type = true
  | field record name _, field record' name' _ => record.type.same record'.type = true ∧
    record.type.fieldOffset name = record'.type.fieldOffset name'
  | _, _ => False

end Access

/-- Whether an expression looks at no element or field that is like that of an access. -/
def Phrase.Avoids (x : Access) : Phrase → Prop
  | int _ | bool _ | var _ => True
  | unary _ _ e => e.Avoids x
  | binary _ _ e e' | relation _ _ e e' | equality _ _ e e' => e.Avoids x ∧ e'.Avoids x
  | element array index span =>
    (array.Avoids x ∧ index.Avoids x) ∧ ¬ (Access.element array index span).Alike x
  | field record name span => record.Avoids x ∧ ¬ (Access.field record name span).Alike x
  | length array _ => array.Avoids x

/-- Whether the path of an access looks at no element or field that is like the one that it leads
to.  An example of one that does is `a[a[0]]`: assigning to it may change where it leads. -/
def Access.IsDirect (x : Access) : Prop :=
  match x with
  | element array index _ => array.Avoids x ∧ index.Avoids x
  | field record _ _ => record.Avoids x

/-! ### Meaning -/

/-- What the value of an expression depends on.  Unlike a state of the machine, it has a word for
each variable, also for those without a place. -/
structure Memory where
  /-- The words of the variables. -/
  word : Decl → Word
  /-- The heap. -/
  heap : Array Word

/-- An element of the array, or the field at an offset of the record, that is at an address.  This
is what is on the stack before the word is loaded or stored. -/
inductive Member where
  /-- An element. -/
  | element (base index : Word)
  /-- A field. -/
  | field (base : Word) (offset : Nat)
  deriving DecidableEq, Repr

namespace Member

/-- The address of the object. -/
def base : Member → Word
  | element base _ => base
  | field base _ => base

/-- How many words after the first one of the object.  The first word of an array is its length. -/
def offset : Member → Nat
  | element _ index => index.toInt.toNat + 1
  | field _ offset => offset

/-- The word of the heap.  There is none in the null object, and none for an index that is negative
or not below the length of the array. -/
def place (heap : Array Word) : Member → Except Fault Nat
  | element base index =>
    if base = 0 then .error .nullReference
    else
      let length := heap.getD base.toInt.toNat 0
      if index < 0 ∨ length ≤ index then .error (.indexOutOfBounds index length)
      else .ok (base.toInt.toNat + (index.toInt.toNat + 1))
  | field base offset =>
    if base = 0 then .error .nullReference else .ok (base.toInt.toNat + offset)

end Member

/-- A sequence has a value if both its parts do. -/
theorem Fault.bind_eq_ok {α β : Type} {x : Except Fault α} {f : α → Except Fault β} {w : β} :
    x >>= f = .ok w ↔ ∃ v, x = .ok v ∧ f v = .ok w :=
  Action.except_bind_eq_ok

/-- Sequences agree if they do after each value of their first part. -/
theorem Fault.bind_congr {α β : Type} {x : Except Fault α} {f g : α → Except Fault β}
    (h : ∀ v, x = .ok v → f v = g v) : x >>= f = x >>= g := by
  cases x with
  | error cause => rfl
  | ok v => exact h v rfl

/-- The value of an expression, or the first fault from left to right.  All operands are evaluated
before an operator is applied, and array and index before the array is looked at. -/
def Phrase.eval (m : Memory) : Phrase → Except Fault Word
  | int v => .ok v
  | bool b => .ok (boolWord b)
  | var d => .ok (m.word d)
  | unary op _ x => do
    let a ← x.eval m
    .ok (op.scalar.word (op.eval (op.scalar.ofWord a)))
  | binary op _ x y => do
    let a ← x.eval m
    let b ← y.eval m
    op.onWords a b
  | relation op _ x y => do
    let a ← x.eval m
    let b ← y.eval m
    .ok (boolWord (op.eval a b))
  | equality op _ x y => do
    let a ← x.eval m
    let b ← y.eval m
    .ok (boolWord (Equality.eval (t := .int) op a b))
  | element array index _ => do
    let base ← array.eval m
    let index ← index.eval m
    let k ← (Member.element base index).place m.heap
    .ok (m.heap.getD k 0)
  | field record name _ => do
    let base ← record.eval m
    let k ← (Member.field base (record.type.fieldOffset name)).place m.heap
    .ok (m.heap.getD k 0)
  | length array _ => do
    let base ← array.eval m
    let k ← (Member.field base 0).place m.heap
    .ok (m.heap.getD k 0)

namespace Access

/-- The object of an access, and the index or the field in it.  Whether there is such a word is not
asked yet: in an assignment the value is evaluated in between. -/
def member (m : Memory) : Access → Except Fault Member
  | element array index _ => do
    let base ← array.eval m
    let index ← index.eval m
    .ok (.element base index)
  | field record name _ => do
    let base ← record.eval m
    .ok (.field base (record.type.fieldOffset name))

variable {m : Memory} {t : Member} {span : Span}

theorem of_member_element {array index : Phrase} (h : (element array index span).member m = .ok t) :
    ∃ base i, array.eval m = .ok base ∧ index.eval m = .ok i ∧ t = .element base i := by
  obtain ⟨base, hbase, h⟩ := Fault.bind_eq_ok.mp h
  obtain ⟨i, hi, h⟩ := Fault.bind_eq_ok.mp h
  exact ⟨base, i, hbase, hi, (Except.ok.inj h).symm⟩

theorem of_member_field {record : Phrase} {name : String}
    (h : (field record name span).member m = .ok t) :
    ∃ base, record.eval m = .ok base ∧ t = .field base (record.type.fieldOffset name) := by
  obtain ⟨base, hbase, h⟩ := Fault.bind_eq_ok.mp h
  exact ⟨base, hbase, (Except.ok.inj h).symm⟩

end Access

/-! ### Compilation -/

namespace Phrase

open Compiler

/-- The calls that compile an expression.  The operands of an operator are pushed from left to
right, and so is the object of an element or field before what it takes to find it. -/
def term : Phrase → Term
  | int v => .operand (.int v)
  | bool b => .operand (.bool b)
  | var d => .var d
  | unary op span x => .unary op span x.term
  | binary op span x y => .binary (.load x.term) op span (.load y.term)
  | relation op span x y => .relation (.load x.term) op span (.load y.term)
  | equality op span x y => .equality (.load x.term) op span (.load y.term)
  | element array index span => .element array.term index.term span
  | field record name span => .field (.load record.term) name span
  | length array span => .length array.term span

/-- Compiles an expression and gives the operand that stands for it, which may still have to be
pushed.  There are no new arrays in it, so that it does not matter how these would be created. -/
def generate (e : Phrase) : Checked Operand := e.term.generate .noted

/-- Compiles an expression and pushes its value. -/
def load (e : Phrase) : Checked Operand := do
  loadValue (← e.generate)

end Phrase

/-- Compiles an assignment to an element or a field.  The object is pushed before the value, and the
word is stored at the end. -/
def Access.store (x : Access) (e : Phrase) (span : Span) : Checked Unit := do
  let target ← x.phrase.generate
  let value ← e.generate
  Compiler.assign target value span

end MJ
