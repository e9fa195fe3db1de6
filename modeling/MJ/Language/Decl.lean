import MJ.Language.Ty

/-!
# Declarations

What a name of the compiled program stands for.

## Main definitions

* `Decl` — a declared name.
* `Decl.label`, `Decl.endLabel` — the labels at the two ends of a procedure.
* `Builtin.decl` — the names that are declared from the start.

## References

The MJ specification, §3 *Data Model*, under *Symbol*, and §4.5 *Code Generator* for the labels of
a procedure and for the predefined ones.
-/

namespace MJ

/-- What kind of thing a name stands for.  Only three of them can be used as operands. -/
inductive DeclKind where
  /-- The program itself. -/
  | program
  /-- A procedure. -/
  | procedure
  /-- A variable. -/
  | var
  /-- A constant. -/
  | constant
  /-- A type. -/
  | typename
  /-- A field of a record. -/
  | field
  /-- A parameter of a procedure. -/
  | parameter
  deriving DecidableEq, Repr

/-- The kind as diagnostics show it. -/
def DeclKind.name : DeclKind → String
  | program => "program"
  | procedure => "procedure"
  | var => "variable"
  | constant => "constant"
  | typename => "typename"
  | field => "field"
  | parameter => "parameter"

/-- A declared name.  It has a place only after storage was set aside for it. -/
structure Decl where
  /-- The name. -/
  name : String
  /-- What it stands for. -/
  kind : DeclKind
  /-- Its type. -/
  type : Ty
  /-- Whether it is declared outside of all procedures. -/
  isGlobal : Bool
  /-- Whether the program may not change it. -/
  isReadonly : Bool
  /-- Its place in the frame, the static segment or the record, once it has one. -/
  offset? : Option Word
  /-- Tells declarations of one name in different scopes apart. -/
  id : UInt32
  deriving Repr, BEq

namespace Decl

/-- A local name without a place.  The place comes later, when storage is set aside. -/
def ofKind (name : String) (kind : DeclKind) (type : Ty) (id : UInt32) : Decl :=
  ⟨name, kind, type, false, false, none, id⟩

/-- The label at the start of a procedure.  The number tells procedures of one name apart, and the
`#` keeps them apart from labels that are made up. -/
def label (s : Decl) : String := s.name ++ "#" ++ toString s.id.toNat

/-- The label at the end of a procedure.  All returns jump there. -/
def endLabel (s : Decl) : String := s.label ++ "_end"

/-- Whether the name stands for something with a value.  These are the names that can be operands.
-/
def isVariable (s : Decl) : Bool :=
  match s.kind with
  | .var | .constant | .parameter => true
  | _ => false

end Decl

/-- The name of a builtin procedure as it is declared from the start. -/
def Builtin.decl (b : Builtin) : Decl :=
  ⟨b.name, .procedure, b.type, true, false, none, 0⟩

/-- A field as a declared name. -/
def Field.decl (f : Field Ty) : Decl :=
  ⟨f.name, .field, f.type, false, false, f.offset?, 0⟩

end MJ
