import MJ.Misuse

/-!
# Types

The types of the language that is compiled to the MJ machine.

## Main definitions

* `Ty` — types.
* `Ty.same` — the equality that type checks use: records are told apart by name and number of
  fields, procedures by their result and parameter types.
* `Ty.name`, `Ty.name?` — the type as diagnostics show it.

## References

The MJ specification, §6 *External Interfaces*, under *Collaborator-facing interface*: a type is
given by the front end, and only compared and looked into here.
-/

namespace MJ

/-- The procedures that are compiled in place instead of called.  They are declared from the start,
and have no label that could be called. -/
inductive Builtin where
  /-- Prints a number. -/
  | writeint
  /-- Prints a truth value. -/
  | writebool
  /-- Ends the line. -/
  | writeln
  /-- Reads a number. -/
  | readint
  deriving DecidableEq, Repr

/-- The name of a builtin procedure. -/
def Builtin.name : Builtin → String
  | writeint => "writeint"
  | writebool => "writebool"
  | writeln => "writeln"
  | readint => "readint"

/-- A field of a record.  The type is a parameter, since types contain fields themselves. -/
structure Field (τ : Type) where
  /-- Its name. -/
  name : String
  /-- Its type. -/
  type : τ
  /-- Its place in the record, once the fields are numbered. -/
  offset? : Option Word
  deriving Repr

/-- A parameter of a procedure.  Where it is kept follows from its position. -/
structure Param (τ : Type) where
  /-- Its name. -/
  name : String
  /-- Its type. -/
  type : τ
  deriving Repr

/-- A type of the compiled language.  Types are trees: a record is given with all its fields, and so
it cannot contain itself. -/
inductive Ty where
  /-- Numbers. -/
  | int
  /-- Truth values. -/
  | bool
  /-- The result of a procedure that gives none. -/
  | void
  /-- Arrays with `inner + 1` dimensions. -/
  | array (inner : Nat) (base : Ty)
  /-- Records. -/
  | record (name : String) (fields : List (Field Ty))
  /-- Procedures. -/
  | procedure (name : String) (result : Ty) (params : List (Param Ty)) (builtin? : Option Builtin)
  deriving Repr, Inhabited

namespace Ty

/-- Whether the type is that of numbers. -/
def isInt : Ty → Bool
  | int => true
  | _ => false

/-- Whether the type is that of truth values. -/
def isBool : Ty → Bool
  | bool => true
  | _ => false

/-- Whether the type is that of no value.  Such a procedure cannot be used in an expression. -/
def isVoid : Ty → Bool
  | void => true
  | _ => false

/-- Whether the type is an array type.  The number of dimensions does not matter. -/
def isArray : Ty → Bool
  | array _ _ => true
  | _ => false

/-- Whether the type is a record type. -/
def isRecord : Ty → Bool
  | record _ _ => true
  | _ => false

/-- Whether values of the type are objects on the heap.  A variable of such a type holds the address
of an object. -/
def isReference (t : Ty) : Bool := t.isArray || t.isRecord

mutual

/-- Whether two types count as equal.  Records are not compared field by field, and procedures not
by name. -/
def same : Ty → Ty → Bool
  | int, int => true
  | bool, bool => true
  | void, void => true
  | array m s, array n t => m == n && same s t
  | record a fs, record b gs => a == b && fs.length == gs.length
  | procedure _ r ps _, procedure _ s qs _ => same r s && sameParams ps qs
  | _, _ => false

/-- Whether two parameter lists have equal types; the names do not matter. -/
def sameParams : List (Param Ty) → List (Param Ty) → Bool
  | [], [] => true
  | ⟨_, s⟩ :: ps, ⟨_, t⟩ :: qs => same s t && sameParams ps qs
  | _, _ => false

end

instance : BEq Ty := ⟨same⟩

/-- The array type with the given number of dimensions, of which there must be one.  The misuse is
found here, so that no such type exists. -/
def ofDimensions : (dimensions : Nat) → Ty → Except Misuse Ty
  | 0, _ => .error .noDimensions
  | inner + 1, base => .ok (array inner base)

/-- The type of the elements of an array with `inner + 1` dimensions.  With one dimension these are
values of the base type, and with more they are arrays. -/
def element : (inner : Nat) → (base : Ty) → Ty
  | 0, base => base
  | inner + 1, base => array inner base

/-- The type as diagnostics show it.  Brackets are written once for each dimension. -/
def name : Ty → String
  | int => "int"
  | bool => "bool"
  | void => "void"
  | array inner base => base.name ++ String.join (List.replicate (inner + 1) "[]")
  | record name _ => s!"record {name}"
  | procedure name _ _ _ => s!"procedure {name}"

/-- The most dimensions of which a name can be written.  Each dimension takes two bytes, and a
longer text could not be addressed. -/
def maxNamed : Nat := 4611686018427387903

/-- Whether the name of a type can be written.  Only the dimensions of arrays can make a name too
long. -/
def isNamed : Ty → Bool
  | array inner base => inner < maxNamed && base.isNamed
  | _ => true

/-- The name of a type, if it can be written.  A name that is too long is a misuse, as is any size
that cannot be counted. -/
def name? (t : Ty) : Except Misuse String :=
  if t.isNamed then .ok t.name else .error .sizeOverflow

/-- The first field of a record with the given name.  Further ones of that name cannot be reached.
-/
def findField? (fields : List (Field Ty)) (name : String) : Option (Field Ty) :=
  fields.find? (·.name == name)

/-- The fields of a record with offsets counted from `offset` on.  Each field takes one word. -/
def numberFrom (offset : Nat) : List (Field Ty) → List (Field Ty)
  | [] => []
  | f :: fs => { f with offset? := some (Int32.ofNat offset) } :: numberFrom (offset + 1) fs

/-- A record type with its fields numbered in the order of declaration.  Other types stay as they
are. -/
def numberFields : Ty → Ty
  | record name fields => record name (numberFrom 0 fields)
  | t => t

end Ty

/-- The type of a builtin procedure. -/
def Builtin.type (b : Builtin) : Ty :=
  match b with
  | writeint => .procedure b.name .void [⟨"i", .int⟩] (some b)
  | writebool => .procedure b.name .void [⟨"b", .bool⟩] (some b)
  | writeln => .procedure b.name .void [] (some b)
  | readint => .procedure b.name .int [] (some b)

end MJ
