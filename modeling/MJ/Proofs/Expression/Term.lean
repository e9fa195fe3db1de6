import MJ.Compiler.Object
import MJ.Compiler.Procedure
import MJ.Demo

/-!
# The calls that compile an expression

A caller of the compiler turns an expression into calls, one for each construct, in the order in
which the values are computed.  A term is such a plan.  All expressions of the language are compiled
by `Term.generate`; the syntaxes that have a meaning of their own are translated to terms.

## Main definitions

* `Term` — expressions of all types, by the calls that generate their code.
* `Term.generate` — the code of a term, with any way to create an array.
* `Creation.noted` — the compiler's way to create an array.

## References

The MJ specification, §4.5 *Code Generator*: the constructs are its operations on attributes.
-/

namespace MJ

open Compiler

mutual

/-- An expression of any type, by the calls of the compiler that generate its code.  A term need not
be well-typed, and literals stand for whatever operands a caller has. -/
inductive Term where
  /-- A literal, or an operand that is at hand. -/
  | operand (x : Operand)
  /-- The value of a variable. -/
  | var (d : Decl)
  /-- A term whose value is pushed. -/
  | load (t : Term)
  /-- An operator before a term. -/
  | unary (op : Unary) (span : Span) (t : Term)
  /-- An operator between two terms. -/
  | binary (s : Term) (op : Binary) (span : Span) (t : Term)
  /-- A comparison of two terms. -/
  | relation (s : Term) (op : Relation) (span : Span) (t : Term)
  /-- A test of two terms for equality. -/
  | equality (s : Term) (op : Equality) (span : Span) (t : Term)
  /-- The length of an array. -/
  | length (array : Term) (span : Span)
  /-- The element of an array at an index. -/
  | element (array index : Term) (span : Span)
  /-- A field of a record. -/
  | field (record : Term) (name : String) (span : Span)
  /-- A call. -/
  | call (s : Decl) (arguments : Terms) (span : Span)
  /-- A new record. -/
  | newRecord (type : Ty) (span : Span)
  /-- A new array with the given lengths, of which there is one for each dimension. -/
  | newArray (base : Ty) (first : Term) (firstSpan : Span) (later : Terms) (span : Span)

/-- Terms one after the other, each with where it is written. -/
inductive Terms where
  /-- No terms. -/
  | nil
  /-- A term before others. -/
  | cons (t : Term) (span : Span) (rest : Terms)

end

/-- The code of a term, and where the term is written. -/
abbrev Evaluation := Checked Operand × Span

/-- A way to create an array from its base type and its lengths.  The lengths are given by their
code, so that it is up to the way when they are evaluated. -/
abbrev Creation :=
  (base : Ty) → (first : Evaluation) → (later : List Evaluation) → Span → Checked Operand

/-- Evaluates terms in order, and stops at the first that is wrong. -/
def evaluateAll : List Evaluation → Checked (List Operand)
  | [] => return []
  | (x, _) :: rest => do
    let v ← x
    return v :: (← evaluateAll rest)

mutual

/-- The code of a term.  It is given with any way to create an array, so that the compiler's own way
can be compared with another one. -/
def Term.generate (create : Creation) : Term → Checked Operand
  | .operand x => return x
  | .var d => Demo.valueOf d
  | .load t => do loadValue (← t.generate create)
  | .unary op span t => do Compiler.unary (some op) span (← t.generate create)
  | .binary s op span t => do
    let x ← s.generate create
    let y ← t.generate create
    Compiler.binary x op span y
  | .relation s op span t => do
    let x ← s.generate create
    let y ← t.generate create
    Compiler.relation x op span y
  | .equality s op span t => do
    let x ← s.generate create
    let y ← t.generate create
    Compiler.equality x op span y
  | .length array span => do
    let (_, x) ← arrayLength (← array.generate create) span
    return x
  | .element array index span => do
    let x ← loadAddress (← array.generate create)
    let y ← index.generate create
    selectElement x y span
  | .field record name span => do selectField (← record.generate create) name span
  | .call s arguments span => do callFunction s (← evaluateAll (arguments.generate create)) span
  | .newRecord type span => allocRecord type span
  | .newArray base first firstSpan later span =>
    create base (first.generate create, firstSpan) (later.generate create) span

/-- The code of each of some terms. -/
def Terms.generate (create : Creation) : Terms → List Evaluation
  | .nil => []
  | .cons t span rest => (t.generate create, span) :: rest.generate create

end

namespace Creation

/-- Evaluates and stores lengths, the first of which is that of the given dimension. -/
def storeLengths (dimension : Nat) : List Evaluation → Checked Unit
  | [] => return ()
  | (length, span) :: later => do
    storeLength dimension (← length) span
    storeLengths (dimension + 1) later

/-- The array is created from the lengths that the compiler has noted.  The compiler notes where
each length is stored, and a length that creates an array in turn starts notes of its own. -/
def noted : Creation := fun base first later span => do
  storeLengths 0 (first :: later)
  allocArray (.array later.length base) span

end Creation
end MJ
