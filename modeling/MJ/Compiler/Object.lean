import MJ.Compiler.Desk

/-!
# Arrays and records

An array with several dimensions is an array of arrays.  The lengths are evaluated first: the
first stays on the stack, each later one goes to a word of the frame.  The code that allocates the
array fills each level in a loop.

## Main definitions

* `Compiler.storeLength` — a length of an array under construction.
* `Compiler.allocArray`, `Compiler.allocRecord`
* `Handling.selectElement`, `Handling.selectField`, `Handling.arrayLength` — what is done to the
  array or record in hand.
* `Compiler.selectElement`, `Compiler.selectField`, `Compiler.arrayLength` — the same for a caller
  that has an array or record and goes on with what is selected.

## References

The MJ specification, §4.5 *Code Generator*, under `allocArray` and `allocRecord`, and §E6
*Supplemented features* for arrays with several dimensions, `storeArrayDim`, `arrayOffset` and
`recordOffset`.
-/

namespace MJ
namespace Compiler

/-- The most dimensions that an array may have.  More of them are refused both when the lengths are
stored and when the array is allocated. -/
def maxDimensions : Nat := 8

/-- Notes the frame offset of the length of a dimension that is not the first.  The length of the
second dimension begins a new list, so that the lengths of an array may themselves contain arrays.
-/
def noteLength (dimension : Nat) (slot : Word) : Compile Unit := fun c =>
  if dimension = 1 then .ok () { c with pendingLengths := [slot] :: c.pendingLengths }
  else
    match c.pendingLengths with
    | [] => .error (.lengthWithoutFirst dimension) c
    | slots :: rest =>
      if slots.length + 1 = dimension then
        .ok () { c with pendingLengths := (slots ++ [slot]) :: rest }
      else .error (.lengthOutOfOrder (slots.length + 1) dimension) c

/-- Takes the frame offsets of the lengths of the innermost array under construction, which has
`inner + 1` dimensions. -/
def takeLengths (inner : Nat) (type : Ty) : Compile (List Word) := fun c =>
  match c.pendingLengths with
  | [] => .error (.lengthsMissing (inner + 1)) c
  | slots :: rest =>
    if slots.length = inner then .ok slots { c with pendingLengths := rest }
    else .error (.lengthsMismatch (slots.length + 1) (inner + 1) type.name) c

/-- Evaluates the length of a dimension, counted from 0.  The first length is left on the stack,
where an array with one dimension needs it. -/
def storeLength (dimension : Nat) (length : Operand) (span : Span) : Checked Unit := do
  if maxDimensions ≤ dimension then reject (.tooManyDimensions maxDimensions) span
  else if !length.type.isInt then reject .badArraySelector span
  else
    loadIfNeeded length
    if dimension ≠ 0 then
      let slot ← allocTemp
      Assembler.storeWord .stack slot
      noteLength dimension slot

/-- Allocates an array whose lengths are in words of the frame, all its levels included:

```text
        array := new array of the first length
        index := 0
  top:  go to done if index is not below the length
        array[index] := an array of the later lengths
        index := index + 1
        go to top
  done: push array
``` -/
def allocLevels : (slots : List Word) → Compile Unit
  | [] => pure ()
  | [slot] => do
    Assembler.loadWord .stack slot
    Assembler.newArray
  | slot :: inner :: rest => do
    Assembler.loadWord .stack slot
    Assembler.newArray
    let array ← allocTemp
    let index ← allocTemp
    Assembler.storeWord .stack array
    Assembler.pushConst 0
    Assembler.storeWord .stack index
    let top ← newLabel
    let done ← newLabel
    define top
    Assembler.loadWord .stack index
    Assembler.loadWord .stack slot
    Assembler.compare .ge
    Assembler.branchIf true done
    Assembler.loadWord .stack array
    Assembler.loadWord .stack index
    allocLevels (inner :: rest)
    Assembler.emit .astore
    Assembler.loadWord .stack index
    Assembler.pushConst 1
    Assembler.emit .add
    Assembler.storeWord .stack index
    jump top
    define done
    Assembler.loadWord .stack array

/-- Allocates an array.  Its first length is on the stack; the later ones were stored. -/
def allocArray (type : Ty) (span : Span) : Checked Operand := do
  match type with
  | .array inner _ =>
    if maxDimensions < inner + 1 then reject (.tooManyDimensions maxDimensions) span
    else if inner = 0 then
      Assembler.newArray
      return .ofType type
    else
      let slots ← takeLengths inner type
      let first ← allocTemp
      Assembler.storeWord .stack first
      allocLevels (first :: slots)
      return .ofType type
  | _ => reject .invalidNewType span

/-- Allocates a record.  It has a word for each field, and all of them are zero. -/
def allocRecord (type : Ty) (span : Span) : Checked Operand := do
  match type with
  | .record _ fields =>
    Assembler.newObject fields.length
    return .ofType type
  | _ => reject .invalidNewType span

end Compiler

namespace Handling

/-- Selects the element of the array in hand at an index, which is pushed if it is not.  The array
has to be on the stack already. -/
def selectElement (index : Operand) (span : Span) : Handling Unit := do
  let array ← inHand
  match array.type with
  | .array inner base =>
    if !index.type.isInt then reject .badArraySelector span
    else if !array.isOnStack then throwThe Misuse .baseNotLoaded
    else
      Compiler.loadIfNeeded index
      changeInHand fun array => { array with
        place := .element, type := Ty.element inner base, isGlobal := false, isConstant := false }
  | _ => reject .selectorNotArray span

/-- Selects a field of the record in hand, which is pushed if it is not.  The name is looked up
before anything is pushed. -/
def selectField (field : String) (span : Span) : Handling Unit := do
  let record ← inHand
  match record.type with
  | .record name fields =>
    match Ty.findField? fields field with
    | none => reject (.invalidField field name) span
    | some found =>
      match found.offset? with
      | none => throwThe Misuse (.fieldsNotNumbered name)
      | some offset =>
        loadInHand
        changeInHand fun record => { record with
          place := .field, type := found.type, offset := offset,
          isGlobal := false, isConstant := false }
  | _ => reject .selectorNotRecord span

/-- The length of the array in hand, which is pushed if it is not.  The array is used up, and its
length is on the stack instead. -/
def arrayLength (span : Span) : Handling Operand := do
  let array ← inHand
  if !array.type.isArray then reject .lengthNotArray span
  else
    loadInHand
    Assembler.emit .arraylength
    return .ofType .int

end Handling

namespace Compiler

/-- The element of an array on the stack at an index.  The index is pushed after it, unless it is on
the stack already. -/
def selectElement (array index : Operand) (span : Span) : Checked Operand := do
  let (element, _) ← lend array (Handling.selectElement index span)
  return element

/-- The field of a record.  The record is pushed, unless it is on the stack already. -/
def selectField (record : Operand) (field : String) (span : Span) : Checked Operand := do
  let (selected, _) ← lend record (Handling.selectField field span)
  return selected

/-- The length of an array.  Also gives the array as it is then. -/
def arrayLength (array : Operand) (span : Span) : Checked (Operand × Operand) :=
  lend array (Handling.arrayLength span)

end Compiler
end MJ
