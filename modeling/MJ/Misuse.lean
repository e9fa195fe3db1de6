import MJ.Opcode
import MJ.Text.Quoted

/-!
# Misuse

Writing code follows a protocol: labels are defined once, procedures do not nest, holes are filled
once.  A caller that breaks it has a fault of its own, and there is no way to go on.

## Main definitions

* `Misuse` — the ways to break the protocol.
* `Misuse.message` — their wording.

## References

The MJ specification, §7 *Error Handling Design*, under *Fatal usage errors*, and §E2 *Error
handling* for those that are raised while code is emitted.
-/

namespace MJ

/-- A fatal misuse of the assembler or compiler.  Some of them tell of a program that is too large,
and all others of a caller that broke the protocol. -/
inductive Misuse where
  /-- A byte that is already known was to be filled. -/
  | noHole (address : Nat)
  /-- A byte after the end of the code was to be filled. -/
  | pastEnd (address size : Nat)
  /-- A label was defined a second time. -/
  | labelTaken (label : String) (address : Nat)
  /-- A frame outgrew the one byte of `enter`. -/
  | frameTooLarge (label : String) (size : Nat)
  /-- A value does not fit the operand of an instruction. -/
  | operandTooLarge (opcode : Opcode) (value : Word) (width : Width)
  /-- Frame words were asked for while no procedure was open. -/
  | noFrame (words : Nat)
  /-- A procedure was entered inside another one. -/
  | nestedProcedure (label outer : String)
  /-- A second main procedure was entered. -/
  | secondMain (label main : String)
  /-- A procedure was left while none was open. -/
  | nothingToExit (label : String)
  /-- The static segment of an image has a broken word. -/
  | brokenWord (excess : Nat)
  /-- An array type without dimensions. -/
  | noDimensions
  /-- A name without a value was used as an operand. -/
  | notAnOperand (kind name : String)
  /-- A name was used before storage was set aside for it. -/
  | noStorage (kind name : String)
  /-- A later length of an array was stored before its second one. -/
  | lengthWithoutFirst (dimension : Nat)
  /-- The lengths of an array were not stored in order. -/
  | lengthOutOfOrder (expected got : Nat)
  /-- An array was allocated before its lengths were stored. -/
  | lengthsMissing (dimensions : Nat)
  /-- The stored lengths are not as many as the array has dimensions. -/
  | lengthsMismatch (stored dimensions : Nat) (type : String)
  /-- An array was indexed before it was loaded. -/
  | baseNotLoaded
  /-- A field of a record was used before the fields were numbered. -/
  | fieldsNotNumbered (record : String)
  /-- A global constant got a value that is not a literal. -/
  | literalNeeded (offset : Word)
  /-- An operand that is no place to store to was assigned to. -/
  | notAssignable (place : String)
  /-- A name that is no procedure was entered or called. -/
  | notAProcedure (name type : String)
  /-- The compiler was to leave a procedure while none was open. -/
  | noOpenProcedure
  /-- The compiler was to leave another procedure than the open one. -/
  | exitMismatch (name expected actual : String)
  /-- A return outside of a procedure. -/
  | returnOutside
  /-- A size is too large to count or to address. -/
  | sizeOverflow
  deriving DecidableEq, Repr

namespace Misuse

/-- The wording for two values that should have been the same.  Both values are shown, so that the
difference can be seen. -/
def unequal (left right : String) (about : String) : String :=
  "assertion `left == right` failed" ++ about ++ "\n  left: " ++ left ++ "\n right: " ++ right

/-- The text of a misuse.  The address, label or number at fault is in it. -/
def message : Misuse → String
  | noHole address => s!"code buffer has no placeholder at address {address}"
  | pastEnd address size =>
    s!"backpatch address {address} beyond end of code buffer ({size} bytes)"
  | labelTaken label address => s!"label '{label}' already defined at address {address}"
  | frameTooLarge label size =>
    s!"frame of procedure '{label}' needs {size} words, enter supports at most 255"
  | operandTooLarge opcode value width =>
    s!"operand {value.toInt} of " ++ opcode.mnemonic ++ s!" does not fit in {width.size} byte(s)"
  | noFrame words => s!"cannot allocate {words} stack word(s) outside of a procedure"
  | nestedProcedure label outer =>
    s!"cannot enter procedure '{label}' while '{outer}' is open: procedures do not nest"
  | secondMain label main => s!"cannot enter '{label}' as main procedure: '{main}' already is"
  | nothingToExit label => s!"cannot exit procedure at '{label}': no procedure is open"
  | brokenWord excess => unequal (toString excess) "0" ""
  | noDimensions => "array type needs at least one dimension"
  | notAnOperand kind name => s!"cannot use {kind} '{name}' as an operand"
  | noStorage kind name => s!"{kind} '{name}' has no storage allocated"
  | lengthWithoutFirst dimension => s!"array dimension {dimension} stored before dimension 1"
  | lengthOutOfOrder expected got =>
    unequal (toString expected) (toString got) ": array dimensions must be stored in order"
  | lengthsMissing dimensions =>
    s!"lengths of a {dimensions}-dimensional array must be stored before allocating it"
  | lengthsMismatch stored dimensions type =>
    unequal (toString stored) (toString dimensions)
      s!": stored dimension lengths do not match array type {type}"
  | baseNotLoaded => "array base must be loaded before its index"
  | fieldsNotNumbered record => s!"field offsets of record '{record}' were never assigned"
  | literalNeeded offset =>
    s!"global constant at static {offset.toInt} needs a literal initializer"
  | notAssignable place => s!"cannot assign to an operand of kind {place}"
  | notAProcedure name type => s!"symbol '{name}' of type {type} is not a procedure"
  | noOpenProcedure => "exit_proc without an open procedure"
  | exitMismatch name expected actual =>
    unequal (Text.quoted expected) (Text.quoted actual)
      s!": exit_proc for '{name}' does not match the open procedure"
  | returnOutside => "return outside of a procedure"
  | sizeOverflow => "size overflow"

end Misuse
end MJ
