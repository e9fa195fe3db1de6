import MJ.Opcode
import MJ.Text.Column
import MJ.Bytes.Varint

/-!
# Image errors

What can be wrong with an object file, or with code when it is closed.

## Main definitions

* `ImageError` — the causes.
* `ImageError.message` — their wording.

## References

The MJ specification, §E2 *Error handling*: the errors that are detected when an object file is
written, and those of reading one.
-/

namespace MJ

/-- Why code could not be finished, or an object file not be read or written.  Other than a misuse,
such an error leaves the caller able to go on. -/
inductive ImageError where
  /-- No procedure was opened as the main one. -/
  | noMainProcedure
  /-- A label was used and never defined. -/
  | undefinedLabel (label : String)
  /-- A hole in the code was never filled. -/
  | unfilledHole (address : Nat)
  /-- A procedure is still open. -/
  | openProcedure (label : String)
  /-- The code outgrew sixteen-bit addresses. -/
  | codeTooLarge (size : Nat)
  /-- The file does not start with the magic bytes. -/
  | badMagic (first second : UInt8)
  /-- A byte in the place of an opcode is none. -/
  | unknownOpcode (address : Nat) (byte : UInt8)
  /-- The file is shorter than a header. -/
  | shortHeader (got : Nat)
  /-- The file is shorter than its header announces. -/
  | shortSegments (announced got : Nat)
  /-- The code ends inside an instruction. -/
  | shortInstruction (opcode : Opcode) (address left : Nat)
  /-- The label map could not be read. -/
  | labelMap (cause : ReadError)
  /-- The place to write to was too small. -/
  | sinkFull
  /-- The host failed to read or write. -/
  | host (reason : String)
  deriving DecidableEq, Repr

/-- The size of an object file's header in bytes.  Two letters and three numbers of four bytes. -/
def headerSize : Nat := 14

/-- What is wrong, without the leading words. -/
def ImageError.reason : ImageError → String
  | noMainProcedure => "no main procedure was defined"
  | undefinedLabel label => s!"label '{label}' is referenced but never defined"
  | unfilledHole address => s!"code byte at address {address} was never backpatched"
  | openProcedure label => s!"procedure '{label}' is still open"
  | codeTooLarge size => s!"code segment of {size} bytes exceeds the 16-bit address space"
  | badMagic first second =>
    "bad magic bytes [" ++ Text.hexByte first ++ ", " ++ Text.hexByte second ++
      "], expected 4D 4A"
  | unknownOpcode address byte => s!"unknown opcode {byte} at address {address}"
  | shortHeader got =>
    s!"truncated object file (header needs {headerSize} bytes, got {got})"
  | shortSegments announced got =>
    s!"truncated object file (header announces {announced} bytes, file has {got})"
  | shortInstruction opcode address left =>
    "truncated object file (" ++ opcode.mnemonic ++
      s!" at address {address} needs {opcode.size} bytes, {left} left)"
  | labelMap cause => "malformed symbol map: " ++ cause.message
  | sinkFull => "failed to write whole buffer"
  | host reason => reason

/-- The text of an image error. -/
def ImageError.message (e : ImageError) : String := "object error: " ++ e.reason

end MJ
