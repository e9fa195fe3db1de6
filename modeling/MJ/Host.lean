/-!
# The host of the command line

What the command line needs from the system it runs on.

## Main definitions

* `HostError` — why a file could not be used.
* `Host` — files, standard input and the two outputs.

## References

The MJ specification, §E4 *Configuration*: the files, the input and the outputs that its commands
use.
-/

namespace MJ

/-- Why a file could not be used.  Their texts are those of the system. -/
inductive HostError where
  /-- There is no such file. -/
  | notFound
  /-- The file is a directory. -/
  | isDirectory
  /-- The path leads through a file that is no directory. -/
  | notDirectory
  /-- A name or the whole path is too long. -/
  | nameTooLong
  /-- Anything else. -/
  | other (text : String)
  deriving DecidableEq, Repr

namespace HostError

/-- The text of a host error.  It ends with the number that the system gives to the cause. -/
def message : HostError → String
  | notFound => "No such file or directory (os error 2)"
  | isDirectory => "Is a directory (os error 21)"
  | notDirectory => "Not a directory (os error 20)"
  | nameTooLong => "File name too long (os error 36)"
  | other text => text

/-- Whether the error means that nothing can be there.  Such a label map is passed over without a
warning. -/
def isMissing : HostError → Bool
  | notFound | notDirectory | nameTooLong => true
  | _ => false

end HostError

/-- What a command may do. -/
class Host (m : Type → Type) where
  /-- The bytes of a file. -/
  readFile : String → m (Except HostError (List UInt8))
  /-- Makes a file with the given bytes, in place of one of that name. -/
  writeFile : String → List UInt8 → m (Except HostError Unit)
  /-- All of standard input. -/
  readInput : m (List UInt8)
  /-- Writes to standard output. -/
  print : List UInt8 → m Unit
  /-- Writes a line to the error output. -/
  complain : String → m Unit

end MJ
