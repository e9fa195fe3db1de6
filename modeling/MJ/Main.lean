import MJ.CommandLine

/-!
# The program

The command line on the system's own files and streams.
-/

namespace MJ
namespace Console

/-- The cause of a failed access.  The system gives the code of a cause or its negative. -/
def hostError : IO.Error → HostError
  | .noFileOrDirectory _ _ _ => .notFound
  | .inappropriateType _ code _ =>
    if code = 20 ∨ code = -20 then .notDirectory else .isDirectory
  | .invalidArgument _ code _ =>
    if code = 36 ∨ code = -36 then .nameTooLong else .other "Invalid argument (os error 22)"
  | e => .other (toString e)

/-- Tries an access.  Errors become values, so that commands can report them. -/
def attempt {α : Type} (action : IO α) : IO (Except HostError α) := do
  match ← action.toBaseIO with
  | .ok a => return .ok a
  | .error e => return .error (hostError e)

/-- Reads a stream to its end. -/
partial def readAll (stream : IO.FS.Stream) (bytes : ByteArray) : IO ByteArray := do
  let chunk ← stream.read 65536
  if chunk.isEmpty then return bytes else readAll stream (bytes ++ chunk)

instance : Host IO where
  readFile name := attempt do return (← IO.FS.readBinFile name).data.toList
  writeFile name bs := attempt (IO.FS.writeBinFile name ⟨bs.toArray⟩)
  readInput := do return (← readAll (← IO.getStdin) .empty).data.toList
  print bs := do
    let out ← IO.getStdout
    out.write ⟨bs.toArray⟩
    out.flush
  complain text := IO.eprintln text

end Console
end MJ

/-- Runs the command line. -/
def main (args : List String) : IO UInt32 := MJ.CommandLine.main args
