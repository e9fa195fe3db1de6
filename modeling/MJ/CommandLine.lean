import MJ.Demo
import MJ.Host
import MJ.Listing
import MJ.Machine.Run

/-!
# The command line

## Main definitions

* `Command`, `Command.parse` — what the arguments ask for.
* `CommandLine.main` — runs a command on a host and gives its exit code.

## References

The MJ specification, §E4 *Configuration*, which lists the commands and their flags.
-/

namespace MJ

/-- What the command line asks for.  If several things are asked for, only one of them is done. -/
inductive Command where
  /-- Nothing that can be done: show how to use the program. -/
  | usage
  /-- The number of steps is none. -/
  | badSteps (text : String)
  /-- Write the demonstration program. -/
  | demo (file : String)
  /-- List an object file, with counts of its instructions or without. -/
  | list (file : String) (statistics : Bool)
  /-- Run an object file. -/
  | run (file : String) (maxSteps : Option Nat)
  deriving DecidableEq, Repr

namespace Command

/-- A count as it is written in an argument: digits after an optional plus sign, within 64 bits. -/
def parseCount? (text : String) : Option Nat :=
  let digits := match text.toList with
    | '+' :: rest => rest
    | cs => cs
  if digits.isEmpty || !digits.all Char.isDigit then none
  else
    let n := Nat.ofDigitChars 10 digits 0
    if n < UInt64.size then some n else none

/-- The argument after the first occurrence of a flag.  A flag at the very end has none. -/
def valueAfter? (flag : String) : List String → Option String
  | [] => none
  | arg :: args => if arg = flag then args.head? else valueAfter? flag args

/-- The first argument that is neither a flag nor the value of `--max-steps`, given the argument
before. -/
def file? (previous : String) : List String → Option String
  | [] => none
  | arg :: args =>
    if arg.toList.head? != some '-' && previous != "--max-steps" then some arg
    else file? arg args

/-- What the arguments ask for.  A wrong number of steps is reported before anything else is looked
at. -/
def parse (args : List String) : Command :=
  let command (maxSteps : Option Nat) : Command :=
    match file? "" args with
    | none => usage
    | some file =>
      if args.contains "--demo" then demo file
      else if args.contains "--dis" then list file (args.contains "--stats")
      else if args.contains "--run" then run file maxSteps
      else usage
  match valueAfter? "--max-steps" args with
  | none => command none
  | some text =>
    match parseCount? text with
    | none => badSteps text
    | some n => command (some n)

end Command

namespace CommandLine

variable {m : Type → Type} [Monad m] [Host m]

/-- How to use the program. -/
def usageText : String :=
  String.join ([
    "MJC - code generator and stack machine for MJ object files",
    "",
    "Usage:",
    "  mjc --demo <out.mj>                 Generate the demo program",
    "  mjc --dis <file.mj> [--stats]       Disassemble an object file",
    "  mjc --run <file.mj> [--max-steps N] Execute an object file",
    "",
    "Set RUST_LOG=debug to trace code generation."].map (· ++ "\n"))

/-- Writes a text to standard output.  All output is bytes; a text is written as UTF-8. -/
def printText (text : String) : m Unit := Host.print (Utf8.encode text)

/-- Ends a command that failed.  The exit code is 1, for whatever is wrong with the arguments or the
files. -/
def failWith (text : String) : m UInt32 := do
  Host.complain text
  return 1

/-- Ends a command that was aborted.  The exit code is that of a program that broke down, and not of
one that found an error. -/
def abortWith (text : String) : m UInt32 := do
  Host.complain text
  return 101

/-- The file beside an object file that holds its label map.  It is found by the name only. -/
def labelFile (file : String) : String := file ++ ".sym"

/-- Reads an object file, and goes on with its image.  A file that cannot be read, or is no image,
ends the command. -/
def withImage (file : String) (next : Image → m UInt32) : m UInt32 := do
  match ← Host.readFile file with
  | .error e => failWith s!"Failed to read '{file}': {e.message}"
  | .ok bs =>
    match Image.parse bs with
    | .error e => failWith ("Load error: " ++ e.message)
    | .ok image => next image

/-- Writes the demonstration program and its label map.  The object file is made even if the program
cannot be finished, and then it is empty. -/
def demo (file : String) : m UInt32 := do
  match Demo.assembler with
  | .error misuse => abortWith misuse.message
  | .ok (.error e) => failWith ("Compile error: " ++ e.message)
  | .ok (.ok assembler) =>
    match Assembler.finish assembler with
    | .error misuse _ => abortWith misuse.message
    | .ok result assembler =>
      let bytes := match result with
        | .ok image => image.bytes
        | .error _ => []
      match ← Host.writeFile file bytes with
      | .error e => failWith s!"Failed to create '{file}': {e.message}"
      | .ok () =>
        match result with
        | .error e => failWith e.message
        | .ok _ =>
          let labels := labelFile file
          match ← Host.writeFile labels assembler.labelMap.bytes with
          | .error e => failWith s!"Failed to write '{labels}': {e.message}"
          | .ok () =>
            printText s!"wrote {file} and {labels}\n"
            return 0

/-- The label map beside an object file; a map that cannot be read is passed over with a
warning. -/
def readLabels (file : String) : m (Option LabelMap) := do
  let labels := labelFile file
  let ignore (e : ImageError) : m (Option LabelMap) := do
    Host.complain s!"Warning: ignoring '{labels}': {e.message}"
    return none
  match ← Host.readFile labels with
  | .error e => if e.isMissing then return none else ignore (.host e.message)
  | .ok bs =>
    match LabelMap.parse bs with
    | .error e => ignore e
    | .ok map => return some map

/-- Lists an object file.  The statistics follow after the listing, if they are asked for. -/
def list (file : String) (statistics : Bool) : m UInt32 :=
  withImage file fun image => do
    let labels? ← readLabels file
    match Listing.ofImage image labels? with
    | .error (.badCode e) => failWith e.message
    | .error .brokenWord => abortWith "the static segment ends inside a word"
    | .ok text =>
      printText text
      if statistics then
        match Code.decode image.code with
        | .ok code => printText (Listing.statistics code)
        | .error _ => pure ()
      return 0

/-- Whether an image may read input: only the opcodes of `read` and `bread` do. -/
def mayRead (image : Image) : Bool :=
  image.code.any fun b => b == Opcode.read.byte || b == Opcode.bread.byte

/-- Runs an object file.  What the program has printed is written also if a fault ends the run. -/
def run (file : String) (maxSteps : Option Nat) : m UInt32 :=
  withImage file fun image => do
    let input ← if mayRead image then Host.readInput else pure []
    let outcome := Machine.run { Limits.standard with maxSteps := maxSteps } image input
    match outcome.ending, outcome.failure? with
    | .returned, _ =>
      Host.print outcome.state.output.toList
      return 0
    | _, some failure =>
      Host.print outcome.state.output.toList
      failWith failure.message
    | _, none => abortWith "the run was aborted"

/-- Runs the command that the arguments ask for and gives the exit code.  Arguments that ask for
nothing are no error. -/
def main (args : List String) : m UInt32 :=
  match Command.parse args with
  | .usage => do
    printText usageText
    return 0
  | .badSteps text => failWith s!"Error: --max-steps expects a number, got '{text}'"
  | .demo file => demo file
  | .list file statistics => list file statistics
  | .run file maxSteps => run file maxSteps

end CommandLine
end MJ
