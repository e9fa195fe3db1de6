import MJ.Code
import MJ.Image
import MJ.LabelMap
import MJ.Text.Quoted
import Std.Data.HashSet

/-!
# Listings

An object image as text: one line for each instruction, with the targets of jumps marked and
named, then the static segment as bytes.

## Main definitions

* `Listing.ofImage` — the listing of an image.
* `Listing.statistics` — the lines that tell how often each instruction occurs.

## References

The MJ specification, §E6 *Supplemented features*, under *Disassembler*, and §E4 *Configuration*
for `--stats`.
-/

namespace MJ

/-- Why an image has no listing.  The second cannot happen to an image that was read from a file. -/
inductive ListingError where
  /-- The code cannot be decoded. -/
  | badCode (cause : ImageError)
  /-- The static segment ends inside a word. -/
  | brokenWord
  deriving DecidableEq, Repr

namespace Listing

/-- The bytes of the string at a static word, without the zero byte that ends it; `none` if the
word lies outside the segment or no zero byte follows. -/
def staticString? (data : List UInt8) (word : Nat) : Option (List UInt8) :=
  let start := word * wordSize
  if data.length < start then none
  else
    let rest := data.drop start
    if 0 ∈ rest then some (rest.takeWhile (· ≠ 0)) else none

/-- The note after an instruction: where it may go, or what it prints.  Of several names for a
target the first one is shown. -/
def note (data : List UInt8) (labels? : Option LabelMap) (i : Instruction) : String :=
  match i.target? with
  | some target =>
    let names := match labels? with
      | some labels => labels.namesAt target
      | none => []
    match names with
    | name :: _ => "  ; → " ++ Text.address target ++ " " ++ name
    | [] => "  ; → " ++ Text.address target
  | none =>
    match i with
    | .printString n =>
      match staticString? data (Instruction.address n) with
      | some bs => "  ; " ++ Text.quoted (Utf8.decodeLossy bs)
      | none => ""
    | _ => ""

/-- An instruction with its operands.  The mnemonic is padded only if operands follow it. -/
def instruction (i : Instruction) : String :=
  match i.operands with
  | [] => i.opcode.mnemonic
  | operands => Text.padRight 12 i.opcode.mnemonic ++ " ".intercalate (operands.map toString)

/-- The lines of one located instruction.  The names of the address come first, then a bar if
something jumps there, and then the instruction. -/
def lines (image : Image) (labels? : Option LabelMap) (targets : Std.HashSet Nat) (l : Located) :
    String :=
  let names := match labels? with
    | some labels => labels.namesAt l.address
    | none => []
  let isTarget := targets.contains l.address
  let bar := if isTarget then "      ┌──────────────────────────────────\n" else ""
  let mark :=
    if l.address = image.header.startPc.toNat then "» " else if isTarget then "► " else "  "
  String.join (names.map (· ++ ":\n")) ++ bar ++ Text.address l.address ++ " " ++ mark ++
    instruction l.instruction ++ note image.data labels? l.instruction ++ "\n"

/-- The first line of a listing.  The numbers are those of the header, whatever the segments are. -/
def heading (h : Header) : String :=
  s!"; code {h.codeSize} bytes, static data {h.dataWords} words, start pc " ++
    Text.address h.startPc.toNat ++ "\n"

/-- The line of a static word.  The bytes are in hexadecimal, and their address counts words. -/
def dataLine (word : Nat) (bytes : List UInt8) : String :=
  "  [" ++ Text.address word ++ "] " ++ " ".intercalate (bytes.map Text.hexByte) ++ "\n"

/-- The lines of the static segment from word `word` on; `none` if it ends inside a word. -/
def dataLines (word : Nat) : List UInt8 → Option (List String)
  | [] => some []
  | a :: b :: c :: d :: rest => do
    let following ← dataLines (word + 1) rest
    some (dataLine word [a, b, c, d] :: following)
  | _ => none

/-- The part of a listing that shows the static segment.  Without static data there is no such part.
-/
def dataSection (data : List UInt8) : Option String :=
  if data.isEmpty then some ""
  else (dataLines 0 data).map fun lines => "; static data\n" ++ String.join lines

/-- The listing of an image.  Targets are collected before, because jumps may go back. -/
def ofImage (image : Image) (labels? : Option LabelMap) : Except ListingError String :=
  match Code.decode image.code with
  | .error cause => .error (.badCode cause)
  | .ok code =>
    let targets := Std.HashSet.ofList (code.filterMap (·.instruction.target?))
    match dataSection image.data with
    | none => .error .brokenWord
    | some statics =>
      .ok (heading image.header ++ String.join (code.map (lines image labels? targets)) ++ statics)

/-- The lines that tell how often each instruction occurs.  These are the counts of all mnemonics
that occur. -/
def statistics (code : List Located) : String :=
  s!"\n; {code.length} instructions\n" ++
    String.join ((Code.histogram code).map fun (name, n) =>
      ";   " ++ Text.padRight 12 name ++ s!"{n}\n")

end Listing
end MJ
