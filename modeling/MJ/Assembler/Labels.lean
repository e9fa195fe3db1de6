import MJ.Assembler.Draft

/-!
# Labels

A label names a code address.  It may be used before it is defined: the two bytes of code that
wait for its address are then a reference.

## Main definitions

* `Labels` — the defined labels and the open references.
* `Labels.address?`, `Labels.define`, `Labels.refer`
* `Labels.sorted` — the labels by address.
* `Labels.resolve` — fills all references in.

## References

The MJ specification, §3 *Data Model*, under *Label*, and §4.2 *Code Buffer & Backpatch Resolver*,
`defineLabel`, `reference` and `resolveAll`.  That a label is defined once is settled in §E8
*Decisions on ambiguities*.
-/

namespace MJ

/-- The labels of code under construction.  A reference is kept until the program is finished, even
if its label is defined meanwhile. -/
structure Labels where
  /-- The defined labels with their addresses, the latest first. -/
  defined : List (String × Nat)
  /-- The labels used before their definition with the code address that waits, the latest
  first. -/
  references : List (String × Nat)
  deriving DecidableEq, Repr

namespace Labels

/-- No labels. -/
def empty : Labels := ⟨[], []⟩

/-- The address of a label.  A label has at most one, since it is defined once. -/
def address? (t : Labels) (label : String) : Option Nat := t.defined.lookup label

/-- Defines a label.  A label that has an address keeps it, and to define it again is a misuse. -/
def define (t : Labels) (label : String) (address : Nat) : Except Misuse Labels :=
  match t.address? label with
  | some previous => .error (.labelTaken label previous)
  | none => .ok { t with defined := (label, address) :: t.defined }

/-- Notes that the two bytes at `address` wait for the address of a label.  The bytes are filled in
by `resolve`, and not when the label is defined. -/
def refer (t : Labels) (label : String) (address : Nat) : Labels :=
  { t with references := (label, address) :: t.references }

/-- Whether a label comes before another: by address, then by name.  Several labels may have one
address, and so the names are needed to make the order total. -/
def le (a b : String × Nat) : Bool := a.2 < b.2 || (a.2 == b.2 && a.1 ≤ b.1)

/-- The defined labels by address, then by name.  The order in which they were defined plays no
part. -/
def sorted (t : Labels) : List (String × Nat) := t.defined.mergeSort le

/-- The least of some names.  The error for an undefined label is the least name, so that it does
not depend on the order of the references. -/
def least? : List String → Option String
  | [] => none
  | name :: names =>
    match least? names with
    | none => some name
    | some other => if other < name then some other else some name

/-- The least label that is used and not defined.  A label that is defined after it is used is not
among them. -/
def undefined? (t : Labels) : Option String :=
  least? ((t.references.map (·.1)).filter fun label => (t.address? label).isNone)

/-- Fills references in with the addresses of their labels.  Only the low sixteen bits of an address
are written. -/
def fillAll (t : Labels) (code : Draft) : List (String × Nat) → Except Misuse Draft
  | [] => .ok code
  | (label, slot) :: references => do
    let address := (t.address? label).getD 0
    let code ← code.fill slot (Int32.ofNat address) .s16
    fillAll t code references

/-- Fills all references in, the earliest first; none are left.  If a label is used and not
defined, the least such label is the error.  Either way gives the labels and the code as they are
then. -/
def resolve (t : Labels) (code : Draft) : Except Misuse (Except ImageError Unit × Labels × Draft) :=
  match t.undefined? with
  | some label => .ok (.error (.undefinedLabel label), t, code)
  | none => do
    let code ← t.fillAll code t.references.reverse
    .ok (.ok (), { t with references := [] }, code)

end Labels
end MJ
