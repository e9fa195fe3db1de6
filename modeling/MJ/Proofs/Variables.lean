import MJ.Proofs.Operators

/-!
# Variables and their words

The compiler gives a variable a place, which is the number of a word in the static segment or in the
frame of the open procedure.  Code that names the variable is right as long as the machine has this
word.

## Main definitions

* `Decl.HasOffset`, `Decl.Located` — a variable has been given a place, which is the number of a
  word.
* `Decl.Declared`, `Decl.Placed` — the same of a variable for numbers or truth values.
* `Decl.IsAddressable` — an instruction can name the place.
* `Assembler.Allocates`, `Machine.State.Hosts` — words are set aside for variables, and the machine
  has them.

## Main results

* `Decl.HasOffset.valueOf_eq` — the operand of a variable with a place.
* `Machine.State.Hosts.isSome_read?` — a variable with a word of its own can be read.

## References

The MJ specification, §3 *Data Model*, under *Attrib*, and §4.5 *Code Generator*, under
`allocVariable`.
-/

namespace MJ

/-! ### Places -/

namespace Decl

/-- The place of a variable. -/
def offset (d : Decl) : Word := d.offset?.getD 0

/-- The place of a variable as a number. -/
def slot (d : Decl) : Nat := d.offset.toInt.toNat

/-- Where a variable is kept: in the static segment if it is global, and else in the frame. -/
def region (d : Decl) : Region := if d.isGlobal then .static else .stack

/-- A variable that has been given a place.  The place need not be the number of a word: it is
whatever the caller of the compiler has put into the declaration. -/
structure HasOffset (d : Decl) : Prop where
  isVariable : d.isVariable = true
  offset_eq : d.offset? = some d.offset

/-- A variable whose place is the number of a word. -/
structure Located (d : Decl) : Prop extends d.HasOffset where
  nonneg : 0 ≤ d.offset.toInt

/-- A variable of a scalar type that has been given a place. -/
structure Declared (d : Decl) (t : Scalar) : Prop extends d.HasOffset where
  type_eq : d.type = t.ty

/-- A variable of a scalar type whose place is the number of a word. -/
structure Placed (d : Decl) (t : Scalar) : Prop extends d.Declared t where
  nonneg : 0 ≤ d.offset.toInt

/-- Whether an instruction can name the place of a variable.  Operands are narrower than words, and
there may be more variables than they can tell apart. -/
def IsAddressable (d : Decl) : Prop := d.region.offsetWidth.holds d.offset = true

/-- The operand of a variable with a place. -/
def operand (d : Decl) : Operand :=
  ⟨.memory, d.type, d.isGlobal, d.kind == .constant, d.isReadonly, d.offset⟩

theorem ofNat_slot {d : Decl} (h : 0 ≤ d.offset.toInt) : Int32.ofNat d.slot = d.offset := by
  rw [← Int32.ofInt_eq_ofNat, slot, Int.toNat_of_nonneg h, Int32.ofInt_toInt]

theorem slot_lt (d : Decl) : d.slot < 2147483648 := by
  have hlt : d.offset.toInt < 2147483648 := d.offset.toInt_lt
  rw [slot]
  omega

/-- The operand of a variable is made without any code, since the word is loaded when its value is
used. -/
theorem HasOffset.valueOf_eq {d : Decl} (h : d.HasOffset) (c : Compiler) :
    (Demo.valueOf d).run c = .ok (.ok d.operand) c := by
  rw [Demo.valueOf, Operand.ofDecl, if_pos h.isVariable, h.offset_eq]
  rfl

theorem pushFrom_operand (d : Decl) :
    Compiler.pushFrom d.operand = Assembler.loadWord d.region d.offset := rfl

end Decl

/-! ### Words -/

/-- A program under construction has set a word aside for a variable.  The word of a local one
belongs to the procedure that is open. -/
def Assembler.Allocates (a : Assembler) (d : Decl) : Prop :=
  if d.isGlobal then d.slot < a.statics.words
  else ∃ p, a.procedure? = some p ∧ d.slot < p.size

namespace Machine.State

/-- The word of a variable. -/
def read? (s : State) (d : Decl) : Option Word := s.word? d.region d.slot

/-- The machine has all words that a program under construction has set aside: those of the static
segment, and those of the open procedure in its innermost frame. -/
structure Hosts (s : State) (a : Assembler) : Prop where
  statics : a.statics.bytes.size ≤ s.statics.size
  frame : ∀ p, a.procedure? = some p →
    ∃ frame, s.frames.back? = some frame ∧ p.size ≤ frame.size

variable {s : State}

/-- Variables are in the innermost frame and in the static segment, so that changes to anything else
do not touch them. -/
theorem read?_congr {s' : State} (hframes : s'.frames = s.frames)
    (hstatics : s'.statics = s.statics) (d : Decl) : s'.read? d = s.read? d := by
  rw [read?, read?, Decl.region]
  cases d.isGlobal with
  | true => rw [if_pos rfl, word?, word?, hstatics]
  | false => rw [if_neg Bool.false_ne_true, word?, word?, hframes]

@[simp] theorem read?_moved (s : State) (pc : Nat) (stack : Array Word) (d : Decl) :
    (s.moved pc stack).read? d = s.read? d :=
  read?_congr rfl rfl d

/-- A variable with a word of its own can be read.  What it contains is not said: the machine may be
at any point of a run. -/
theorem Hosts.isSome_read? {a : Assembler} {d : Decl} (h : s.Hosts a) (hd : a.Allocates d) :
    (s.read? d).isSome = true := by
  rw [Assembler.Allocates] at hd
  rw [read?, Decl.region]
  cases hglobal : d.isGlobal with
  | true =>
    rw [hglobal, if_pos rfl, Statics.words] at hd
    have hle := h.statics
    have hfits : d.slot * wordSize + wordSize ≤ s.statics.size := by
      rw [wordSize] at hd ⊢
      omega
    rw [if_pos rfl, word?, staticWord?, if_pos hfits]
    rfl
  | false =>
    rw [hglobal] at hd
    obtain ⟨p, hp, hslot⟩ := hd
    obtain ⟨frame, hframe, hsize⟩ := h.frame p hp
    have hlt : d.slot < frame.size := Nat.lt_of_lt_of_le hslot hsize
    rw [if_neg Bool.false_ne_true, word?, hframe, Option.bind_some,
      Array.getElem?_eq_getElem hlt]
    rfl

end Machine.State

/-- A main procedure with one local variable, in a program with one word of static data. -/
def Compiler.sampleMain : Compiler where
  assembler := {
    code := ⟨#[.known 48, .known 0, .hole]⟩
    statics := ⟨#[0, 0, 0, 0]⟩
    labels := ⟨[("$main", 0)], []⟩
    procedure? := some ⟨"$main", 0, 2, 1⟩
    main? := some "$main" }
  labelCount := 0
  constants := []
  mainEntered := true
  exitLabel? := some "$main_end"
  pendingLengths := []
  newline? := none

end MJ
