import Mathlib.Logic.Relation
import MJ.Proofs.Emission

/-!
# Sessions with the assembler

A program is written by a sequence of commands.  What a command does to the program if it succeeds
is said once, in `Command.Changes`.  A change is made of a few effects, and what holds of every
program that can be written is proved for one effect at a time; what depends on the command as well
is read off its change.

## Main definitions

* `Assembler.Command`, `Assembler.Command.run` — everything a caller can ask of the assembler.
* `Assembler.session` — a sequence of commands.
* `Assembler.Effect` — the ways in which a program changes.
* `Assembler.Command.Changes` — what a command does to a program.
* `Asm.Regular` — an action whose changes are effects.

## Main results

* `Assembler.Command.changes` — a command that succeeds makes its change, and no other.
* `Assembler.Command.regular` — every command is a sequence of effects.
* `Assembler.effects_session` — so is every session.
* `Assembler.finish_cases` — finishing a program fills all labels in or leaves it as it is.
-/

namespace MJ

/-! ### Commands -/

/-- What a caller can ask of the assembler.  Commands are data, so that a statement about all
programs that can be written is a statement about all lists of commands. -/
inductive Assembler.Command where
  | define (label : String)
  | allocStatic (words : Nat)
  | allocString (text : String)
  | allocLocal (words : Nat)
  | newObject (words : Nat)
  | newArray
  | pushConst (v : Word)
  | loadWord (r : Region) (offset : Word)
  | storeWord (r : Region) (offset : Word)
  | loadElement
  | storeElement
  | arrayLength
  | printInteger
  | printByte
  | printString (address : Nat)
  | readInteger
  | readByte
  | neg
  | add
  | sub
  | mul
  | div
  | rem
  | conjunction
  | disjunction
  | negation
  | compare (test : Comparison)
  | branchIf (value : Bool) (label : String)
  | jump (label : String)
  | call (label : String)
  | enter (label : String) (params : Nat) (isMain : Bool)
  | exit (label : String)
  | finish
  deriving DecidableEq, Repr

namespace Assembler.Command

/-- Carries a command out; its answer, if any, does not matter to the program. -/
def run : Command → Asm Unit
  | define label => Assembler.define label
  | allocStatic words => do let _ ← Assembler.allocStatic words
  | allocString text => do let _ ← Assembler.allocString text
  | allocLocal words => do let _ ← Assembler.allocLocal words
  | newObject words => Assembler.newObject words
  | newArray => Assembler.newArray
  | pushConst v => Assembler.pushConst v
  | loadWord r offset => Assembler.loadWord r offset
  | storeWord r offset => Assembler.storeWord r offset
  | loadElement => Assembler.emit .aload
  | storeElement => Assembler.emit .astore
  | arrayLength => Assembler.emit .arraylength
  | printInteger => Assembler.printInteger
  | printByte => Assembler.printByte
  | printString address => Assembler.printString address
  | readInteger => Assembler.emit .read
  | readByte => Assembler.emit .bread
  | neg => Assembler.emit .neg
  | add => Assembler.emit .add
  | sub => Assembler.emit .sub
  | mul => Assembler.emit .mul
  | div => Assembler.emit .div
  | rem => Assembler.emit .rem
  | conjunction => Assembler.conjunction
  | disjunction => Assembler.disjunction
  | negation => Assembler.negation
  | compare test => Assembler.compare test
  | branchIf value label => Assembler.branchIf value label
  | jump label => Assembler.jump label
  | call label => Assembler.call label
  | enter label params isMain => Assembler.enter label params isMain
  | exit label => Assembler.exit label
  | finish => do let _ ← Assembler.finish

/-- The label whose address a command emits. -/
def target? : Command → Option String
  | branchIf _ label | jump label | call label => some label
  | _ => none

/-- What a command adds to the static data. -/
def staticBytes : Command → List UInt8
  | allocStatic words => List.replicate (words * wordSize) 0
  | allocString text => Statics.stringBytes text
  | _ => []

/-- The offset of the static word that a command stores into, if it does.  The offset is the one
that the caller gives, before it is cut down to sixteen bits. -/
def staticStores : Command → List Word
  | storeWord .static offset => [offset]
  | _ => []

/-- The label that a command defines, if it does.  The two ends of a procedure are labels as well.
-/
def labels : Command → List String
  | define label | enter label _ _ | exit label => [label]
  | _ => []

end Assembler.Command

namespace Assembler

/-- Carries out one command after the other.  The first misuse ends the session, and then there is
no program. -/
def session : List Command → Asm Unit
  | [] => pure ()
  | command :: commands => do
    command.run
    session commands

/-! ### Effects -/

/-- Whether instructions may follow the code: each address in them is that of a label or of one of
the instructions themselves.  So control never goes into the middle of an instruction. -/
structure Accepts (a : Assembler) (is : List Instruction) : Prop where
  /-- The end marker is no instruction. -/
  noLast : .last ∉ is
  /-- Where the instructions transfer control to. -/
  target : ∀ i ∈ is, ∀ n, i.target? = some n → ∃ m, n = m % 65536 ∧
    ((∃ label, a.labels.address? label = some m) ∨
      ∃ js ks, is = js ++ ks ∧ m = a.code.size + (Code.ofInstructions js).length)

/-- The program with a label more, which is the address of the next byte. -/
def withLabel (a : Assembler) (label : String) : Assembler :=
  { a with labels := { a.labels with defined := (label, a.code.size) :: a.labels.defined } }

/-- The program in which a procedure has begun and waits for the size of its frame. -/
def opened (a : Assembler) (label : String) (params : Nat) (isMain : Bool) : Assembler :=
  { a with
    code := (a.code.append [Opcode.enter.byte, UInt8.ofNat params]).emitHoles 1
    procedure? := some (.ofParams label params (a.code.size + 2))
    main? := if isMain then some label else a.main? }

/-- The program with other code, in which no label is waited for any more. -/
def resolved (a : Assembler) (code : Draft) : Assembler :=
  { a with code := code, labels := { a.labels with references := [] } }

/-- One change of a program, with what is known when it is made.  An invariant of programs is proved
by going through these eight cases, however many commands there are. -/
inductive Effect : Assembler → Assembler → Prop
  /-- Whole words of static data. -/
  | data (a : Assembler) (bs : List UInt8) (hwords : bs.length % wordSize = 0) :
    Effect a { a with statics := ⟨a.statics.bytes ++ bs⟩ }
  /-- Words of the open frame. -/
  | frame (a : Assembler) (p : Procedure) (words : Nat) (hopen : a.procedure? = some p) :
    Effect a { a with procedure? := some { p with size := p.size + words } }
  /-- A new label. -/
  | label (a : Assembler) (label : String) (hnew : a.labels.address? label = none) :
    Effect a (a.withLabel label)
  /-- Whole instructions. -/
  | code (a : Assembler) (is : List Instruction) (haccepts : a.Accepts is) : Effect a (a.append is)
  /-- An instruction that waits for a label. -/
  | await (a : Assembler) (t : Transfer) (label : String) (hnew : a.labels.address? label = none) :
    Effect a (a.await t label)
  /-- The start of a procedure, at its label. -/
  | opening (a : Assembler) (label : String) (params : Nat) (isMain : Bool)
    (hclosed : a.procedure? = none) (hmain : isMain = true → a.main? = none)
    (hlabel : a.labels.address? label = some a.code.size) :
    Effect a (a.opened label params isMain)
  /-- The size of the open frame. -/
  | closing (a : Assembler) (p : Procedure) (code : Draft) (hopen : a.procedure? = some p)
    (hsize : p.size ≤ 255)
    (hfill : a.code.fillBytes p.sizeSlot [UInt8.ofNat p.size] = .ok code) :
    Effect a { a with code := code, procedure? := none }
  /-- The addresses of all labels. -/
  | resolving (a : Assembler) (code : Draft) (hdefined : a.labels.undefined? = none)
    (hfill : a.labels.fillAll a.code a.labels.references.reverse = .ok code) :
    Effect a (a.resolved code)

/-- A sequence of changes. -/
abbrev Effects : Assembler → Assembler → Prop := Relation.ReflTransGen Effect

/-! ### Changes -/

/-- Each instruction that stores into a static word has one of the given offsets.  This is kept
beside the instructions, because nothing else depends on what they are. -/
def StoresAt (offsets : List Word) (is : List Instruction) : Prop :=
  ∀ n, .putStatic n ∈ is → ∃ offset ∈ offsets, Width.s16.holds offset = true ∧
    Region.static.storeInstruction offset = .putStatic n

/-- What a command does to the program `a` if it succeeds.  Most commands append instructions and do
nothing else, so these are not told apart. -/
inductive Command.Changes (a : Assembler) : Command → Assembler → Prop
  /-- Whole instructions are appended. -/
  | code {command : Command} (is : List Instruction) (hbytes : command.staticBytes = [])
    (haccepts : a.Accepts is) (hstores : StoresAt command.staticStores is) :
    Changes a command (a.append is)
  /-- Whole instructions are appended, and one that waits for a label. -/
  | await {command : Command} (is : List Instruction) (t : Transfer) (label : String)
    (hbytes : command.staticBytes = []) (htarget : command.target? = some label)
    (haccepts : a.Accepts is) (hstores : StoresAt command.staticStores is)
    (hnew : a.labels.address? label = none) : Changes a command ((a.append is).await t label)
  /-- Whole words are added to the static data. -/
  | data {command : Command} (hwords : command.staticBytes.length % wordSize = 0) :
    Changes a command { a with statics := ⟨a.statics.bytes ++ command.staticBytes⟩ }
  /-- The open frame grows. -/
  | frame (p : Procedure) (words : Nat) (hopen : a.procedure? = some p) :
    Changes a (.allocLocal words) { a with procedure? := some { p with size := p.size + words } }
  /-- A label is defined. -/
  | label (label : String) (hnew : a.labels.address? label = none) :
    Changes a (.define label) (a.withLabel label)
  /-- A procedure begins at its label. -/
  | opening (label : String) (params : Nat) (isMain : Bool) (hclosed : a.procedure? = none)
    (hmain : isMain = true → a.main? = none) (hnew : a.labels.address? label = none) :
    Changes a (.enter label params isMain) ((a.withLabel label).opened label params isMain)
  /-- The open procedure ends: the size of its frame is filled in, and its last two instructions
  follow the label. -/
  | closing (label : String) (p : Procedure) (code : Draft) (hopen : a.procedure? = some p)
    (hsize : p.size ≤ 255)
    (hfill : a.code.fillBytes p.sizeSlot [UInt8.ofNat p.size] = .ok code)
    (hnew : a.labels.address? label = none) :
    Changes a (.exit label)
      ((withLabel { a with code := code, procedure? := none } label).append [.exit, .ret])
  /-- The program cannot be finished yet. -/
  | unfinished : Changes a .finish a
  /-- All labels are filled in. -/
  | resolving (code : Draft) (hdefined : a.labels.undefined? = none)
    (hfill : a.labels.fillAll a.code a.labels.references.reverse = .ok code) :
    Changes a .finish (a.resolved code)

end Assembler

/-! ### Regular actions -/

/-- An action whose changes of the program are effects.  Actions that are built from regular ones
are regular, so that the invariants hold of the compiler as well. -/
def Asm.Regular {α : Type} (x : Asm α) : Prop :=
  ∀ ⦃a b : Assembler⦄ ⦃v : α⦄, x a = .ok v b → Assembler.Effects a b

namespace Asm.Regular

open Assembler

theorem pure {α : Type} (v : α) : Regular (Pure.pure v : Asm α) := by
  intro a b w h
  obtain ⟨-, rfl⟩ := EStateM.Result.ok.inj h
  exact .refl

/-- A sequence of regular actions is regular. -/
theorem bind {α β : Type} {x : Asm α} {f : α → Asm β} (hx : x.Regular)
    (hf : ∀ v, (f v).Regular) : (x >>= f).Regular := by
  intro a c w h
  obtain ⟨v, b, hxa, hfb⟩ := Action.bind_eq_ok.mp h
  exact (hx hxa).trans (hf v hfb)

end Asm.Regular

namespace Assembler

/-! ### Which instructions may follow -/

/-- Instructions without addresses may follow any code. -/
theorem accepts_of_plain (a : Assembler) {is : List Instruction}
    (h : ∀ i ∈ is, i ≠ .last ∧ i.target? = none) : a.Accepts is := by
  refine ⟨fun hlast => (h _ hlast).1 rfl, ?_⟩
  intro i hi n htarget
  rw [(h i hi).2] at htarget
  cases htarget

/-- Instructions that may follow each other may follow together.  Targets in the second part are
counted from the end of the first, and the split of the whole moves with them. -/
theorem Accepts.append {a : Assembler} {is js : List Instruction} (h : a.Accepts is)
    (h' : (a.append is).Accepts js) : a.Accepts (is ++ js) where
  noLast hlast := (List.mem_append.mp hlast).elim h.noLast h'.noLast
  target i hi n htarget := by
    rcases List.mem_append.mp hi with hi | hi
    · obtain ⟨m, hm, hlabel | ⟨before, after, rfl, hsize⟩⟩ := h.target i hi n htarget
      · exact ⟨m, hm, Or.inl hlabel⟩
      · exact ⟨m, hm, Or.inr ⟨before, after ++ js, List.append_assoc _ _ _, hsize⟩⟩
    · obtain ⟨m, hm, hlabel | ⟨before, after, rfl, hsize⟩⟩ := h'.target i hi n htarget
      · exact ⟨m, hm, Or.inl hlabel⟩
      · refine ⟨m, hm, Or.inr ⟨is ++ before, after, (List.append_assoc _ _ _).symm, ?_⟩⟩
        rw [hsize, size_append, Code.ofInstructions_append, List.length_append, Nat.add_assoc]

/-- An instruction with the address of a label may follow. -/
theorem accepts_transfer {a : Assembler} {label : String} {n : Nat} (t : Transfer)
    (hlabel : a.labels.address? label = some n) : a.Accepts [t.instruction n] := by
  refine ⟨?_, ?_⟩
  · cases t <;> simp [Transfer.instruction]
  · intro i hi m htarget
    rw [List.mem_singleton.mp hi, Transfer.target?_instruction] at htarget
    exact ⟨n, (Option.some.inj htarget).symm, Or.inl ⟨label, hlabel⟩⟩

/-- The targets of a comparison are its last instruction and its end.  Both lie in the code itself,
for which no label is needed. -/
theorem accepts_compareCode (a : Assembler) (test : Comparison) :
    a.Accepts (compareCode test a.code.size) := by
  have hlast : .last ∉ compareCode test a.code.size := by
    simp [compareCode, (Instruction.ofConst_plain 0).1.symm,
      (Instruction.ofConst_plain 1).1.symm]
  refine ⟨hlast, ?_⟩
  intro i hi n htarget
  simp only [compareCode, List.mem_cons, List.not_mem_nil, or_false] at hi
  rcases hi with rfl | rfl | rfl | rfl
  · -- the branch goes to the last of the four instructions
    refine ⟨a.code.size + 7, ?_, Or.inr ⟨(compareCode test a.code.size).take 3, _,
      (List.take_append_drop 3 _).symm, ?_⟩⟩
    · exact (Option.some.inj htarget).symm.trans (Instruction.address_ofNat _)
    · cases test <;> rfl
  · rw [(Instruction.ofConst_plain 0).2] at htarget
    cases htarget
  · -- the jump goes past it
    refine ⟨a.code.size + 8, ?_, Or.inr ⟨compareCode test a.code.size, [],
      (List.append_nil _).symm, ?_⟩⟩
    · exact (Option.some.inj htarget).symm.trans (Instruction.address_ofNat _)
    · cases test <;> rfl
  · rw [(Instruction.ofConst_plain 1).2] at htarget
    cases htarget

/-- An instruction without operands may follow any code. -/
theorem accepts_of_operands (a : Assembler) {op : Opcode} (hop : op.operands = [])
    (hlast : op ≠ .last) : a.Accepts [.ofOperands op fun _ => 0] := by
  have hplain : Instruction.ofOperands op (fun _ => 0) ≠ .last ∧
      (Instruction.ofOperands op fun _ => 0).target? = none := by
    cases op <;> simp_all [Opcode.operands, Instruction.ofOperands, Instruction.target?]
  exact accepts_of_plain a (by simpa using hplain)

/-- An instruction with an operand that is no address may follow any code. -/
theorem accepts_of_operand (a : Assembler) {op : Opcode} {w : Width} (hop : op.operands = [w])
    (hplain : ∀ f, (Instruction.ofOperands op f).target? = none) (f : Nat → UInt8) :
    a.Accepts [.ofOperands op f] := by
  refine accepts_of_plain a fun i hi => ?_
  rw [List.mem_singleton.mp hi]
  refine ⟨?_, hplain _⟩
  cases op <;> simp_all [Opcode.operands, Instruction.ofOperands]

/-! ### Which instructions store into static words -/

theorem storesAt_of_ne {offsets : List Word} {is : List Instruction}
    (h : ∀ i ∈ is, ∀ n, i ≠ .putStatic n) : StoresAt offsets is :=
  fun n hn => absurd rfl (h _ hn n)

theorem StoresAt.append {offsets : List Word} {is js : List Instruction} (h : StoresAt offsets is)
    (h' : StoresAt offsets js) : StoresAt offsets (is ++ js) :=
  fun n hn => (List.mem_append.mp hn).elim (h n) (h' n)

theorem storesAt_of_opcode {offsets : List Word} {op : Opcode} (h : op ≠ .putstatic)
    (f : Nat → UInt8) : StoresAt offsets [.ofOperands op f] := by
  refine storesAt_of_ne fun i hi n heq => h ?_
  rw [List.mem_singleton.mp hi] at heq
  rw [← Instruction.opcode_ofOperands op f, heq]
  rfl

theorem ofConst_ne_putStatic (v : Word) (n : Int16) : Instruction.ofConst v ≠ .putStatic n := by
  rcases Instruction.ofConst_cases v with ⟨k, -, h⟩ | ⟨-, h⟩ | ⟨-, h⟩ <;>
    exact h ▸ Instruction.noConfusion

end Assembler

/-! ### Actions that write code -/

/-- An action that appends instructions, which store into the static words at `offsets` only.  Most
commands are sequences of such actions and need nothing else. -/
def Asm.Writes (offsets : List Word) (x : Asm Unit) : Prop :=
  ∀ ⦃a b : Assembler⦄ ⦃v : Unit⦄, x a = .ok v b →
    ∃ is, a.Accepts is ∧ Assembler.StoresAt offsets is ∧ b = a.append is

namespace Asm.Writes

open Assembler

theorem regular {offsets : List Word} {x : Asm Unit} (h : x.Writes offsets) : x.Regular := by
  intro a b _ hx
  obtain ⟨is, haccepts, -, rfl⟩ := h hx
  exact .single (.code a is haccepts)

theorem bind {offsets : List Word} {x : Asm Unit} {f : Unit → Asm Unit} (hx : x.Writes offsets)
    (hf : ∀ v, (f v).Writes offsets) : (x >>= f).Writes offsets := by
  intro a c w h
  obtain ⟨v, b, hxa, hfb⟩ := Action.bind_eq_ok.mp h
  obtain ⟨is, haccepts, hstores, rfl⟩ := hx hxa
  obtain ⟨js, haccepts', hstores', rfl⟩ := hf v hfb
  exact ⟨is ++ js, haccepts.append haccepts', hstores.append hstores', append_append a is js⟩

theorem of_append {offsets : List Word} {x : Asm Unit} {is : Assembler → List Instruction}
    (h : ∀ a, x a = .ok () (a.append (is a))) (haccepts : ∀ a, Accepts a (is a))
    (hstores : ∀ a, StoresAt offsets (is a)) : x.Writes offsets := by
  intro a b _ hx
  rw [h] at hx
  obtain ⟨-, rfl⟩ := EStateM.Result.ok.inj hx
  exact ⟨is a, haccepts a, hstores a, rfl⟩

theorem emit {op : Opcode} (hop : op.operands = []) (hlast : op ≠ .last) :
    (Assembler.emit op).Writes [] := by
  refine .of_append (emit_of_operands hop) (fun a => accepts_of_operands a hop hlast) fun _ => ?_
  refine storesAt_of_opcode ?_ _
  rintro rfl
  cases hop

theorem emitWith (op : Opcode) {w : Width} (hop : op.operands = [w])
    (hplain : ∀ f, (Instruction.ofOperands op f).target? = none) (hstore : op ≠ .putstatic)
    (v : Word) : (Assembler.emitWith op w v).Writes [] := by
  intro a b _ h
  rw [emitWith_eq hop (holds_of_emitWith h)] at h
  obtain ⟨-, rfl⟩ := EStateM.Result.ok.inj h
  exact ⟨_, accepts_of_operand a hop hplain _, storesAt_of_opcode hstore _, rfl⟩

theorem pushConst (v : Word) : (Assembler.pushConst v).Writes [] := by
  refine .of_append (pushConst_eq v)
    (fun a => accepts_of_plain a (by simpa using Instruction.ofConst_plain v)) fun _ => ?_
  refine storesAt_of_ne fun i hi n => ?_
  rw [List.mem_singleton.mp hi]
  exact ofConst_ne_putStatic v n

theorem compare (test : Comparison) : (Assembler.compare test).Writes [] := by
  refine .of_append (compare_eq test) (fun a => accepts_compareCode a test) fun a => ?_
  refine storesAt_of_ne fun i hi n => ?_
  simp only [compareCode, List.mem_cons, List.not_mem_nil, or_false] at hi
  rcases hi with rfl | rfl | rfl | rfl
  · exact Instruction.noConfusion
  · exact ofConst_ne_putStatic 0 n
  · exact Instruction.noConfusion
  · exact ofConst_ne_putStatic 1 n

theorem storeWord (r : Region) (offset : Word) :
    (Assembler.storeWord r offset).Writes (Command.storeWord r offset).staticStores := by
  cases r with
  | stack => exact emitWith .store rfl (fun _ => rfl) (by decide) offset
  | heap => exact emitWith .putfield rfl (fun _ => rfl) (by decide) offset
  | static =>
    intro a b _ h
    have hholds := holds_of_emitWith h
    rw [storeWord_eq hholds] at h
    obtain ⟨-, rfl⟩ := EStateM.Result.ok.inj h
    refine ⟨_, accepts_of_operand a rfl (fun _ => rfl) _, fun n hn => ?_, rfl⟩
    exact ⟨offset, List.mem_singleton_self _, hholds, (List.mem_singleton.mp hn).symm⟩

end Asm.Writes

namespace Assembler

/-! ### What succeeds -/

/-- Zero words are added to the static data, and the answer is the offset of the first. -/
theorem allocStatic_eq_ok {words n : Nat} {a b : Assembler} (h : allocStatic words a = .ok n b) :
    n = a.statics.words ∧ b = { a with statics := a.statics.alloc words } := by
  rw [allocStatic] at h
  split at h
  · obtain ⟨rfl, rfl⟩ := EStateM.Result.ok.inj h
    exact ⟨rfl, rfl⟩
  · cases h

theorem statics_alloc (s : Statics) (words : Nat) :
    s.alloc words = ⟨s.bytes ++ List.replicate (words * wordSize) (0 : UInt8)⟩ := by
  refine congrArg Statics.mk (Array.ext' ?_)
  simp only [Array.toList_append, Array.toList_replicate, Array.toList_appendList]

theorem length_stringBytes (text : String) : (Statics.stringBytes text).length % wordSize = 0 := by
  have hlt := Nat.mod_lt (Utf8.encode text).length (show 0 < wordSize by decide)
  simp only [Statics.stringBytes, List.length_append, List.length_replicate]
  simp only [wordSize] at hlt ⊢
  omega

/-- A stored text ends in a zero byte, also if it fills whole words: then a word of zeros follows.
-/
theorem exists_stringBytes (text : String) :
    ∃ zeros, Statics.stringBytes text = Utf8.encode text ++ 0 :: zeros := by
  have hlt := Nat.mod_lt (Utf8.encode text).length (show 0 < wordSize by decide)
  refine ⟨List.replicate (wordSize - (Utf8.encode text).length % wordSize - 1) 0, ?_⟩
  rw [Statics.stringBytes, ← List.replicate_succ]
  congr 2
  omega

/-- Static data grows by whole words, so that an address that was handed out stays inside. -/
theorem statics_of_effects {a b : Assembler} (h : Effects a b) :
    a.statics.bytes.size ≤ b.statics.bytes.size ∧
      (a.statics.bytes.size % wordSize = 0 → b.statics.bytes.size % wordSize = 0) := by
  induction h with
  | refl => exact ⟨Nat.le_refl _, id⟩
  | @tail b₁ b₂ _ heffect ih =>
    cases heffect with
    | data bs hwords =>
      have hsize : (b₁.statics.bytes ++ bs).size = b₁.statics.bytes.size + bs.length := by
        rw [← Array.length_toList, Array.toList_appendList, List.length_append,
          Array.length_toList]
      rw [hsize]
      refine ⟨Nat.le_trans ih.1 (Nat.le_add_right _ _), fun haligned => ?_⟩
      rw [Nat.add_mod, ih.2 haligned, hwords]
      rfl
    | frame | label | code | await | opening | closing | resolving => exact ih

/-- Words are added to the open frame, and the answer is the slot of the first. -/
theorem allocLocal_eq_ok {words n : Nat} {a b : Assembler} (h : allocLocal words a = .ok n b) :
    ∃ p, a.procedure? = some p ∧ n = p.size ∧
      b = { a with procedure? := some { p with size := p.size + words } } := by
  rw [allocLocal] at h
  cases hopen : a.procedure? with
  | none =>
    rw [hopen] at h
    cases h
  | some p =>
    rw [hopen] at h
    simp only [Procedure.alloc, Procedure.countedSize] at h
    by_cases hsize : p.size < UInt64.size
    · rw [if_pos hsize] at h
      obtain ⟨rfl, rfl⟩ := EStateM.Result.ok.inj h
      exact ⟨p, rfl, rfl, rfl⟩
    · rw [if_neg hsize] at h
      cases h

theorem withLabel_of_define {label : String} {a b : Assembler} (h : define label a = .ok () b) :
    a.labels.address? label = none ∧ b = a.withLabel label := by
  rw [define, Labels.define] at h
  cases hlabel : a.labels.address? label with
  | some n =>
    rw [hlabel] at h
    cases h
  | none =>
    rw [hlabel] at h
    exact ⟨rfl, ((EStateM.Result.ok.inj h).2).symm⟩

/-- A label that is new can be defined. -/
theorem define_eq {label : String} {a : Assembler} (hnew : a.labels.address? label = none) :
    define label a = .ok () (a.withLabel label) := by
  simp only [define, Labels.define, hnew]
  rfl

theorem regular_emitLabel (t : Transfer) (label : String) :
    (emitLabel t.opcode label).Regular := by
  intro a b _ h
  cases hlabel : a.labels.address? label with
  | some n =>
    rw [emitLabel_of_address t hlabel h]
    exact .single (.code a _ (accepts_transfer t hlabel))
  | none =>
    rw [emitLabel_of_none t hlabel] at h
    obtain ⟨-, rfl⟩ := EStateM.Result.ok.inj h
    exact .single (.await a t label hlabel)

theorem requireClosed_eq_ok {label : String} {a b : Assembler}
    (h : requireClosed label a = .ok () b) : a.procedure? = none ∧ b = a := by
  rw [requireClosed] at h
  cases hopen : a.procedure? with
  | some p =>
    rw [hopen] at h
    cases h
  | none =>
    rw [hopen] at h
    exact ⟨rfl, (EStateM.Result.ok.inj h).2.symm⟩

theorem claimMain_eq_ok {label : String} {a b : Assembler} (h : claimMain label a = .ok () b) :
    a.main? = none ∧ b = { a with main? := some label } := by
  rw [claimMain] at h
  cases hmain : a.main? with
  | some main =>
    rw [hmain] at h
    cases h
  | none =>
    rw [hmain] at h
    exact ⟨rfl, (EStateM.Result.ok.inj h).2.symm⟩

/-- What `enter` does once it is clear that the procedure may begin. -/
theorem opened_of_begin {label : String} {params : Nat} {a b : Assembler}
    (h : (do
      define label
      emitWith .enter .s8 (Int32.ofNat params)
      let slot ← emitHoles 1
      modify fun a => { a with procedure? := some (.ofParams label params slot) } : Asm Unit) a
        = .ok () b) :
    a.labels.address? label = none ∧ b = (a.withLabel label).opened label params false := by
  obtain ⟨_, a₁, hdefine, hemit⟩ := Action.bind_eq_ok.mp h
  obtain ⟨hnew, rfl⟩ := withLabel_of_define hdefine
  obtain ⟨_, a₂, hemit, hslot⟩ := Action.bind_eq_ok.mp hemit
  rw [emitWith, if_pos (holds_of_emitWith hemit), Draft.emitOperand_emit,
    Width.encode_s8_ofNat] at hemit
  obtain ⟨-, rfl⟩ := EStateM.Result.ok.inj hemit
  obtain ⟨slot, a₃, hholes, hset⟩ := Action.bind_eq_ok.mp hslot
  obtain ⟨rfl, rfl⟩ := EStateM.Result.ok.inj hholes
  obtain ⟨-, rfl⟩ := EStateM.Result.ok.inj hset
  refine ⟨hnew, ?_⟩
  simp only [opened, Draft.size_append]
  rfl

theorem address?_withLabel (a : Assembler) (label l : String) :
    (a.withLabel label).labels.address? l
      = if l = label then some a.code.size else a.labels.address? l := by
  rw [withLabel, Labels.address?, Labels.address?, List.lookup_cons]
  by_cases hl : l = label
  · rw [if_pos hl, hl, beq_self_eq_true]
  · rw [if_neg hl, beq_eq_false_iff_ne.mpr hl]

theorem address?_withLabel_self (a : Assembler) (label : String) :
    (a.withLabel label).labels.address? label = some a.code.size := by
  rw [address?_withLabel, if_pos rfl]

/-- Labels keep their addresses: only a new label is ever added to the table. -/
theorem address?_of_effects {a b : Assembler} {label : String} {n : Nat} (h : Effects a b)
    (hlabel : a.labels.address? label = some n) : b.labels.address? label = some n := by
  induction h with
  | refl => exact hlabel
  | tail _ heffect ih =>
    cases heffect with
    | label other hnew =>
      -- a label is defined at most once
      have hne : label ≠ other := by
        rintro rfl
        cases hnew.symm.trans ih
      rw [address?_withLabel, if_neg hne, ih]
    | data | frame | code | await | opening | closing | resolving => exact ih

/-- The main procedure stays the main one, since a second one is refused. -/
theorem main?_of_effects {a b : Assembler} {main : String} (h : Effects a b)
    (hmain : a.main? = some main) : b.main? = some main := by
  induction h with
  | refl => exact hmain
  | tail _ heffect ih =>
    cases heffect with
    | opening label params isMain _ hnone =>
      cases isMain with
      | true => cases (hnone rfl).symm.trans ih
      | false => exact ih
    | data | frame | label | code | await | closing | resolving => exact ih

/-- A procedure begins at its label, unless another one is open.  The checks come before any change,
so that all of them hold of the program at the start. -/
theorem enter_eq_ok {label : String} {params : Nat} {isMain : Bool} {a b : Assembler}
    (h : enter label params isMain a = .ok () b) :
    a.procedure? = none ∧ (isMain = true → a.main? = none) ∧ a.labels.address? label = none ∧
      b = (a.withLabel label).opened label params isMain := by
  obtain ⟨_, a₁, hrequire, hrest⟩ := Action.bind_eq_ok.mp h
  obtain ⟨hclosed, rfl⟩ := requireClosed_eq_ok hrequire
  cases isMain with
  | false =>
    obtain ⟨hnew, rfl⟩ := opened_of_begin hrest
    exact ⟨hclosed, (fun h => nomatch h), hnew, rfl⟩
  | true =>
    obtain ⟨_, a₂, hclaim, hbegin⟩ := Action.bind_eq_ok.mp hrest
    obtain ⟨hmain, rfl⟩ := claimMain_eq_ok hclaim
    obtain ⟨hnew, rfl⟩ := opened_of_begin hbegin
    exact ⟨hclosed, (fun _ => hmain), hnew, rfl⟩

theorem close_eq_ok {label : String} {a b : Assembler} {p : Procedure} {size : UInt8}
    (h : close label a = .ok (p, size) b) :
    a.procedure? = some p ∧ p.size ≤ 255 ∧ size = UInt8.ofNat p.size ∧
      b = { a with procedure? := none } := by
  rw [close] at h
  cases hopen : a.procedure? with
  | none =>
    rw [hopen] at h
    cases h
  | some q =>
    rw [hopen] at h
    simp only [Procedure.sizeByte, Procedure.countedSize] at h
    by_cases hcount : q.size < UInt64.size
    · rw [if_pos hcount] at h
      by_cases hsize : q.size ≤ 255
      · simp only [bind, Except.bind, if_pos hsize] at h
        obtain ⟨hpair, rfl⟩ := EStateM.Result.ok.inj h
        obtain ⟨rfl, rfl⟩ := Prod.mk.inj hpair
        exact ⟨rfl, hsize, rfl, rfl⟩
      · simp only [bind, Except.bind, if_neg hsize] at h
        cases h
    · rw [if_neg hcount] at h
      cases h

theorem fill_eq_ok {address : Nat} {v : Word} {w : Width} {a b : Assembler}
    (h : fill address v w a = .ok () b) :
    ∃ code, a.code.fillBytes address (w.encode v) = .ok code ∧ b = a.withCode code := by
  rw [fill, Draft.fill] at h
  cases hfill : a.code.fillBytes address (w.encode v) with
  | error misuse =>
    rw [hfill] at h
    cases h
  | ok code =>
    rw [hfill] at h
    exact ⟨code, rfl, (EStateM.Result.ok.inj h).2.symm⟩

/-- The size of the frame is filled in, and the last two instructions follow their label.  All early
returns jump to this label. -/
theorem exit_eq_ok {label : String} {a b : Assembler} (h : exit label a = .ok () b) :
    ∃ p code, a.procedure? = some p ∧ p.size ≤ 255 ∧
      a.code.fillBytes p.sizeSlot [UInt8.ofNat p.size] = .ok code ∧
      a.labels.address? label = none ∧
      b = (withLabel { a with code := code, procedure? := none } label).append [.exit, .ret] := by
  rw [exit] at h
  obtain ⟨⟨p, size⟩, a₁, hclose, hrest⟩ := Action.bind_eq_ok.mp h
  obtain ⟨hopen, hsize, rfl, rfl⟩ := close_eq_ok hclose
  obtain ⟨_, a₂, hslot, hlast⟩ := Action.bind_eq_ok.mp hrest
  obtain ⟨code, hfill, rfl⟩ := fill_eq_ok hslot
  -- the size fits a byte, so that the byte stands for the size itself
  have hbyte : (UInt8.ofNat p.size).toNat = p.size := by
    rw [UInt8.toNat_ofNat']
    exact Nat.mod_eq_of_lt (Nat.lt_succ_of_le hsize)
  rw [hbyte, Width.encode_s8_ofNat] at hfill
  obtain ⟨_, a₃, hdefine, hcode⟩ := Action.bind_eq_ok.mp hlast
  obtain ⟨hnew, rfl⟩ := withLabel_of_define hdefine
  refine ⟨p, code, hopen, hsize, hfill, hnew, ?_⟩
  obtain ⟨_, a₄, hexit, hret⟩ := Action.bind_eq_ok.mp hcode
  obtain ⟨-, rfl⟩ := EStateM.Result.ok.inj ((emit_instruction .exit rfl _).symm.trans hexit)
  obtain ⟨-, rfl⟩ := EStateM.Result.ok.inj ((emit_instruction .ret rfl _).symm.trans hret)
  exact append_append _ _ _

/-- A procedure whose frame is not too large can be left, once the size of the frame can be filled
in. -/
theorem exit_eq {label : String} {a : Assembler} {p : Procedure} {code : Draft}
    (hopen : a.procedure? = some p) (hsize : p.size ≤ 255)
    (hfill : a.code.fillBytes p.sizeSlot [UInt8.ofNat p.size] = .ok code)
    (hnew : a.labels.address? label = none) :
    exit label a
      = .ok () ((withLabel { a with code := code, procedure? := none } label).append
        [.exit, .ret]) := by
  have hcount : p.size < UInt64.size := Nat.lt_of_le_of_lt hsize (by decide)
  have hclose : close label a = .ok (p, UInt8.ofNat p.size) { a with procedure? := none } := by
    simp only [close, hopen, Procedure.sizeByte, Procedure.countedSize, if_pos hcount, bind,
      Except.bind, if_pos hsize]
  have hbyte : (UInt8.ofNat p.size).toNat = p.size := by
    rw [UInt8.toNat_ofNat']
    exact Nat.mod_eq_of_lt (Nat.lt_succ_of_le hsize)
  have hslot : fill p.sizeSlot (Int32.ofNat (UInt8.ofNat p.size).toNat) .s8
      { a with procedure? := none } = .ok () { a with code := code, procedure? := none } := by
    simp only [fill, Draft.fill, hbyte, Width.encode_s8_ofNat, hfill]
  have hdefine : define label { a with code := code, procedure? := none }
      = .ok () (withLabel { a with code := code, procedure? := none } label) := define_eq hnew
  refine (Action.bind_of_ok hclose).trans ?_
  refine (Action.bind_of_ok hslot).trans ?_
  refine (Action.bind_of_ok hdefine).trans ?_
  refine (Action.bind_of_ok (emit_instruction .exit rfl _)).trans ?_
  refine (emit_instruction .ret rfl _).trans ?_
  rw [append_append]
  rfl

end Assembler

namespace Labels

/-! ### References and missing labels -/

/-- References are filled in one after the other.  A label without an address counts as the start of
the code here; finishing a program asks for such labels before. -/
theorem fillAll_cons_eq_ok {t : Labels} {d d' : Draft} {r : String × Nat}
    {references : List (String × Nat)} :
    t.fillAll d (r :: references) = .ok d' ↔
      ∃ d₁, d.fillBytes r.2 (Width.s16.encode (Int32.ofNat ((t.address? r.1).getD 0))) = .ok d₁ ∧
        t.fillAll d₁ references = .ok d' :=
  Action.except_bind_eq_ok

/-- Whether a label is used and not defined. -/
def Lacks (t : Labels) (label : String) : Prop :=
  label ∈ t.references.map (·.1) ∧ t.address? label = none

theorem least?_eq_none {names : List String} (h : least? names = none) : names = [] := by
  cases names with
  | nil => rfl
  | cons name names =>
    rw [least?] at h
    repeat' split at h
    all_goals cases h

/-- The least of some names is one of them and not above any.  The name at the front is compared
with the least of the others, which the induction gives. -/
theorem least?_eq_some {names : List String} {label : String}
    (h : least? names = some label) : label ∈ names ∧ ∀ name ∈ names, label ≤ name := by
  induction names generalizing label with
  | nil => cases h
  | cons name names ih =>
    rw [least?] at h
    cases hrest : least? names with
    | none =>
      rw [hrest] at h
      obtain rfl := Option.some.inj h
      rw [least?_eq_none hrest]
      simp
    | some other =>
      obtain ⟨hmem, hleast⟩ := ih hrest
      rw [hrest] at h
      -- the least of the others, or the name in front
      by_cases hlt : other < name
      · simp only [if_pos hlt] at h
        obtain rfl := Option.some.inj h
        refine ⟨List.mem_cons_of_mem name hmem, ?_⟩
        intro n hn
        rcases List.mem_cons.mp hn with rfl | hn
        · exact Std.le_of_lt hlt
        · exact hleast n hn
      · simp only [if_neg hlt] at h
        obtain rfl := Option.some.inj h
        refine ⟨List.mem_cons_self, ?_⟩
        intro n hn
        rcases List.mem_cons.mp hn with rfl | hn
        · exact String.le_refl n
        · exact String.le_trans (String.not_lt.mp hlt) (hleast n hn)

theorem mem_undefined {t : Labels} {label : String} :
    label ∈ (t.references.map (·.1)).filter (fun l => (t.address? l).isNone) ↔ t.Lacks label := by
  rw [List.mem_filter, Option.isNone_iff_eq_none, Lacks]

theorem not_lacks_of_undefined? {t : Labels} (h : t.undefined? = none) (label : String) :
    ¬ t.Lacks label := by
  intro hlacks
  have hmem := mem_undefined.mpr hlacks
  rw [least?_eq_none h] at hmem
  cases hmem

/-- The label that is named is the least that is used and not defined, so that the message does not
depend on the order of the references. -/
theorem undefined?_eq_some_iff {t : Labels} {label : String} :
    t.undefined? = some label ↔ t.Lacks label ∧ ∀ other, t.Lacks other → label ≤ other := by
  have hleast : ∀ l, t.undefined? = some l → t.Lacks l ∧ ∀ other, t.Lacks other → l ≤ other := by
    intro l h
    obtain ⟨hmem, hle⟩ := least?_eq_some h
    exact ⟨mem_undefined.mp hmem, fun other hother => hle other (mem_undefined.mpr hother)⟩
  refine ⟨hleast label, ?_⟩
  rintro ⟨hlabel, hle⟩
  cases h : t.undefined? with
  | none => exact absurd hlabel (not_lacks_of_undefined? h label)
  | some other =>
    -- each of the two is not above the other
    obtain ⟨hother, hle'⟩ := hleast other h
    rw [String.le_antisymm (hle other hother) (hle' label hlabel)]

end Labels

namespace Assembler

/-! ### The end of a program -/

/-- A program with a main procedure and all labels is finished by filling the labels in. -/
theorem finish_eq {a : Assembler} {main : String} {startPc : Nat} {code : Draft}
    (hclosed : a.procedure? = none) (hmain : a.main? = some main)
    (hstart : a.labels.address? main = some startPc) (hdefined : a.labels.undefined? = none)
    (hfill : a.labels.fillAll a.code a.labels.references.reverse = .ok code) :
    finish a = .ok ((a.resolved code).image startPc) (a.resolved code) := by
  rw [finish, hclosed, hmain]
  simp only [hstart, Labels.resolve, hdefined, hfill, bind, Except.bind, resolved, hclosed, hmain]

/-- Finishing a program fills all labels in or leaves it as it is.  So a caller who is told what is
missing can go on with the program. -/
theorem finish_cases {a b : Assembler} {result : Except ImageError Image}
    (h : finish a = .ok result b) :
    (b = a ∧ ∃ cause, result = .error cause) ∨
      ∃ main startPc code, a.procedure? = none ∧ a.main? = some main ∧
        a.labels.address? main = some startPc ∧ a.labels.undefined? = none ∧
        a.labels.fillAll a.code a.labels.references.reverse = .ok code ∧
        b = a.resolved code ∧ result = (a.resolved code).image startPc := by
  -- the cases are the checks of `finish`, in their order
  cases hclosed : a.procedure? with
  | some p =>
    rw [finish, hclosed] at h
    obtain ⟨rfl, rfl⟩ := EStateM.Result.ok.inj h
    exact Or.inl ⟨rfl, _, rfl⟩
  | none =>
    cases hmain : a.main? with
    | none =>
      rw [finish, hclosed, hmain] at h
      obtain ⟨rfl, rfl⟩ := EStateM.Result.ok.inj h
      exact Or.inl ⟨rfl, _, rfl⟩
    | some main =>
      cases hstart : a.labels.address? main with
      | none =>
        rw [finish, hclosed, hmain] at h
        simp only [hstart] at h
        obtain ⟨rfl, rfl⟩ := EStateM.Result.ok.inj h
        exact Or.inl ⟨rfl, _, rfl⟩
      | some startPc =>
        cases hdefined : a.labels.undefined? with
        | some label =>
          rw [finish, hclosed, hmain] at h
          simp only [hstart, Labels.resolve, hdefined] at h
          obtain ⟨rfl, hb⟩ := EStateM.Result.ok.inj h
          rw [← hclosed, ← hmain] at hb
          exact Or.inl ⟨hb.symm, _, rfl⟩
        | none =>
          cases hfill : a.labels.fillAll a.code a.labels.references.reverse with
          | error misuse =>
            rw [finish, hclosed, hmain] at h
            simp only [hstart, Labels.resolve, hdefined, hfill, bind, Except.bind] at h
            cases h
          | ok code =>
            rw [finish_eq hclosed hmain hstart hdefined hfill] at h
            obtain ⟨rfl, rfl⟩ := EStateM.Result.ok.inj h
            exact Or.inr ⟨main, startPc, code, rfl, rfl, hstart, rfl, rfl, rfl, rfl⟩

/-- A program that can be finished has a main procedure, and all labels can be filled in. -/
theorem finish_eq_ok {a b : Assembler} {image : Image} (h : finish a = .ok (.ok image) b) :
    ∃ main startPc code, a.procedure? = none ∧ a.main? = some main ∧
      a.labels.address? main = some startPc ∧
      a.labels.fillAll a.code a.labels.references.reverse = .ok code ∧ b = a.resolved code ∧
      (a.resolved code).image startPc = .ok image := by
  rcases finish_cases h with ⟨-, cause, hresult⟩ | ⟨main, startPc, code, hclosed, hmain, hstart, -,
    hfill, hb, hresult⟩
  · cases hresult
  · exact ⟨main, startPc, code, hclosed, hmain, hstart, hfill, hb, hresult.symm⟩

/-- The code of an image is not too large and has no holes. -/
theorem image_eq_ok {a : Assembler} {startPc : Nat} {image : Image}
    (h : a.image startPc = .ok image) : a.code.size ≤ maxCode ∧ ∃ bs, a.code.bytes = .ok bs ∧
      image = .ofSegments bs a.statics.bytes.toList (UInt32.ofNat startPc) := by
  rw [Assembler.image] at h
  by_cases hlarge : maxCode < a.code.size
  · rw [if_pos hlarge] at h
    cases h
  · rw [if_neg hlarge] at h
    cases hbytes : a.code.bytes with
    | error cause =>
      rw [hbytes] at h
      cases h
    | ok bs =>
      rw [hbytes] at h
      exact ⟨Nat.le_of_not_lt hlarge, bs, rfl, (Except.ok.inj h).symm⟩

/-- The segments of a finished image are those of the program, and it starts where the main
procedure does. -/
theorem segments_of_finish {a b : Assembler} {image : Image} (h : finish a = .ok (.ok image) b) :
    image.data = a.statics.bytes.toList ∧ ∃ main startPc, a.main? = some main ∧
      a.labels.address? main = some startPc ∧ image.header.startPc = UInt32.ofNat startPc := by
  obtain ⟨main, startPc, code, -, hmain, hstart, -, -, himage⟩ := finish_eq_ok h
  obtain ⟨-, bs, -, rfl⟩ := image_eq_ok himage
  exact ⟨rfl, main, startPc, hmain, hstart, rfl⟩

/-- What a command does that appends instructions, the last of which goes to a label. -/
theorem Command.changes_of_emitLabel {command : Command} {is : List Instruction} {t : Transfer}
    {label : String} {a b : Assembler} (hbytes : command.staticBytes = [])
    (htarget : command.target? = some label) (haccepts : a.Accepts is)
    (hstores : StoresAt command.staticStores is)
    (h : emitLabel t.opcode label (a.append is) = .ok () b) : command.Changes a b := by
  cases hlabel : (a.append is).labels.address? label with
  | some n =>
    rw [emitLabel_of_address t hlabel h, append_append]
    refine .code _ hbytes (haccepts.append (accepts_transfer t hlabel)) (hstores.append ?_)
    refine storesAt_of_ne fun i hi n => ?_
    rw [List.mem_singleton.mp hi]
    cases t <;> exact Instruction.noConfusion
  | none =>
    rw [emitLabel_of_none t hlabel] at h
    obtain ⟨-, rfl⟩ := EStateM.Result.ok.inj h
    exact .await is t label hbytes htarget haccepts hstores hlabel

/-- **A command that succeeds makes its change.**  This is the only place where the commands are
gone through one by one. -/
theorem Command.changes {command : Command} {a b : Assembler} (h : command.run a = .ok () b) :
    command.Changes a b := by
  have hnone : a.Accepts [] := accepts_of_plain a fun _ hi => nomatch hi
  -- most commands are settled by this; what is left are the ones that change something else
  have writes (hx : command.run.Writes command.staticStores) (hbytes : command.staticBytes = []) :
      command.Changes a b := by
    obtain ⟨is, haccepts, hstores, rfl⟩ := hx h
    exact .code is hbytes haccepts hstores
  cases command with
  | define label =>
    obtain ⟨hnew, rfl⟩ := withLabel_of_define h
    exact .label label hnew
  | allocStatic words =>
    obtain ⟨_, _, hrun, hb⟩ := Action.bind_eq_ok.mp h
    obtain ⟨-, rfl⟩ := EStateM.Result.ok.inj hb
    obtain ⟨-, rfl⟩ := allocStatic_eq_ok hrun
    rw [statics_alloc]
    exact .data ((congrArg (· % wordSize) List.length_replicate).trans (Nat.mul_mod_left _ _))
  | allocString text =>
    obtain ⟨_, _, hrun, hb⟩ := Action.bind_eq_ok.mp h
    obtain ⟨-, rfl⟩ := EStateM.Result.ok.inj hb
    obtain ⟨-, rfl⟩ := EStateM.Result.ok.inj hrun
    exact .data (length_stringBytes text)
  | allocLocal words =>
    obtain ⟨_, _, hrun, hb⟩ := Action.bind_eq_ok.mp h
    obtain ⟨-, rfl⟩ := EStateM.Result.ok.inj hb
    obtain ⟨p, hopen, -, rfl⟩ := allocLocal_eq_ok hrun
    exact .frame p words hopen
  | newObject words => exact writes (.emitWith .new rfl (fun _ => rfl) (by decide) _) rfl
  | newArray => exact writes (.emitWith .newarray rfl (fun _ => rfl) (by decide) 1) rfl
  | pushConst v => exact writes (.pushConst v) rfl
  | loadWord r offset =>
    refine writes ?_ rfl
    cases r <;> exact .emitWith _ rfl (fun _ => rfl) (by decide) offset
  | storeWord r offset => exact writes (.storeWord r offset) rfl
  | printInteger => exact writes (.bind (.pushConst 0) fun _ => .emit rfl (by decide)) rfl
  | printByte => exact writes (.bind (.pushConst 0) fun _ => .emit rfl (by decide)) rfl
  | printString address => exact writes (.emitWith .sprint rfl (fun _ => rfl) (by decide) _) rfl
  | disjunction =>
    exact writes (.bind (.emit rfl (by decide)) fun _ => .bind (.pushConst 1) fun _ =>
      .compare .ge) rfl
  | negation =>
    exact writes (.bind (.emit rfl (by decide)) fun _ => .bind (.pushConst 1) fun _ =>
      .emit rfl (by decide)) rfl
  | compare test => exact writes (.compare test) rfl
  | branchIf value label =>
    obtain ⟨_, a₁, hpush, hbranch⟩ := Action.bind_eq_ok.mp h
    obtain ⟨is, haccepts, hstores, rfl⟩ := Asm.Writes.pushConst _ hpush
    exact changes_of_emitLabel (t := .branch) rfl rfl haccepts hstores hbranch
  | jump label => exact changes_of_emitLabel (t := .jump) rfl rfl hnone (fun _ hn => nomatch hn) h
  | call label => exact changes_of_emitLabel (t := .call) rfl rfl hnone (fun _ hn => nomatch hn) h
  | enter label params isMain =>
    obtain ⟨hclosed, hmain, hnew, rfl⟩ := enter_eq_ok h
    exact .opening label params isMain hclosed hmain hnew
  | exit label =>
    obtain ⟨p, code, hopen, hsize, hfill, hnew, rfl⟩ := exit_eq_ok h
    exact .closing label p code hopen hsize hfill hnew
  | finish =>
    obtain ⟨_, _, hrun, hb⟩ := Action.bind_eq_ok.mp h
    obtain ⟨-, rfl⟩ := EStateM.Result.ok.inj hb
    rcases finish_cases hrun with ⟨rfl, -⟩ | ⟨_, _, code, -, -, -, hdefined, hfill, rfl, -⟩
    · exact .unfinished
    · exact .resolving code hdefined hfill
  | loadElement | storeElement | arrayLength | readInteger | readByte | neg | add | sub | mul
  | div | rem | conjunction => exact writes (.emit rfl (by decide)) rfl

/-- A change is made of a few effects, three at most.  Here the labels at the two ends of a
procedure are told apart from its code. -/
theorem Command.Changes.effects {command : Command} {a b : Assembler} (h : command.Changes a b) :
    Effects a b := by
  cases h with
  | code is _ haccepts => exact .single (.code a is haccepts)
  | await is t label _ _ haccepts _ hnew =>
    exact (Relation.ReflTransGen.single (.code a is haccepts)).tail (.await _ t label hnew)
  | data hwords => exact .single (.data a _ hwords)
  | frame p words hopen => exact .single (.frame a p words hopen)
  | label label hnew => exact .single (.label a label hnew)
  | opening label params isMain hclosed hmain hnew =>
    exact (Relation.ReflTransGen.single (.label a label hnew)).tail
      (.opening _ label params isMain hclosed hmain (address?_withLabel_self a label))
  | closing label p code hopen hsize hfill hnew =>
    exact ((Relation.ReflTransGen.single (.closing a p code hopen hsize hfill)).tail
      (.label _ label hnew)).tail (.code _ _ (accepts_of_plain _ (by decide)))
  | unfinished => exact .refl
  | resolving code hdefined hfill => exact .single (.resolving a code hdefined hfill)

/-- Every command is a sequence of effects. -/
theorem Command.regular (command : Command) : command.run.Regular :=
  fun _ _ _ h => (Command.changes h).effects

/-- An action whose answer is used is a sequence of effects too, if it is a command but for the
answer. -/
theorem Command.regular_answering (command : Command) {α : Type} {x : Asm α}
    (hx : command.run = do let _ ← x) : x.Regular := by
  intro a b v h
  refine command.regular (v := ()) ?_
  rw [hx]
  exact Action.bind_eq_ok.mpr ⟨v, b, h, rfl⟩

/-! ### Sessions -/

/-- **Every session is a sequence of effects.**  With this, an invariant that each effect keeps
holds of every program that can be written. -/
theorem effects_session {commands : List Command} {a b : Assembler}
    (h : session commands a = .ok () b) : Effects a b := by
  have hregular : (session commands).Regular := by
    clear h
    induction commands with
    | nil => exact .pure ()
    | cons command commands ih => exact command.regular.bind fun _ => ih
  exact hregular h

end Assembler
end MJ
