import MJ.Proofs.Array.Heap
import MJ.Proofs.Compilation
import MJ.Proofs.Realization

/-!
# The code that allocates an array

Where the code for the levels of an array stands in a finished image, which words of the frame it
uses, and where its jumps lead.  The words are set aside while the code is emitted, so an action of
the compiler is described by both: the part of the frame and the part of the code that it adds.

## Main definitions

* `Spans` — instructions stand in the code between two addresses.
* `Levels` — the code for the levels of an array stands between two addresses.
* `Lays` — what an action of the compiler adds to the frame and to the code of an image.

## Main results

* `lays_allocLevels` — **the code of all levels is placed**, whatever is compiled later.
-/

namespace MJ

open Machine Assembler Compiler

/-! ### Instructions between two addresses -/

/-- Instructions stand between two addresses, and take up all of the space.  Naming both ends lets
the parts of a loop be put together without computing sizes. -/
def Spans (code : Array UInt8) (is : List Instruction) (base next : Nat) : Prop :=
  CodeAt code base (Code.ofInstructions is) ∧ next = base + (Code.ofInstructions is).length

namespace Spans

variable {code : Array UInt8} {is js : List Instruction} {i : Instruction} {base m next : Nat}

/-- Instructions that follow others. -/
theorem append (his : Spans code is base m) (hjs : Spans code js m next) :
    Spans code (is ++ js) base next := by
  obtain ⟨hcode, rfl⟩ := his
  obtain ⟨hcode', hnext⟩ := hjs
  rw [Spans, Code.ofInstructions_append, codeAt_append, List.length_append, ← Nat.add_assoc]
  exact ⟨⟨hcode, hcode'⟩, hnext⟩

/-- A single instruction. -/
theorem singleton (hcode : CodeAt code base i.bytes) (hnext : next = base + i.size) :
    Spans code [i] base next := by
  rw [Spans, Code.ofInstructions_cons, Code.ofInstructions_nil, List.append_nil,
    Instruction.length_bytes]
  exact ⟨hcode, hnext⟩

/-- The first instruction, and those after it. -/
theorem cons (h : Spans code (i :: is) base next) :
    CodeAt code base i.bytes ∧ Spans code is (base + i.size) next := by
  obtain ⟨hcode, rfl⟩ := h
  rw [Code.ofInstructions_cons, codeAt_append, Instruction.length_bytes] at hcode
  refine ⟨hcode.1, hcode.2, ?_⟩
  rw [Code.ofInstructions_cons, List.length_append, Instruction.length_bytes, Nat.add_assoc]

/-- Instructions, and those after them. -/
theorem split (h : Spans code (is ++ js) base next) :
    Spans code is base (base + (Code.ofInstructions is).length) ∧
      Spans code js (base + (Code.ofInstructions is).length) next := by
  obtain ⟨hcode, rfl⟩ := h
  rw [Code.ofInstructions_append, codeAt_append] at hcode
  refine ⟨⟨hcode.1, rfl⟩, hcode.2, ?_⟩
  rw [Code.ofInstructions_append, List.length_append, Nat.add_assoc]

theorem le (h : Spans code is base next) : base ≤ next := by
  have hnext := h.2
  omega

end Spans

/-- An image has the instructions that were emitted for it, where they were emitted. -/
theorem Assembler.RealizedBy.spans {a : Assembler} {is : List Instruction} {image : Image}
    {table : String → Option Nat} {base : Nat} (h : (a.append is).RealizedBy image table)
    (hbase : base = a.code.size) : Spans image.code.toArray is base (a.append is).code.size := by
  subst hbase
  exact ⟨h.codeAt, size_append a is⟩

/-! ### The levels of an array -/

/-- The code at the start of a level: an array whose length is in the word `slot` is allocated and
goes to the word `array`, and the index in the word after it becomes 0. -/
def startCode (slot array : Nat) : List Instruction :=
  [.load (UInt8.ofNat slot), .newArray 1, .store (UInt8.ofNat array), .ofConst 0,
    .store (UInt8.ofNat (array + 1))]

/-- The code at `top` that ends a level at `done` if the index is the length, and otherwise pushes
the array and the index. -/
def testCode (slot array done top : Nat) : List Instruction :=
  .load (UInt8.ofNat (array + 1)) :: .load (UInt8.ofNat slot) :: (compareCode .ge (top + 4) ++
    [.ofConst 1, .branch .eq (Int16.ofNat done), .load (UInt8.ofNat array),
      .load (UInt8.ofNat (array + 1))])

/-- The code that stores an element and goes on with the next index. -/
def advanceCode (array top : Nat) : List Instruction :=
  [.storeElement, .load (UInt8.ofNat (array + 1)), .ofConst 1, .arithmetic .add,
    .store (UInt8.ofNat (array + 1)), .jump (Int16.ofNat top)]

/-- The code that allocates an array, whose lengths are in the words `slots` of the frame, stands
between `base` and `next` and uses the words of the frame from `lo` on and before `hi`.  Each level
but the last has two words of its own, which the code inside of its loop does not use. -/
def Levels (code : Array UInt8) : (slots : List Nat) → (lo hi base next : Nat) → Prop
  | [], lo, hi, base, next => hi = lo ∧ next = base
  | [slot], lo, hi, base, next =>
    hi = lo ∧ Spans code [.load (UInt8.ofNat slot), .newArray 1] base next
  | slot :: inner :: rest, lo, hi, base, next => ∃ top body tail done,
    Spans code (startCode slot lo) base top ∧
    Spans code (testCode slot lo done top) top body ∧
    Levels code (inner :: rest) (lo + 2) hi body tail ∧
    Spans code (advanceCode lo top) tail done ∧ done < 65536 ∧
    Spans code [.load (UInt8.ofNat lo)] done next

/-- The part of the frame and that of the code end after they begin, by induction on the levels. -/
theorem Levels.le {code : Array UInt8} {slots : List Nat} {lo hi base next : Nat}
    (h : Levels code slots lo hi base next) : lo ≤ hi ∧ base ≤ next := by
  induction slots generalizing lo base next with
  | nil => exact ⟨Nat.le_of_eq h.1.symm, Nat.le_of_eq h.2.symm⟩
  | cons slot slots ih =>
    cases slots with
    | nil => exact ⟨Nat.le_of_eq h.1.symm, h.2.le⟩
    | cons inner rest =>
      obtain ⟨top, body, tail, done, hstart, htest, hinner, hadvance, -, hresult⟩ := h
      obtain ⟨hlo, hbody⟩ := ih hinner
      have hbase := hstart.le
      have htop := htest.le
      have htail := hadvance.le
      have hdone := hresult.le
      omega

/-! ### What an action adds to an image -/

/-- What an action of the compiler adds to every image that the compilation ends up in: `P` is given
its result, the part of the frame that it sets aside, and the part of the code that it emits. -/
def Lays {α : Type} (image : Image) (table : String → Option Nat) (x : Compile α)
    (P : α → (lo hi base next : Nat) → Prop) : Prop :=
  ∀ ⦃c : Compiler⦄ ⦃v : α⦄ ⦃c' : Compiler⦄, x c = .ok v c' →
    Effects c.assembler c'.assembler ∧
    (c'.assembler.RealizedBy image table → ∀ p, c.assembler.procedure? = some p →
      ∃ q, c'.assembler.procedure? = some q ∧
        P v p.size q.size c.assembler.code.size c'.assembler.code.size)

/-- An action of the assembler that appends instructions.  Only a comparison needs to know where it
stands. -/
structure Emits (x : Asm Unit) (is : (base : Nat) → List Instruction) : Prop where
  regular : x.Regular
  append : ∀ ⦃a b : Assembler⦄, x a = .ok () b → b = a.append (is a.code.size)

namespace Lays

variable {image : Image} {table : String → Option Nat} {α β : Type}

theorem mono {x : Compile α} {P Q : α → Nat → Nat → Nat → Nat → Prop}
    (h : Lays image table x P)
    (himp : ∀ v lo hi base next, P v lo hi base next → Q v lo hi base next) :
    Lays image table x Q := by
  intro c v c' hx
  obtain ⟨heffects, hplaced⟩ := h hx
  refine ⟨heffects, fun hrealized p hp => ?_⟩
  obtain ⟨q, hq, hP⟩ := hplaced hrealized p hp
  exact ⟨q, hq, himp _ _ _ _ _ hP⟩

/-- One action after the other: the second goes on where the first has left the frame and the code.
-/
theorem bind {x : Compile α} {f : α → Compile β} {P : α → Nat → Nat → Nat → Nat → Prop}
    {Q : α → β → Nat → Nat → Nat → Nat → Prop} (hx : Lays image table x P)
    (hf : ∀ v, Lays image table (f v) (Q v)) :
    Lays image table (x >>= f) fun w lo hi base next =>
      ∃ v mid m, P v lo mid base m ∧ Q v w mid hi m next := by
  intro c w c' hrun
  obtain ⟨v, c₁, hxc, hfc⟩ := Action.bind_eq_ok.mp hrun
  obtain ⟨heffects, hplaced⟩ := hx hxc
  obtain ⟨heffects', hplaced'⟩ := hf v hfc
  refine ⟨heffects.trans heffects', fun hrealized p hp => ?_⟩
  obtain ⟨q, hq, hP⟩ := hplaced (RealizedBy.of_effects heffects' hrealized) p hp
  obtain ⟨q', hq', hQ⟩ := hplaced' hrealized q hq
  exact ⟨q', hq', v, _, _, hP, hQ⟩

/-- An action of the assembler, for which its effect on the program under construction is enough. -/
theorem assemble {x : Asm α} {P : α → Nat → Nat → Nat → Nat → Prop} (hregular : x.Regular)
    (hP : ∀ ⦃a b : Assembler⦄ ⦃v : α⦄ ⦃p : Procedure⦄, x a = .ok v b →
      b.RealizedBy image table → a.procedure? = some p →
      ∃ q, b.procedure? = some q ∧ P v p.size q.size a.code.size b.code.size) :
    Lays image table (liftM x) P := by
  intro c v c' hrun
  obtain ⟨a, hx, rfl⟩ := assemble_eq_ok.mp hrun
  exact ⟨hregular hx, fun hrealized p hp => hP hx hrealized hp⟩

/-- Instructions are emitted, and the frame stays as large as it is. -/
theorem emit {x : Asm Unit} {is : Nat → List Instruction} (h : Emits x is) :
    Lays image table (liftM x) fun _ lo hi base next =>
      hi = lo ∧ Spans image.code.toArray (is base) base next := by
  refine assemble h.regular fun a b v p hx hrealized hp => ?_
  obtain rfl := h.append hx
  exact ⟨p, hp, rfl, hrealized.spans rfl⟩

/-- Instructions are emitted before anything else. -/
theorem emitThen {x : Asm Unit} {is : Nat → List Instruction} {y : Compile α}
    {P : α → Nat → Nat → Nat → Nat → Prop} (h : Emits x is) (hy : Lays image table y P) :
    Lays image table (liftM x >>= fun _ => y) fun w lo hi base next =>
      ∃ m, Spans image.code.toArray (is base) base m ∧ P w lo hi m next := by
  refine ((emit h).bind fun _ => hy).mono fun w lo hi base next hparts => ?_
  obtain ⟨_, mid, m, ⟨rfl, hspans⟩, hP⟩ := hparts
  exact ⟨m, hspans, hP⟩

/-- A word of the frame is set aside before anything else. -/
theorem temp {f : Word → Compile α} {P : Nat → α → Nat → Nat → Nat → Nat → Prop}
    (hf : ∀ n, Lays image table (f (Int32.ofNat n)) (P n)) :
    Lays image table (allocTemp >>= f) fun w lo hi base next => P lo w (lo + 1) hi base next := by
  have halloc : Lays image table (liftM (allocLocal 1)) fun n lo hi base next =>
      n = lo ∧ hi = lo + 1 ∧ next = base := by
    refine assemble ((Command.allocLocal 1).regular_answering rfl) fun a b n p hx _ hp => ?_
    obtain ⟨p', hp', rfl, rfl⟩ := allocLocal_eq_ok hx
    obtain rfl := Option.some.inj (hp.symm.trans hp')
    exact ⟨_, rfl, rfl, rfl, rfl⟩
  have hrest : allocTemp >>= f = (liftM (allocLocal 1) >>= fun n => f (Int32.ofNat n)) := by
    rw [allocTemp, bind_assoc]
    simp only [pure_bind]
  rw [hrest]
  refine (halloc.bind hf).mono fun w lo hi base next hparts => ?_
  obtain ⟨n, mid, m, ⟨rfl, rfl, rfl⟩, hP⟩ := hparts
  exact hP

/-- A label is made up before anything else.  Which one does not matter: the table of the image
tells where it is defined. -/
theorem label {f : String → Compile α} {P : String → α → Nat → Nat → Nat → Nat → Prop}
    (hf : ∀ label, Lays image table (f label) (P label)) :
    Lays image table (newLabel >>= f) fun w lo hi base next =>
      ∃ label, P label w lo hi base next := by
  intro c w c' hrun
  have hfc : f ("L" ++ toString c.labelCount) { c with labelCount := c.labelCount + 1 }
      = .ok w c' := hrun
  obtain ⟨heffects, hplaced⟩ := hf _ hfc
  refine ⟨heffects, fun hrealized p hp => ?_⟩
  obtain ⟨q, hq, hP⟩ := hplaced hrealized p hp
  exact ⟨q, hq, _, hP⟩

/-- A label is defined as the address of what follows. -/
theorem define (label : String) {y : Compile α} {P : α → Nat → Nat → Nat → Nat → Prop}
    (hy : Lays image table y P) :
    Lays image table (Compiler.define label >>= fun _ => y) fun w lo hi base next =>
      table label = some base ∧ base ≤ image.code.length ∧ P w lo hi base next := by
  have hdefine : Lays image table (Compiler.define label) fun _ lo hi base next =>
      hi = lo ∧ next = base ∧ table label = some base ∧ base ≤ image.code.length := by
    refine assemble (Command.define label).regular fun a b _ p hx hrealized hp => ?_
    obtain ⟨-, rfl⟩ := withLabel_of_define hx
    exact ⟨p, hp, rfl, rfl, hrealized.labels label _ (address?_withLabel_self _ label),
      hrealized.size⟩
  refine (hdefine.bind fun _ => hy).mono fun w lo hi base next hparts => ?_
  obtain ⟨_, mid, m, ⟨rfl, rfl, htable, hle⟩, hP⟩ := hparts
  exact ⟨htable, hle, hP⟩

/-- An instruction with a label leads to where the label is defined, also if this is done only
later: the image is finished, and all labels are filled in. -/
theorem transfer (t : Transfer) (label : String) {y : Compile α}
    {P : α → Nat → Nat → Nat → Nat → Prop} (hy : Lays image table y P) :
    Lays image table (liftM (emitLabel t.opcode label) >>= fun _ => y)
      fun w lo hi base next => ∃ n m, table label = some n ∧
        Spans image.code.toArray [t.instruction n] base m ∧ P w lo hi m next := by
  have hemit : Lays image table (liftM (emitLabel t.opcode label)) fun _ lo hi base next =>
      hi = lo ∧ ∃ n, table label = some n ∧
        Spans image.code.toArray [t.instruction n] base next := by
    refine assemble (regular_emitLabel t label) fun a b _ p hx hrealized hp => ?_
    obtain ⟨n, htable, hcode, hsize⟩ := RealizedBy.codeAt_emitLabel hx hrealized
    rw [← t.size_instruction n] at hsize
    exact ⟨p, (procedure?_of_emitLabel hx).trans hp, rfl, n, htable, .singleton hcode hsize⟩
  refine (hemit.bind fun _ => hy).mono fun w lo hi base next hparts => ?_
  obtain ⟨_, mid, m, ⟨rfl, n, htable, hspans⟩, hP⟩ := hparts
  exact ⟨n, m, htable, hspans, hP⟩

end Lays

/-! ### The actions of a level -/

theorem emits_loadWord (n : Nat) :
    Emits (loadWord .stack (Int32.ofNat n)) fun _ => [.load (UInt8.ofNat n)] := by
  refine ⟨(Command.loadWord _ _).regular, fun a b hx => ?_⟩
  rw [← Region.loadInstruction_stack]
  exact (EStateM.Result.ok.inj ((loadWord_eq (holds_of_emitWith hx) a).symm.trans hx)).2.symm

theorem emits_storeWord (n : Nat) :
    Emits (storeWord .stack (Int32.ofNat n)) fun _ => [.store (UInt8.ofNat n)] := by
  refine ⟨(Command.storeWord _ _).regular, fun a b hx => ?_⟩
  rw [← Region.storeInstruction_stack]
  exact (EStateM.Result.ok.inj ((storeWord_eq (holds_of_emitWith hx) a).symm.trans hx)).2.symm

theorem emits_pushConst (v : Word) : Emits (pushConst v) fun _ => [.ofConst v] := by
  refine ⟨(Command.pushConst v).regular, fun a b hx => ?_⟩
  exact (EStateM.Result.ok.inj ((pushConst_eq v a).symm.trans hx)).2.symm

theorem emits_newArray : Emits newArray fun _ => [.newArray 1] := by
  refine ⟨Command.newArray.regular, fun a b hx => ?_⟩
  have hop : Opcode.newarray.operands = [.s8] := rfl
  have hemit := emitWith_eq hop (holds_of_emitWith hx) a
  exact (EStateM.Result.ok.inj (hemit.symm.trans hx)).2.symm

theorem emits_compare (test : Comparison) : Emits (compare test) (compareCode test) := by
  refine ⟨(Command.compare test).regular, fun a b hx => ?_⟩
  exact (EStateM.Result.ok.inj ((compare_eq test a).symm.trans hx)).2.symm

/-- An instruction without operands. -/
theorem emits_instruction {i : Instruction} (hop : i.opcode.operands = [])
    (hbytes : i.operandBytes = []) (hlast : i.opcode ≠ .last) :
    Emits (emit i.opcode) fun _ => [i] := by
  refine ⟨(Asm.Writes.emit hop hlast).regular, fun a b hx => ?_⟩
  exact (EStateM.Result.ok.inj ((emit_instruction i hbytes a).symm.trans hx)).2.symm

/-- A jump that is made if the topmost word is that of `true`. -/
theorem Lays.branchIf {image : Image} {table : String → Option Nat} {α : Type} (label : String)
    {y : Compile α} {P : α → Nat → Nat → Nat → Nat → Prop} (hy : Lays image table y P) :
    Lays image table (liftM (Assembler.branchIf true label) >>= fun _ => y)
      fun w lo hi base next => ∃ n m, table label = some n ∧
        Spans image.code.toArray [.ofConst 1, .branch .eq (Int16.ofNat n)] base m ∧
        P w lo hi m next := by
  have hbranch : Lays image table (liftM (Assembler.branchIf true label))
      fun _ lo hi base next => hi = lo ∧ ∃ n, table label = some n ∧
        Spans image.code.toArray [.ofConst 1, .branch .eq (Int16.ofNat n)] base next := by
    refine assemble (Command.branchIf true label).regular fun a b _ p hx hrealized hp => ?_
    obtain ⟨_, a₁, hpush, hemit⟩ := Action.bind_eq_ok.mp hx
    have ha₁ : a₁ = a.append [.ofConst 1] := (emits_pushConst 1).append hpush
    subst ha₁
    have hemit : emitLabel Transfer.branch.opcode label (a.append [.ofConst 1]) = .ok () b := hemit
    obtain ⟨n, htable, hcode, hsize⟩ := RealizedBy.codeAt_emitLabel hemit hrealized
    have hrealized₁ := RealizedBy.of_effects (regular_emitLabel .branch label hemit) hrealized
    exact ⟨p, (procedure?_of_emitLabel hemit).trans hp, rfl, n, htable,
      (hrealized₁.spans rfl).append (.singleton hcode hsize)⟩
  refine (hbranch.bind fun _ => hy).mono fun w lo hi base next hparts => ?_
  obtain ⟨_, mid, m, ⟨rfl, n, htable, hspans⟩, hP⟩ := hparts
  exact ⟨n, m, htable, hspans, hP⟩

/-- **The code of all levels is placed.**  By induction on the levels; the actions are taken one
after the other, and then the instructions of each part are joined. -/
theorem lays_allocLevels {image : Image} {table : String → Option Nat}
    (hsize : image.code.length < 65536) (slots : List Nat) :
    Lays image table (allocLevels (slots.map Int32.ofNat)) fun _ =>
      Levels image.code.toArray slots := by
  induction slots with
  | nil =>
    intro c v c' hrun
    obtain ⟨rfl, rfl⟩ := EStateM.Result.ok.inj hrun
    exact ⟨.refl, fun _ p hp => ⟨p, hp, rfl, rfl⟩⟩
  | cons slot slots ih =>
    cases slots with
    | nil =>
      refine (Lays.emitThen (emits_loadWord slot) (Lays.emit emits_newArray)).mono
        fun _ lo hi base next hparts => ?_
      obtain ⟨m, hload, rfl, hnew⟩ := hparts
      exact ⟨rfl, hload.append hnew⟩
    | cons inner rest =>
      have hadd := emits_instruction (i := .arithmetic .add) rfl rfl (by decide)
      have hastore := emits_instruction (i := .storeElement) rfl rfl (by decide)
      -- the actions of the level one after the other, those of the later levels in the middle
      refine (Lays.emitThen (emits_loadWord slot) <| Lays.emitThen emits_newArray <|
        Lays.temp fun array => Lays.temp fun index =>
        Lays.emitThen (emits_storeWord array) <| Lays.emitThen (emits_pushConst 0) <|
        Lays.emitThen (emits_storeWord index) <| Lays.label fun top => Lays.label fun done =>
        Lays.define top <| Lays.emitThen (emits_loadWord index) <|
        Lays.emitThen (emits_loadWord slot) <| Lays.emitThen (emits_compare .ge) <|
        Lays.branchIf done <| Lays.emitThen (emits_loadWord array) <|
        Lays.emitThen (emits_loadWord index) <| ih.bind fun _ =>
        Lays.emitThen hastore <| Lays.emitThen (emits_loadWord index) <|
        Lays.emitThen (emits_pushConst 1) <| Lays.emitThen hadd <|
        Lays.emitThen (emits_storeWord index) <| Lays.transfer .jump top <|
        Lays.define done <| Lays.emit (emits_loadWord array)).mono
        fun _ lo hi base next hparts => ?_
      obtain ⟨m₁, hload, m₂, hnew, m₃, hstore, m₄, hzero, m₅, hindex, top, done, htop, -,
        k₁, hleft, k₂, hright, k₃, hcompare, n, k₄, hn, hbranch, k₅, harray, body, hpush,
        _, mid, tail, hlevels, l₁, helement, l₂, hold, l₃, hone, l₄, hadd, l₅, hnext,
        n', l₆, hn', hjump, hdone, hle, rfl, hresult⟩ := hparts
      -- a label has one address, so the jumps lead to where the labels are defined
      obtain rfl := Option.some.inj (hn.symm.trans hdone)
      obtain rfl := Option.some.inj (hn'.symm.trans htop)
      have hk₂ : k₂ = n' + 4 := by rw [hright.2, hleft.2]; rfl
      subst hk₂
      refine ⟨n', body, tail, n, ?_, ?_, hlevels, ?_, by omega, hresult⟩
      · exact hload.append (hnew.append (hstore.append (hzero.append hindex)))
      · exact hleft.append (hright.append
          (hcompare.append (hbranch.append (harray.append hpush))))
      · exact helement.append (hold.append (hone.append (hadd.append (hnext.append hjump))))

end MJ
