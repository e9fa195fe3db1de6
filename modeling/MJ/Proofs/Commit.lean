import MJ.Proofs.Execution

/-!
# What an instruction does

An instruction first pops its operands, and may read input.  Then it either fails or commits one
change to the machine, and the change says which instruction has made it where only one can.  All
instructions are looked at here, once; what a run keeps or how it may go on is then a matter of the
thirteen kinds of changes.

## Main definitions

* `Instruction.mayFail` — the causes that an instruction can fail for.
* `Machine.Popped` — words were popped and input was read, and nothing else happened.
* `Machine.Commit`, `Machine.Change` — the changes that instructions make after that.
* `Machine.PopsOnly`, `Machine.Commits` — actions that only pop and read, and actions that make one
  change.
* `Machine.Prevented` — why a step may execute no instruction.

## Main results

* `Machine.execute_committed` — an instruction pops, and then fails or makes one change.
* `Machine.step_cases` — a step is prevented, or executes an instruction.
* `Machine.change_of_step` — a step after which the machine goes on makes one change.
-/

namespace MJ

/-- Whether an instruction prints in a field. -/
def Instruction.printsField : Instruction → Bool
  | print | printByte => true
  | _ => false

/-- Whether an instruction may fail for a cause.  The limits on steps and on the stack are checked
before it is fetched, and what it consists of is known to lie inside the code by then.  Only what
prints in a field can be refused one that is too wide, and the end marker alone cannot be
executed. -/
def Instruction.mayFail (i : Instruction) : Stop → Bool
  | .fault (.stepLimit _) | .fault (.stackLimit _) | .fault .pcOutOfBounds => false
  | .fault (.invalidOpcode _) => i == .last
  | .wideField => i.printsField
  | .fault _ => true

/-- Input that cannot be read is a cause for any instruction: only causes that single out an
instruction are kept from the others. -/
theorem Input.mayFail_of_readInteger {input rest : List UInt8} {cause : Fault}
    (h : Input.readInteger input = (.error cause, rest)) (i : Instruction) :
    i.mayFail (.fault cause) = true := by
  have hresult := congrArg Prod.fst h
  unfold Input.readInteger at hresult
  dsimp only at hresult
  split at hresult
  · cases hresult
    rfl
  · split at hresult
    · cases hresult
      rfl
    · split at hresult
      · cases hresult
      · cases hresult
        rfl

/-- What is left after a line is the end of the input. -/
theorem Input.line_suffix (input : List UInt8) : (Input.line input).2 <:+ input := by
  induction input with
  | nil => exact List.suffix_rfl
  | cons b bs ih =>
    rw [Input.line]
    split
    · exact List.suffix_cons b bs
    · exact ih.trans (List.suffix_cons b bs)

namespace Machine

/-! ### Popping and reading -/

/-- The second state is the first one after words were popped and input was read.  All fields are
named, so that each can be carried over by itself. -/
structure Popped (s t : State) : Prop where
  stack : t.stack.toList <+: s.stack.toList
  pc : t.pc = s.pc
  steps : t.steps = s.steps
  frames : t.frames = s.frames
  returns : t.returns = s.returns
  heap : t.heap = s.heap
  statics : t.statics = s.statics
  input : t.input <:+ s.input
  output : t.output = s.output

namespace Popped

theorem refl (s : State) : Popped s s :=
  ⟨List.prefix_rfl, rfl, rfl, rfl, rfl, rfl, rfl, List.suffix_rfl, rfl⟩

theorem trans {s t u : State} (h : Popped s t) (h' : Popped t u) : Popped s u where
  stack := h'.stack.trans h.stack
  pc := h'.pc.trans h.pc
  steps := h'.steps.trans h.steps
  frames := h'.frames.trans h.frames
  returns := h'.returns.trans h.returns
  heap := h'.heap.trans h.heap
  statics := h'.statics.trans h.statics
  input := h'.input.trans h.input
  output := h'.output.trans h.output

theorem of_stack (s : State) {stack : Array Word} (h : stack.toList <+: s.stack.toList) :
    Popped s { s with stack := stack } :=
  ⟨h, rfl, rfl, rfl, rfl, rfl, rfl, List.suffix_rfl, rfl⟩

theorem of_input (s : State) {input : List UInt8} (h : input <:+ s.input) :
    Popped s { s with input := input } :=
  ⟨List.prefix_rfl, rfl, rfl, rfl, rfl, rfl, rfl, h, rfl⟩

theorem size_le {s t : State} (h : Popped s t) : t.stack.size ≤ s.stack.size := h.stack.length_le

end Popped

/-- What an action of an instruction may result in: it leads to a state of a kind, or fails for a
cause of that instruction when it has at most popped and read. -/
def Leads {α : Type} (i : Instruction) (after : α → State → State → Prop) (s : State) :
    EStateM.Result Stop State α → Prop
  | .ok v t => after v s t
  | .error cause t => Popped s t ∧ i.mayFail cause = true

/-- An action that only pops and reads, whatever instruction it is a part of.  Looking at memory is
such an action too, as it changes nothing. -/
def PopsOnly {α : Type} (x : Exec α) : Prop := ∀ i s, Leads i (fun _ => Popped) s (x s)

namespace PopsOnly

/-- What an action leads to after words were popped.  The relation has to absorb what was popped
before, which both `Popped` and `Change` do. -/
theorem leads_bind {α β : Type} {x : Exec α} {f : α → Exec β} {i : Instruction}
    {after : β → State → State → Prop} (hx : PopsOnly x) (hf : ∀ v s, Leads i after s (f v s))
    (hafter : ∀ w s t u, Popped s t → after w t u → after w s u) (s : State) :
    Leads i after s ((x >>= f) s) := by
  have hxs := hx i s
  cases h : x s with
  | error cause t =>
    rw [h] at hxs
    rw [Action.bind_eq_error.mpr (Or.inl h)]
    exact hxs
  | ok v t =>
    rw [h] at hxs
    have hft := hf v t
    rw [Action.bind_of_ok h]
    cases hfv : f v t with
    | ok w u =>
      rw [hfv] at hft
      exact hafter w s t u hxs hft
    | error cause u =>
      rw [hfv] at hft
      exact ⟨Popped.trans hxs hft.1, hft.2⟩

theorem bind {α β : Type} {x : Exec α} {f : α → Exec β} (hx : PopsOnly x)
    (hf : ∀ v, PopsOnly (f v)) : PopsOnly (x >>= f) := fun i =>
  hx.leads_bind (fun v => hf v i) fun _ _ _ _ h h' => h.trans h'

theorem fault {α : Type} {cause : Fault} (h : ∀ i : Instruction, i.mayFail (.fault cause) = true) :
    PopsOnly (Machine.fault cause : Exec α) := fun i s => ⟨.refl s, h i⟩

theorem pop : PopsOnly Machine.pop := by
  intro i s
  unfold Machine.pop
  split
  · refine Popped.of_stack s ?_
    rw [Array.toList_pop]
    exact List.dropLast_prefix _
  · exact ⟨.refl s, rfl⟩

theorem popInto (n : Nat) (frame : Array Word) : PopsOnly (Machine.popInto n frame) := by
  induction n generalizing frame with
  | zero => exact fun _ s => Popped.refl s
  | succ n ih => exact pop.bind fun v => ih _

theorem getLocal (slot : Nat) : PopsOnly (Machine.getLocal slot) := by
  intro i s
  unfold Machine.getLocal
  split
  · exact ⟨.refl s, rfl⟩
  · split
    · exact Popped.refl s
    · exact ⟨.refl s, rfl⟩

theorem getStatic (address : Nat) : PopsOnly (Machine.getStatic address) := by
  intro i s
  unfold Machine.getStatic
  dsimp only
  split
  · exact Popped.refl s
  · exact ⟨.refl s, rfl⟩

theorem heapIndex (base offset : Word) : PopsOnly (Machine.heapIndex base offset) := by
  intro i s
  unfold Machine.heapIndex
  dsimp only
  split
  · exact ⟨.refl s, rfl⟩
  · split
    · exact Popped.refl s
    · exact ⟨.refl s, rfl⟩

theorem getHeap (i : Nat) : PopsOnly (Machine.getHeap i) := fun _ s => Popped.refl s

theorem elementIndex (base index : Word) : PopsOnly (Machine.elementIndex base index) := by
  refine (heapIndex base 0).bind fun i => (getHeap i).bind fun length => ?_
  split
  · exact fault fun _ => rfl
  · exact heapIndex base (index + 1)

theorem readInteger : PopsOnly Machine.readInteger := by
  intro i s
  have hrest : (Input.readInteger s.input).2 <:+ s.input := Input.line_suffix s.input
  unfold Machine.readInteger
  split
  · rename_i v rest h
    rw [h] at hrest
    exact Popped.of_input s hrest
  · rename_i cause rest h
    rw [h] at hrest
    exact ⟨.of_input s hrest, Input.mayFail_of_readInteger h i⟩

theorem readByte : PopsOnly Machine.readByte := by
  intro i s
  unfold Machine.readByte
  split
  · exact Popped.refl s
  · rename_i b rest h
    exact Popped.of_input s (h ▸ List.suffix_cons b rest)

end PopsOnly

/-! ### Changes -/

/-- A change that the instruction `i` makes once its operands are popped.  Where a change is made by
one kind of instructions only, it says which: what transfers control, what opens and drops calls and
frames, what allocates, and what writes static words. -/
inductive Commit (limits : Limits) (i : Instruction) (s : State) : State → Prop
  /-- No change. -/
  | rest : Commit limits i s s
  /-- A word is pushed. -/
  | push (v : Word) : Commit limits i s { s with stack := s.stack.push v }
  /-- A local of the innermost frame is set. -/
  | setLocal (frame : Array Word) (slot : Nat) (v : Word) (hframe : s.frames.back? = some frame)
    (hslot : slot < frame.size) :
    Commit limits i s { s with frames := s.frames.pop.push (frame.setIfInBounds slot v) }
  /-- A static word is set. -/
  | setStatic (n : Int16) (v : Word) (hi : i = .putStatic n)
    (haddress : Instruction.address n * wordSize + wordSize ≤ s.statics.size) :
    Commit limits i s { s with
      statics := writeAt s.statics (Instruction.address n * wordSize) (Width.s32.encode v) }
  /-- A word of the heap is set. -/
  | setHeap (k : Nat) (v : Word) : Commit limits i s { s with heap := s.heap.setIfInBounds k v }
  /-- An object is put after the heap, and its address is pushed. -/
  | newObject (n : Int16) (hi : i = .new n)
    (hroom : s.heap.size + Instruction.address n ≤ limits.heapWords) :
    Commit limits i s { s with
      heap := s.heap ++ Array.replicate (max (Instruction.address n) 1) 0
      stack := s.stack.push (Int32.ofNat s.heap.size) }
  /-- An array is put after the heap, and its address is pushed. -/
  | newArray (kind : Int8) (length : Word) (hi : i = .newArray kind) (hlength : ¬ length < 0)
    (hroom : s.heap.size + (length.toInt.toNat + 1) ≤ limits.heapWords) :
    Commit limits i s { s with
      heap := (s.heap ++ Array.replicate (max (length.toInt.toNat + 1) 1) 0).setIfInBounds
        (Int32.ofNat s.heap.size).toInt.toNat length
      stack := s.stack.push (Int32.ofNat s.heap.size) }
  /-- Control goes to the target. -/
  | goto (target : Nat) (hi : i.target? = some target) : Commit limits i s { s with pc := target }
  /-- A call is opened. -/
  | call (n : Int16) (hi : i = .call n) (hcalls : s.returns.size < limits.maxCalls) :
    Commit limits i s { s with returns := s.returns.push s.pc, pc := Instruction.address n }
  /-- The innermost call returns. -/
  | ret (address : Nat) (hi : i = .ret) (hback : s.returns.back? = some address) :
    Commit limits i s { s with returns := s.returns.pop, pc := address }
  /-- A frame is opened. -/
  | enter (params size : UInt8) (frame : Array Word) (hi : i = .enter params size) :
    Commit limits i s { s with frames := s.frames.push frame }
  /-- The innermost frame is dropped. -/
  | exit (frame : Array Word) (hi : i = .exit) (hframe : s.frames.back? = some frame) :
    Commit limits i s { s with frames := s.frames.pop }
  /-- Bytes are printed. -/
  | write (bs : List UInt8) : Commit limits i s { s with output := s.output ++ bs }

/-- Words are popped, and then a change is made.  This is what an instruction does to the machine if
it completes. -/
def Change (limits : Limits) (i : Instruction) (s t : State) : Prop :=
  ∃ u, Popped s u ∧ Commit limits i u t

variable {limits : Limits} {i : Instruction}

theorem Commit.change {s t : State} (h : Commit limits i s t) : Change limits i s t :=
  ⟨s, .refl s, h⟩

theorem Popped.change {s t u : State} (h : Popped s t) (h' : Change limits i t u) :
    Change limits i s u := by
  obtain ⟨v, hpopped, hcommit⟩ := h'
  exact ⟨v, h.trans hpopped, hcommit⟩

/-- An action that pops and then makes one change, as the last part of the instruction `i`. -/
def Commits (limits : Limits) (i : Instruction) {α : Type} (x : Exec α) : Prop :=
  ∀ s, Leads i (fun _ => Change limits i) s (x s)

namespace Commits

theorem push (v : Word) : Commits limits i (Machine.push v) := fun _ => (Commit.push v).change

theorem setLocal (slot : Nat) (v : Word) : Commits limits i (Machine.setLocal slot v) := by
  intro s
  unfold Machine.setLocal
  split
  · exact ⟨.refl s, rfl⟩
  · rename_i frame hframe
    split
    · rename_i hslot
      exact (Commit.setLocal frame slot v hframe hslot).change
    · exact ⟨.refl s, rfl⟩

theorem setStatic (n : Int16) (v : Word) :
    Commits limits (.putStatic n) (Machine.setStatic (Instruction.address n) v) := by
  intro s
  unfold Machine.setStatic
  dsimp only
  split
  · rename_i haddress
    exact (Commit.setStatic n v rfl haddress).change
  · exact ⟨.refl s, rfl⟩

theorem setHeap (k : Nat) (v : Word) : Commits limits i (Machine.setHeap k v) :=
  fun _ => (Commit.setHeap k v).change

theorem goto {target : Nat} (hi : i.target? = some target) :
    Commits limits i (Machine.goto target) :=
  fun _ => (Commit.goto target hi).change

theorem call (n : Int16) :
    Commits limits (.call n) (Machine.call limits (Instruction.address n)) := by
  intro s
  unfold Machine.call
  split
  · exact ⟨.refl s, rfl⟩
  · rename_i hcalls
    exact (Commit.call n rfl (Nat.lt_of_not_le hcalls)).change

theorem enter (params size : UInt8) :
    Commits limits (.enter params size) (Machine.enter params.toNat size.toNat) :=
  (PopsOnly.popInto params.toNat _).leads_bind
    (fun frame _ => (Commit.enter params size frame rfl).change) fun _ _ _ _ => Popped.change

theorem exit : Commits limits .exit Machine.exit := by
  intro s
  unfold Machine.exit
  split
  · exact ⟨.refl s, rfl⟩
  · rename_i hframes
    cases hback : s.frames.back? with
    | none =>
      rw [Array.back?_eq_none_iff] at hback
      rw [hback] at hframes
      exact absurd rfl hframes
    | some frame => exact (Commit.exit frame rfl hback).change

theorem writeField (hi : i.printsField = true) (width : Word) (text : List Char) :
    Commits limits i (Machine.writeField width text) := by
  intro s
  unfold Machine.writeField
  split
  · exact ⟨.refl s, hi⟩
  · exact (Commit.write _).change

theorem printString (address : Int16) : Commits limits i (Machine.printString address) := by
  intro s
  unfold Machine.printString
  dsimp only
  split
  · exact ⟨.refl s, rfl⟩
  · exact (Commit.write _).change

end Commits

/-! ### Instructions -/

/-- How an instruction leaves the machine: it makes one change and goes on, or returns from the
outermost procedure. -/
def Leaves (limits : Limits) (i : Instruction) : (goesOn : Bool) → State → State → Prop
  | true, s, t => Change limits i s t
  | false, s, t => Popped s t ∧ s.returns = #[] ∧ i = .ret

/-- What an instruction may result in. -/
abbrev Committed (limits : Limits) (i : Instruction) (s : State) :
    EStateM.Result Stop State Bool → Prop :=
  Leads i (Leaves limits i) s

/-- The operands of an instruction are popped first.  Together with `Commits.committed` this takes
an instruction apart into the actions that it is made of. -/
theorem PopsOnly.committed {α : Type} {x : Exec α} {f : α → Exec Bool} (hx : PopsOnly x)
    (hf : ∀ v s, Committed limits i s (f v s)) (s : State) :
    Committed limits i s ((x >>= f) s) := by
  refine hx.leads_bind hf (fun goesOn s t u hpopped h => ?_) s
  cases goesOn with
  | true => exact hpopped.change h
  | false => exact ⟨hpopped.trans h.1, hpopped.returns ▸ h.2.1, h.2.2⟩

/-- The change that an instruction makes is its last part. -/
theorem Commits.committed {α : Type} {x : Exec α} (hx : Commits limits i x) (s : State) :
    Committed limits i s ((x >>= fun _ => pure true) s) := by
  have hxs := hx s
  cases h : x s with
  | ok v t =>
    rw [h] at hxs
    rw [Action.bind_of_ok h]
    exact hxs
  | error cause t =>
    rw [h] at hxs
    rw [Action.bind_eq_error.mpr (Or.inl h)]
    exact hxs

theorem committed_pure (s : State) : Committed limits i s ((pure true : Exec Bool) s) :=
  Commit.rest.change

theorem committed_fault {cause : Fault} (h : i.mayFail (.fault cause) = true) (s : State) :
    Committed limits i s ((fault cause : Exec Bool) s) := ⟨.refl s, h⟩

/-- An object is put after the heap if there is room.  What comes next sees the larger heap, but all
of it counts as one change. -/
theorem committed_allocate {words : Nat} {f : Word → Exec Bool} {s : State}
    (hf : s.heap.size + words ≤ limits.heapWords → Committed limits i s (f (Int32.ofNat s.heap.size)
      { s with heap := s.heap ++ Array.replicate (max words 1) 0 })) :
    Committed limits i s ((allocate limits words >>= f) s) := by
  by_cases hroom : limits.heapWords < s.heap.size + words
  · have hfull : allocate limits words s
        = .error (.fault (.heapExhausted limits.heapWords)) s := if_pos hroom
    rw [Action.bind_eq_error.mpr (Or.inl hfull)]
    exact ⟨.refl s, rfl⟩
  · have halloc : allocate limits words s = .ok (Int32.ofNat s.heap.size)
        { s with heap := s.heap ++ Array.replicate (max words 1) 0 } := if_neg hroom
    rw [Action.bind_of_ok halloc]
    exact hf (Nat.le_of_not_lt hroom)

theorem committed_ret (s : State) : Committed limits .ret s (ret s) := by
  unfold ret
  split
  · rename_i address hback
    exact (Commit.ret address rfl hback).change
  · rename_i hback
    exact ⟨.refl s, Array.back?_eq_none_iff.mp hback, rfl⟩

/-- **An instruction pops its operands, and then fails, makes one change or ends the run.**  This is
the only walk over all instructions that facts about single runs need. -/
theorem execute_committed (limits : Limits) (i : Instruction) (s : State) :
    Committed limits i s (execute limits i s) := by
  -- in each case the operands are popped from left to right, and the last action is the change
  cases i with
  | load slot => exact (PopsOnly.getLocal _).committed (fun v => (Commits.push v).committed) s
  | loadShort slot => exact (PopsOnly.getLocal _).committed (fun v => (Commits.push v).committed) s
  | store slot => exact PopsOnly.pop.committed (fun v => (Commits.setLocal _ v).committed) s
  | storeShort slot => exact PopsOnly.pop.committed (fun v => (Commits.setLocal _ v).committed) s
  | getStatic n => exact (PopsOnly.getStatic _).committed (fun v => (Commits.push v).committed) s
  | putStatic n => exact PopsOnly.pop.committed (fun v => (Commits.setStatic n v).committed) s
  | getField n =>
    exact PopsOnly.pop.committed (fun base => (PopsOnly.heapIndex base _).committed fun k =>
      (PopsOnly.getHeap k).committed fun v => (Commits.push v).committed) s
  | putField n =>
    exact PopsOnly.pop.committed (fun v => PopsOnly.pop.committed fun base =>
      (PopsOnly.heapIndex base _).committed fun k => (Commits.setHeap k v).committed) s
  | constShort v => exact (Commits.push _).committed s
  | constMinusOne => exact (Commits.push _).committed s
  | const v => exact (Commits.push v).committed s
  | arithmetic op =>
    refine PopsOnly.pop.committed (fun b => PopsOnly.pop.committed fun a => ?_) s
    cases op.apply a b with
    | some v => exact (Commits.push v).committed
    | none => exact committed_fault rfl
  | neg => exact PopsOnly.pop.committed (fun a => (Commits.push (-a)).committed) s
  | new n => exact committed_allocate fun hroom => (Commit.newObject n rfl hroom).change
  | newArray kind =>
    refine PopsOnly.pop.committed (fun length s => ?_) s
    split
    · exact committed_fault rfl s
    · rename_i hlength
      exact committed_allocate fun hroom => (Commit.newArray kind length rfl hlength hroom).change
  | loadElement =>
    exact PopsOnly.pop.committed (fun index => PopsOnly.pop.committed fun base =>
      (PopsOnly.elementIndex base index).committed fun k => (PopsOnly.getHeap k).committed fun v =>
        (Commits.push v).committed) s
  | loadByteElement =>
    exact PopsOnly.pop.committed (fun index => PopsOnly.pop.committed fun base =>
      (PopsOnly.elementIndex base index).committed fun k => (PopsOnly.getHeap k).committed fun v =>
        (Commits.push v).committed) s
  | storeElement =>
    exact PopsOnly.pop.committed (fun v => PopsOnly.pop.committed fun index =>
      PopsOnly.pop.committed fun base => (PopsOnly.elementIndex base index).committed fun k =>
        (Commits.setHeap k v).committed) s
  | storeByteElement =>
    exact PopsOnly.pop.committed (fun v => PopsOnly.pop.committed fun index =>
      PopsOnly.pop.committed fun base => (PopsOnly.elementIndex base index).committed fun k =>
        (Commits.setHeap k _).committed) s
  | arrayLength =>
    exact PopsOnly.pop.committed (fun base => (PopsOnly.heapIndex base 0).committed fun k =>
      (PopsOnly.getHeap k).committed fun v => (Commits.push v).committed) s
  | pop => exact PopsOnly.pop.committed (fun _ => committed_pure) s
  | jump n => exact (Commits.goto rfl).committed s
  | branch test n =>
    -- a branch that is not taken changes nothing but the stack
    refine PopsOnly.pop.committed (fun b => PopsOnly.pop.committed fun a => ?_) s
    cases hholds : test.holds a b with
    | true => exact (Commits.goto rfl).committed
    | false => exact committed_pure
  | call n => exact (Commits.call n).committed s
  | ret => exact committed_ret s
  | enter params size => exact (Commits.enter params size).committed s
  | exit => exact Commits.exit.committed s
  | read => exact PopsOnly.readInteger.committed (fun v => (Commits.push v).committed) s
  | print =>
    exact PopsOnly.pop.committed (fun width => PopsOnly.pop.committed fun v =>
      (Commits.writeField rfl width _).committed) s
  | readByte => exact PopsOnly.readByte.committed (fun v => (Commits.push v).committed) s
  | printByte =>
    exact PopsOnly.pop.committed (fun width => PopsOnly.pop.committed fun v =>
      (Commits.writeField rfl width _).committed) s
  | trap => exact committed_fault rfl s
  | printString n => exact (Commits.printString n).committed s
  | last => exact committed_fault rfl s

/-! ### Steps -/

/-- Code that cannot be fetched has nothing to do with limits, so that a fault tells whether it was
a limit that stopped the run. -/
theorem isLimit_of_fetch {code : Array UInt8} {pc : Nat} {cause : Fault}
    (h : fetch code pc = .error cause) : cause.isLimit = false := by
  rw [fetch] at h
  split at h
  · cases h
    rfl
  · split at h
    · cases h
      rfl
    · cases h
      rfl
    · split at h
      · cases h
        rfl
      · cases h

/-- Why a step executes no instruction: the allowed steps are used up, or there are too many words
on the stack, or there is no instruction at the program counter.  The limits come first, and that on
steps before that on the stack. -/
inductive Prevented (limits : Limits) (code : Array UInt8) (s : State) : Fault → Prop
  | stepLimit (m : Nat) (hmax : limits.maxSteps = some m) (hle : m ≤ s.steps) :
    Prevented limits code s (.stepLimit m)
  | stackLimit (hsteps : ∀ m, limits.maxSteps = some m → s.steps + 1 ≤ m)
    (hstack : limits.maxStack < s.stack.size) :
    Prevented limits code s (.stackLimit limits.maxStack)
  | fetch (cause : Fault) (hallow : limits.Allow (s.steps + 1) s.stack.size)
    (hfetch : Machine.fetch code s.pc = .error cause) : Prevented limits code s cause

/-- **A step counts itself, and is prevented or executes the instruction at the program counter**,
which has moved past it by then. -/
theorem step_cases (limits : Limits) (code : Array UInt8) (s : State) :
    (∃ cause, Prevented limits code s cause ∧
        step limits code s = .error (.fault cause) { s with steps := s.steps + 1 }) ∨
      ∃ i, limits.Allow (s.steps + 1) s.stack.size ∧ fetch code s.pc = .ok i ∧
        step limits code s = execute limits i (s.fetched i) := by
  rcases checkLimits_split limits s with ⟨m, hmax, hle, hcheck⟩ |
    ⟨hsteps, hstack, hcheck⟩ | ⟨hallow, hcheck⟩
  · exact Or.inl ⟨_, .stepLimit m hmax hle, Action.bind_eq_error.mpr (Or.inl hcheck)⟩
  · exact Or.inl ⟨_, .stackLimit hsteps hstack, Action.bind_eq_error.mpr (Or.inl hcheck)⟩
  · cases hfetch : fetch code s.pc with
    | ok i => exact Or.inr ⟨i, hallow, rfl, step_of_fetch hfetch rfl hcheck⟩
    | error cause =>
      have hadvance : advance code { s with steps := s.steps + 1 }
          = .error (.fault cause) { s with steps := s.steps + 1 } := by
        rw [advance, hfetch]
      refine Or.inl ⟨cause, .fetch cause hallow hfetch, ?_⟩
      rw [step, Action.bind_of_ok hcheck, Action.bind_eq_error.mpr (Or.inl hadvance)]

/-- A step executes the instruction at the program counter, which has moved past it. -/
theorem execute_of_step {code : Array UInt8} {s t : State} {goesOn : Bool}
    (h : step limits code s = .ok goesOn t) :
    ∃ i, limits.Allow (s.steps + 1) s.stack.size ∧ fetch code s.pc = .ok i ∧
      execute limits i (s.fetched i) = .ok goesOn t := by
  rcases step_cases limits code s with ⟨_, -, hstop⟩ | ⟨i, hallow, hfetch, hstep⟩
  · cases hstop.symm.trans h
  · exact ⟨i, hallow, hfetch, hstep.symm.trans h⟩

/-- A step after which the machine goes on makes one change.  Invariants of runs are proved from
this and from the cases of a change. -/
theorem change_of_step {code : Array UInt8} {s t : State} (h : step limits code s = .ok true t) :
    ∃ i, limits.Allow (s.steps + 1) s.stack.size ∧ fetch code s.pc = .ok i ∧
      Change limits i (s.fetched i) t := by
  obtain ⟨i, hallow, hfetch, hexecute⟩ := execute_of_step h
  have hcommitted := execute_committed limits i (s.fetched i)
  rw [hexecute] at hcommitted
  exact ⟨i, hallow, hfetch, hcommitted⟩

end Machine
end MJ
