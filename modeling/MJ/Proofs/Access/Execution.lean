import MJ.Proofs.Access.Generation

/-!
# Runs of accesses

In a machine whose heap is made of objects of the right types, the code of an expression pushes its
value or faults as the expression does, and the code of an assignment changes the one word that the
assignment is to.  The code of an expression changes no memory, so that it is run in one memory from
its first byte to its last.

## Main definitions

* `Machine.State.memory`, `Machine.State.Populated` — the memory that expressions are about, and
  machines whose memory is well-typed.
* `Machine.State.HasMemory` — the machine has the variables and the heap of a memory.
* `CodeComputes` — code with which the machine arrives with a value on the stack, or faults, at
  whatever address the code stands.
* `Member.index` — how the machine finds an element or a field.

## Main results

* `Member.index_eq` — the machine finds what the meaning says.
* `Phrase.codeComputes` — **the code of an expression pushes its value.**
* `Access.runs_store` — **the code of an assignment changes one word.**
-/

namespace MJ

/-! ### The memory of the machine -/

namespace Machine.State

/-- What the values of expressions depend on.  Variables that have no word are read as 0, which
makes this a memory whatever variables there are. -/
def memory (s : State) : Memory := ⟨fun d => (s.read? d).getD 0, s.heap⟩

/-- The machine has the words of variables, and the heap, that a memory says. -/
structure HasMemory (vars : Vocabulary) (m : Memory) (s : State) : Prop where
  read? : ∀ d, vars.Has d → s.read? d = some (m.word d)
  heap : s.heap = m.heap

/-- The variables of a scope have words, and these and the heap stand for values of the right
types. -/
structure Populated (schema : Schema) (scope : Scope) (objects : List Object) (s : State) :
    Prop where
  isSome : ∀ d ∈ scope.decls, (s.read? d).isSome = true
  typed : s.memory.Typed schema scope objects

variable {schema : Schema} {scope : Scope} {objects : List Object} {s : State}

theorem HasMemory.moved {vars : Vocabulary} {m : Memory} (h : s.HasMemory vars m) (pc : Nat)
    (stack : Array Word) : (s.moved pc stack).HasMemory vars m :=
  ⟨fun d hd => (read?_moved s pc stack d).trans (h.read? d hd), h.heap⟩

@[simp] theorem memory_moved (s : State) (pc : Nat) (stack : Array Word) :
    (s.moved pc stack).memory = s.memory := by
  simp only [memory, read?_moved]
  rfl

theorem Populated.of_words (hheap : HeapTyped schema objects s.heap)
    (hwords : ∀ d ∈ scope.decls, ∃ w, s.read? d = some w ∧ Suits objects d.type w) :
    s.Populated schema scope objects := by
  refine ⟨fun d hd => ?_, hheap, fun d hd => ?_⟩
  · obtain ⟨w, hw, -⟩ := hwords d hd
    rw [hw]
    rfl
  · obtain ⟨w, hw, hsuits⟩ := hwords d hd
    simp only [memory, hw, Option.getD_some]
    exact hsuits

theorem Populated.moved (h : s.Populated schema scope objects) (pc : Nat) (stack : Array Word) :
    (s.moved pc stack).Populated schema scope objects := by
  refine ⟨fun d hd => ?_, ?_⟩
  · rw [read?_moved]
    exact h.isSome d hd
  · rw [memory_moved]
    exact h.typed

theorem Populated.read?_eq (h : s.Populated schema scope objects) {d : Decl}
    (hd : d ∈ scope.decls) : s.read? d = some (s.memory.word d) := by
  obtain ⟨w, hw⟩ := Option.isSome_iff_exists.mp (h.isSome d hd)
  simp only [memory, hw, Option.getD_some]

theorem Populated.hasMemory (h : s.Populated schema scope objects) :
    s.HasMemory scope.vocabulary s.memory :=
  ⟨fun _ hd => h.read?_eq hd, rfl⟩

/-- What an action that only looks at the machine gives: it leaves the state alone, also if it
faults. -/
def answer {α : Type} (s : State) : Except Fault α → EStateM.Result Stop State α
  | .ok v => .ok v s
  | .error cause => .error (.fault cause) s

end Machine.State

open Machine

/-! ### Elements and fields -/

namespace Member

/-- How the machine finds an element or a field. -/
def index : Member → Exec Nat
  | element base index => elementIndex base index
  | field base offset => heapIndex base (Int32.ofNat offset)

/-- The words on the stack that an element or a field is found by. -/
def push (stack : Array Word) : Member → Array Word
  | element base index => (stack.push base).push index
  | field base _ => stack.push base

/-- The instruction that loads an element or a field. -/
def loadInstruction : Member → Instruction
  | element _ _ => .loadElement
  | field _ offset => .getField (Int16.ofNat offset)

/-- The instruction that stores an element or a field. -/
def storeInstruction : Member → Instruction
  | element _ _ => .storeElement
  | field _ offset => .putField (Int16.ofNat offset)

/-- An instruction can name the field, unless there is no object that it is in.  For null the fault
comes before the number of the field is looked at. -/
def IsNameable : Member → Prop
  | element _ _ => True
  | field base offset => base = 0 ∨ offset < 65536

variable {schema : Schema} {objects : List Object} {s : State} {x : Member} {whole part : Ty}
  {stack : Array Word} {code : Array UInt8}

/-- **The machine finds what the meaning says**, and faults if there is nothing.  The machine checks
addresses against the size of the heap; in a well-typed heap this check never fails. -/
theorem index_eq (h : HeapTyped schema objects s.heap) (hx : x.Typed schema objects whole part) :
    x.index s = s.answer (x.place s.heap) := by
  cases hx with
  | @element t base i ht hbase =>
    by_cases hnull : base = 0
    · rw [place, if_pos hnull]
      refine Action.bind_eq_error.mpr (.inl ?_)
      rw [heapIndex, if_pos hnull]
    · -- the length is read first, and the index is compared with it
      obtain ⟨a, n, inner, b, ho, -, rfl, hstop, hlength⟩ := h.array_of_suits ht hbase hnull
      have ha : 0 < a := (h.inside _ ho).1
      have hsize := h.size
      have hfirst : heapIndex (Int32.ofNat a) 0 s = .ok a s :=
        heapIndex_ofNat (k := 0) ha (by omega) hsize
      simp only [place, if_neg hnull, toNat_ofNat (n := a) (by omega),
        Array.getD_eq_getD_getElem?, hlength, Option.getD_some]
      -- inside of the array all sums of addresses are small, and words are added like numbers
      by_cases houtside : i < 0 ∨ Int32.ofNat n ≤ i
      · rw [if_pos houtside, index, elementIndex, Action.bind_of_ok hfirst,
          Action.bind_of_ok (getHeap_of_getElem? hlength), if_pos houtside]
        rfl
      · rw [if_neg houtside]
        obtain ⟨hnonneg, hlt⟩ := not_or.mp houtside
        obtain ⟨k, hk, rfl⟩ := exists_ofNat hnonneg
        rw [ofNat_le_ofNat (by omega) hk] at hlt
        rw [toNat_ofNat hk]
        exact elementIndex_ofNat ha hlength (by omega) (by omega) (by omega) hsize
  | @field t base name ht hbase =>
    obtain ⟨rname, fields, found, rfl, hnumbered, hfound, -⟩ := ht
    obtain ⟨-, hlt⟩ := Ty.offset_of_numbered hnumbered hfound
    by_cases hnull : base = 0
    · rw [place, if_pos hnull, index, heapIndex, if_pos hnull]
      rfl
    · obtain ⟨a, gs, ho, -, rfl, hstop⟩ := h.record_of_suits hbase hnull
      have ha : a < 2147483648 := h.address_lt ho
      rw [place, if_neg hnull, toNat_ofNat ha]
      exact heapIndex_ofNat (h.inside _ ho).1 (by omega) h.size

theorem index_of_ok (h : HeapTyped schema objects s.heap) (hx : x.Typed schema objects whole part)
    {k : Nat} (hplace : x.place s.heap = .ok k) : x.index s = .ok k s := by
  rw [index_eq h hx, hplace]
  rfl

theorem index_of_error (h : HeapTyped schema objects s.heap)
    (hx : x.Typed schema objects whole part) {cause : Fault}
    (hplace : x.place s.heap = .error cause) : x.index s = .error (.fault cause) s := by
  rw [index_eq h hx, hplace]
  rfl

theorem storeInstruction_heap (n : Nat) :
    Region.heap.storeInstruction (Int32.ofNat n) = .putField (Int16.ofNat n) := by
  rw [Region.storeInstruction, Region.offsetWidth, Width.encode_s16_ofNat,
    ← Instruction.bytes_ofNat, BigEndian.bytes_two]
  exact congrArg Instruction.putField (Instruction.half_bytes _)

theorem heapIndex_unsigned {base : Word} {n : Nat} (h : base = 0 ∨ n < 65536) :
    heapIndex base (unsigned (Int16.ofNat n)) = heapIndex base (Int32.ofNat n) := by
  rcases h with hnull | hlt
  -- the null object is refused before the offset is looked at
  · funext s
    rw [heapIndex, heapIndex, if_pos hnull, if_pos hnull]
  · rw [unsigned, Instruction.address_ofNat, Nat.mod_eq_of_lt hlt]

/-- The number of a field of an object fits an operand if it is accepted as one.  Without an object
a number could be large and still look small as a word. -/
theorem isNameable_field {heap : Array Word} (h : HeapTyped schema objects heap) {t : Ty}
    {name : String} (ht : t.HasField schema name) {base : Word} (hbase : Suits objects t base)
    (hholds : Region.heap.offsetWidth.holds (Int32.ofNat (t.fieldOffset name)) = true) :
    (field base (t.fieldOffset name)).IsNameable := by
  obtain ⟨rname, fields, found, rfl, hnumbered, hfound, -⟩ := ht
  obtain ⟨-, hlt⟩ := Ty.offset_of_numbered hnumbered hfound
  by_cases hnull : base = 0
  · exact .inl hnull
  -- the object is on the heap, so that the offset is a number that operands are compared with
  · obtain ⟨a, gs, -, -, -, hstop⟩ := h.record_of_suits hbase hnull
    have hsize := h.size
    have hle : (Ty.fieldOffset name (.record rname fields) : Int) ≤ 65535 :=
      Width.le_of_holds (by omega) hholds
    exact .inr (by omega)

theorem execute_load (hname : x.IsNameable) (hstack : s.stack = x.push stack) (limits : Limits) :
    execute limits x.loadInstruction s
      = (do Machine.push (← getHeap (← x.index)); return true : Exec Bool)
        { s with stack := stack } := by
  cases x with
  | element base i => exact pop_pop_push hstack _
  | field base offset =>
    refine (Action.bind_of_ok (pop_push hstack)).trans ?_
    rw [heapIndex_unsigned hname]
    rfl

theorem execute_store {v : Word} (hname : x.IsNameable) (hstack : s.stack = (x.push stack).push v)
    (limits : Limits) :
    execute limits x.storeInstruction s
      = (do setHeap (← x.index) v; return true : Exec Bool) { s with stack := stack } := by
  cases x with
  | element base i =>
    refine (Action.bind_of_ok (pop_push hstack)).trans ?_
    exact pop_pop_push rfl _
  | field base offset =>
    refine (Action.bind_of_ok (pop_push hstack)).trans ?_
    refine (Action.bind_of_ok (pop_push rfl)).trans ?_
    rw [heapIndex_unsigned hname]
    rfl

theorem computes_load (h : HeapTyped schema objects s.heap)
    (hx : x.Typed schema objects whole part) (hname : x.IsNameable)
    (hstack : s.stack = x.push stack) (hcode : CodeAt code s.pc x.loadInstruction.bytes) :
    Computes code s stack (s.pc + x.loadInstruction.size) stack.push
      (do let k ← x.place s.heap; .ok (s.heap.getD k 0)) := by
  have hlast : x.loadInstruction ≠ .last := by cases x <;> exact Instruction.noConfusion
  cases hplace : x.place s.heap with
  | ok k =>
    refine reaches_of_execute hcode hlast fun limits steps => ?_
    refine (execute_load hname (by exact hstack) limits).trans ?_
    refine (Action.bind_of_ok (index_of_ok (by exact h) hx (by exact hplace))).trans ?_
    rfl
  | error cause =>
    refine Faults.above (s.pc + x.loadInstruction.size) ?_
    refine stops_of_execute hcode hlast fun limits steps => ?_
    refine (execute_load hname (by exact hstack) limits).trans ?_
    exact Action.bind_eq_error.mpr (.inl (index_of_error (by exact h) hx (by exact hplace)))

theorem reaches_store {v : Word} {k : Nat} (h : HeapTyped schema objects s.heap)
    (hx : x.Typed schema objects whole part) (hname : x.IsNameable)
    (hstack : s.stack = (x.push stack).push v) (hplace : x.place s.heap = .ok k)
    (hcode : CodeAt code s.pc x.storeInstruction.bytes) :
    Reaches code s { s.moved (s.pc + x.storeInstruction.size) stack with
      heap := s.heap.setIfInBounds k v } := by
  have hlast : x.storeInstruction ≠ .last := by cases x <;> exact Instruction.noConfusion
  refine reaches_of_execute hcode hlast fun limits steps => ?_
  refine (execute_store hname (by exact hstack) limits).trans ?_
  refine (Action.bind_of_ok (index_of_ok (by exact h) hx (by exact hplace))).trans ?_
  rfl

theorem faults_store {v : Word} {cause : Fault} (h : HeapTyped schema objects s.heap)
    (hx : x.Typed schema objects whole part) (hname : x.IsNameable)
    (hstack : s.stack = (x.push stack).push v) (hplace : x.place s.heap = .error cause)
    (hcode : CodeAt code s.pc x.storeInstruction.bytes) :
    Faults code cause s (s.moved (s.pc + x.storeInstruction.size) stack) := by
  have hlast : x.storeInstruction ≠ .last := by cases x <;> exact Instruction.noConfusion
  refine stops_of_execute hcode hlast fun limits steps => ?_
  refine (execute_store hname (by exact hstack) limits).trans ?_
  exact Action.bind_eq_error.mpr (.inl (index_of_error (by exact h) hx (by exact hplace)))

/-- A fault may leave the object and the index on the stack. -/
theorem computes_below {α : Type} {next : Nat} {leave : α → Array Word} {r : Except Fault α}
    (h : Computes code s (x.push stack) next leave r) : Computes code s stack next leave r := by
  cases x with
  | element base i => exact h.below.below
  | field base offset => exact h.below

end Member

/-- The length of an array is loaded, or there is no array and the machine faults. -/
theorem computes_arrayLength {schema : Schema} {objects : List Object} {s : State} {t : Ty}
    {base : Word} {stack : Array Word} {code : Array UInt8} (h : HeapTyped schema objects s.heap)
    (ht : t.isArray = true) (hbase : Suits objects t base) (hstack : s.stack = stack.push base)
    (hcode : CodeAt code s.pc Instruction.arrayLength.bytes) :
    Computes code s stack (s.pc + 1) stack.push
      (do let k ← (Member.field base 0).place s.heap; .ok (s.heap.getD k 0)) := by
  by_cases hnull : base = 0
  · rw [Member.place, if_pos hnull]
    refine Faults.above (s.pc + 1) ?_
    refine stops_of_execute hcode Instruction.noConfusion fun limits steps => ?_
    refine (Action.bind_of_ok (pop_push (by exact hstack))).trans ?_
    refine Action.bind_eq_error.mpr (.inl ?_)
    rw [heapIndex, if_pos hnull]
    rfl
  · obtain ⟨a, n, inner, b, ho, -, rfl, hstop, hlength⟩ := h.array_of_suits ht hbase hnull
    have hpos : 0 < a := (h.inside _ ho).1
    have hsize := h.size
    rw [Member.place, if_neg hnull, toNat_ofNat (by omega)]
    refine reaches_of_execute hcode Instruction.noConfusion fun limits steps => ?_
    refine (Action.bind_of_ok (pop_push (by exact hstack))).trans ?_
    have hlt : a + 0 < s.heap.size := by omega
    refine (Action.bind_of_ok (heapIndex_ofNat hpos (by exact hlt) (by exact hsize))).trans ?_
    rfl

/-! ### Expressions -/

/-- Code computes a value at whatever address it stands, in a machine with a given memory. -/
def CodeComputes {α : Type} (code : Array UInt8) (vars : Vocabulary) (m : Memory)
    (is : Nat → List Instruction) (leave : Array Word → α → Array Word) (r : Except Fault α) :
    Prop :=
  ∀ s : State, s.HasMemory vars m → CodeAt code s.pc (Code.ofInstructions (is s.pc)) →
    s.pc + (Code.ofInstructions (is s.pc)).length < 65536 →
    Computes code s s.stack (s.pc + (Code.ofInstructions (is s.pc)).length) (leave s.stack) r

section Code

variable {α : Type} {code : Array UInt8} {vars : Vocabulary} {m : Memory}

theorem CodeComputes.pair {x y op : Nat → List Instruction} {leave : Array Word → α → Array Word}
    {ra rb : Except Fault Word} {f : Word → Word → Except Fault α}
    (hx : CodeComputes code vars m x Array.push ra)
    (hy : CodeComputes code vars m y Array.push rb)
    (hop : ∀ (s : State) (stack : Array Word) (a b : Word), s.HasMemory vars m → ra = .ok a →
      rb = .ok b → s.stack = (stack.push a).push b →
      CodeAt code s.pc (Code.ofInstructions (op s.pc)) →
      s.pc + (Code.ofInstructions (op s.pc)).length < 65536 →
      Computes code s stack (s.pc + (Code.ofInstructions (op s.pc)).length) (leave stack)
        (f a b)) :
    CodeComputes code vars m (fun base => pairCode base (x base) y op) leave
      (do f (← ra) (← rb)) := by
  intro s hs hcode hend
  obtain ⟨k, n, hk, hn, hlength, hcodex, hcodey, hcodeop⟩ := codeAt_pairCode hcode
  rw [hlength] at hend ⊢
  refine .pair (m := k) (n := n) (hk ▸ hx s hs hcodex (by omega)) (fun stack => ?_)
    fun a b ha hb => ?_
  · exact hn ▸ hy (s.moved k stack) (hs.moved k stack) hcodey (by rw [pc_moved]; omega)
  · exact hop (s.moved n ((s.stack.push a).push b)) s.stack a b (hs.moved _ _) ha hb rfl hcodeop
      hend

/-- An operand and the instructions that follow it.  If the operand faults, these are never reached,
and the whole faults alike. -/
theorem CodeComputes.then {x : Nat → List Instruction} {is : List Instruction}
    {ra : Except Fault Word} {f : Word → Except Fault Word}
    (hx : CodeComputes code vars m x Array.push ra)
    (hop : ∀ (s : State) (stack : Array Word) (a : Word), s.HasMemory vars m → ra = .ok a →
      s.stack = stack.push a → CodeAt code s.pc (Code.ofInstructions is) →
      Computes code s stack (s.pc + (Code.ofInstructions is).length) stack.push (f a)) :
    CodeComputes code vars m (fun base => x base ++ is) Array.push (do f (← ra)) := by
  intro s hs hcode hend
  simp only [Code.ofInstructions_append, codeAt_append, List.length_append, ← Nat.add_assoc]
    at hcode hend ⊢
  refine (hx s hs hcode.1 (by omega)).bind fun a ha => ?_
  exact hop _ s.stack a (hs.moved _ _) ha rfl hcode.2

theorem codeComputes_ofConst (v : Word) :
    CodeComputes code vars m (fun _ => [.ofConst v]) Array.push (.ok v) := by
  intro s _ hcode _
  rw [Code.ofInstructions_cons, Code.ofInstructions_nil, List.append_nil] at hcode ⊢
  rw [Instruction.length_bytes]
  exact reaches_ofConst hcode

/-- The code of a variable pushes its word. -/
theorem codeComputes_load {d : Decl} (hd : vars.Has d) (hnonneg : 0 ≤ d.offset.toInt)
    (ha : d.IsAddressable) :
    CodeComputes code vars m (fun _ => [d.region.loadInstruction d.offset]) Array.push
      (.ok (m.word d)) := by
  intro s hs hcode _
  have hslot := Decl.ofNat_slot hnonneg
  rw [Decl.IsAddressable, ← hslot] at ha
  rw [← hslot, Code.ofInstructions_cons, Code.ofInstructions_nil, List.append_nil] at hcode ⊢
  rw [Instruction.length_bytes]
  exact reaches_load ha (Decl.slot_lt d) (hs.read? d hd) hcode

/-- **The code of an expression pushes its value**, or faults as the expression does.  By induction
on the expression, in a fixed memory: code of expressions changes the stack and nothing else. -/
theorem Phrase.codeComputes {schema : Schema} {objects : List Object} {e : Phrase}
    (hnonneg : ∀ d, vars.Has d → 0 ≤ d.offset.toInt) (he : e.Typed schema vars)
    (hm : m.Serves schema vars objects e) (ha : e.Addressable) :
    CodeComputes code vars m (fun base => e.code base) Array.push (e.eval m) := by
  induction e with
  | int v => exact codeComputes_ofConst v
  | bool b => exact codeComputes_ofConst (boolWord b)
  | var d => exact codeComputes_load he (hnonneg d he) ha
  | unary op span x ih =>
    have hmx := hm.part (x := x) id
    refine (ih he.1 hmx ha).then fun s stack a _ hav hstack hcode => ?_
    have hsuits := eval_suits hmx he.1 hav
    rw [he.2] at hsuits
    -- truth values are 0 or 1, so that the word is the one that stands for its value
    rw [← hsuits.word_ofWord] at hstack
    exact computes_unary hstack hcode
  | binary op span x y ihx ihy =>
    have hmx := hm.part (x := x) And.left
    have hmy := hm.part (x := y) And.right
    refine (ihx he.1.1 hmx ha.1).pair (ihy he.2.1 hmy ha.2)
      fun s stack a b _ hav hbv hstack hcode hend => ?_
    have hsuitsx := eval_suits hmx he.1.1 hav
    have hsuitsy := eval_suits hmy he.2.1 hbv
    rw [he.1.2] at hsuitsx
    rw [he.2.2] at hsuitsy
    rw [← hsuitsx.word_ofWord, ← hsuitsy.word_ofWord] at hstack
    exact computes_binary hstack hcode hend
  | relation op span x y ihx ihy =>
    exact (ihx he.1.1 (hm.part And.left) ha.1).pair (ihy he.2.1 (hm.part And.right) ha.2)
      fun s stack a b _ _ _ hstack hcode hend =>
        computes_compare (holds_relation op a b) hstack hcode hend
  | equality op span x y ihx ihy =>
    obtain ⟨t, ⟨hx, -⟩, hy, -⟩ := he
    exact (ihx hx (hm.part And.left) ha.1).pair (ihy hy (hm.part And.right) ha.2)
      fun s stack a b _ _ _ hstack hcode hend =>
        computes_compare (holds_equality op a b) hstack hcode hend
  | element array index span iharray ihindex =>
    have hheap := hm.heap.resolve_left id
    have hma := hm.part (x := array) False.elim
    refine (iharray he.1.1 hma ha.1).pair (ihindex he.2.1 (hm.part False.elim) ha.2)
      fun s stack base i hs hbase _ hstack hcode _ => ?_
    rw [Code.ofInstructions_cons, Code.ofInstructions_nil, List.append_nil] at hcode ⊢
    rw [← hs.heap] at hheap ⊢
    exact Member.computes_load (x := .element base i) hheap
      (.element i he.1.2 (eval_suits hma he.1.1 hbase)) trivial hstack hcode
  | field record name span ih =>
    have hheap := hm.heap.resolve_left id
    have hmr := hm.part (x := record) False.elim
    refine (ih he.1 hmr ha.1).then fun s stack base hs hbase hstack hcode => ?_
    have hsuits := eval_suits hmr he.1 hbase
    rw [Code.ofInstructions_cons, Code.ofInstructions_nil, List.append_nil,
      loadInstruction_heap] at hcode ⊢
    rw [← hs.heap] at hheap ⊢
    exact Member.computes_load hheap (.field he.2 hsuits)
      (Member.isNameable_field hheap he.2 hsuits ha.2) hstack hcode
  | length array span ih =>
    have hheap := hm.heap.resolve_left id
    have hma := hm.part (x := array) False.elim
    refine (ih he.1 hma ha).then fun s stack base hs hbase hstack hcode => ?_
    rw [← hs.heap] at hheap ⊢
    exact computes_arrayLength hheap he.2 (eval_suits hma he.1 hbase) hstack hcode

end Code

/-! ### Assignments -/

namespace Access

variable {schema : Schema} {scope : Scope} {objects : List Object} {code : Array UInt8} {x : Access}
  {e : Phrase} {s : State} {t : Member}

/-- The code before an element or field is loaded or stored pushes what it is found by. -/
theorem codeComputes_member {m : Memory} (hx : x.phrase.WellTyped schema scope)
    (hm : m.Typed schema scope objects) (ha : x.phrase.Addressable) :
    CodeComputes code scope.vocabulary m (fun base => x.code base) (fun stack t => t.push stack)
      (x.member m) := by
  cases x with
  | element array index span =>
    show CodeComputes code scope.vocabulary m (fun b => pairCode b (array.code b)
      (fun b => index.code b) fun _ => []) (fun stack t => t.push stack)
      (do Except.ok (Member.element (← array.eval m) (← index.eval m)))
    refine (Phrase.codeComputes scope.nonneg hx.1.1 (hm.serves array) ha.1).pair
      (Phrase.codeComputes scope.nonneg hx.2.1 (hm.serves index) ha.2)
      fun s stack base i _ _ _ hstack _ _ => ?_
    show Reaches code s (s.moved s.pc ((stack.push base).push i))
    rw [← hstack, moved_self]
    exact .refl s
  | field record name span =>
    intro s hs hcode hend
    refine (Phrase.codeComputes scope.nonneg hx.1 (hm.serves record) ha.1 s hs hcode hend).bind
      fun base hbase => ?_
    exact Reaches.refl _

/-- The instruction of an assignment stores the element or field. -/
theorem storeInstruction_eq {m : Memory} (h : x.member m = .ok t) :
    x.storeInstruction = t.storeInstruction := by
  cases x with
  | element array index span =>
    obtain ⟨base, i, -, -, rfl⟩ := of_member_element h
    rfl
  | field record name span =>
    obtain ⟨base, -, rfl⟩ := of_member_field h
    exact Member.storeInstruction_heap _

theorem isNameable_member {m : Memory} (hm : m.Typed schema scope objects)
    (hx : x.phrase.WellTyped schema scope) (ha : x.phrase.Addressable) (h : x.member m = .ok t) :
    t.IsNameable := by
  cases x with
  | element array index span =>
    obtain ⟨base, i, -, -, rfl⟩ := of_member_element h
    trivial
  | field record name span =>
    obtain ⟨base, hbase, rfl⟩ := of_member_field h
    exact Member.isNameable_field hm.heap hx.2
      (Phrase.eval_suits (hm.serves record) hx.1 hbase) ha.2

/-- The code of an assignment up to the last instruction, which finds the value above the object.
The operands are the object with its index, and the value, in this order. -/
theorem computes_operands (hx : x.phrase.WellTyped schema scope) (hxa : x.phrase.Addressable)
    (he : e.WellTyped schema scope) (hea : e.Addressable) (hs : s.Populated schema scope objects)
    (hcode : CodeAt code s.pc (Code.ofInstructions (x.storeCode s.pc e)))
    (hend : s.pc + (Code.ofInstructions (x.storeCode s.pc e)).length < 65536) :
    ∃ n, s.pc + (Code.ofInstructions (x.storeCode s.pc e)).length = n + x.storeInstruction.size ∧
      CodeAt code n x.storeInstruction.bytes ∧
      Computes code s s.stack n (fun p : Member × Word => (p.1.push s.stack).push p.2)
        (do let t ← x.member s.memory; let v ← e.eval s.memory; .ok (t, v)) := by
  obtain ⟨m, n, hm, hn, hlength, hcodex, hcodey, hcodeop⟩ := codeAt_pairCode hcode
  rw [storeCode] at hend
  rw [hlength] at hend
  rw [Code.ofInstructions_cons, Code.ofInstructions_nil, List.append_nil] at hlength hcodeop hend
  refine ⟨n, hlength.trans (by rw [Instruction.length_bytes]), hcodeop, ?_⟩
  have hendx : s.pc + (Code.ofInstructions (x.code s.pc)).length < 65536 := by omega
  have hendy : m + (Code.ofInstructions (e.code m)).length < 65536 := by omega
  refine (codeComputes_member hx hs.typed hxa s hs.hasMemory hcodex hendx).bind fun t ht => ?_
  rw [← hm]
  have hsecond := Phrase.codeComputes scope.nonneg he (hs.typed.serves e) hea
    (s.moved m (t.push s.stack)) (hs.hasMemory.moved _ _) hcodey hendy
  rw [pc_moved, ← hn] at hsecond
  exact (Member.computes_below hsecond).bind fun v _ => Reaches.refl _

/-- **The code of an assignment changes one word.**  It faults if the object, the index or the value
does, and then if there is no such element or field. -/
theorem runs_store (hx : x.phrase.WellTyped schema scope) (hxa : x.phrase.Addressable)
    (he : e.WellTyped schema scope) (hea : e.Addressable) (hs : s.Populated schema scope objects)
    (hcode : CodeAt code s.pc (Code.ofInstructions (x.storeCode s.pc e)))
    (hend : s.pc + (Code.ofInstructions (x.storeCode s.pc e)).length < 65536) :
    (∀ cause, x.member s.memory = .error cause → FaultsAbove code s.stack cause s) ∧
    ∀ t, x.member s.memory = .ok t →
      (∀ cause, e.eval s.memory = .error cause → FaultsAbove code s.stack cause s) ∧
      ∀ v, e.eval s.memory = .ok v →
        (∀ cause, t.place s.heap = .error cause → FaultsAbove code s.stack cause s) ∧
        ∀ k, t.place s.heap = .ok k → Reaches code s
          { s.moved (s.pc + (Code.ofInstructions (x.storeCode s.pc e)).length) s.stack with
            heap := s.heap.setIfInBounds k v } := by
  obtain ⟨n, hlength, hcodeop, hoperands⟩ := computes_operands hx hxa he hea hs hcode hend
  refine ⟨fun cause h => ?_, fun t hmember => ⟨fun cause h => ?_, fun v heval => ?_⟩⟩
  · rw [h] at hoperands
    exact hoperands
  · rw [hmember, h] at hoperands
    exact hoperands
  · rw [hmember, heval] at hoperands
    -- the operands are on the stack, and the last instruction is left
    have hpushed : Reaches code s (s.moved n ((t.push s.stack).push v)) := hoperands
    have htyped := member_typed hs.typed hx hmember
    have hname := isNameable_member hs.typed hx hxa hmember
    have hheap : HeapTyped schema objects (s.moved n ((t.push s.stack).push v)).heap :=
      hs.typed.heap
    rw [hlength, storeInstruction_eq hmember]
    rw [storeInstruction_eq hmember] at hcodeop
    refine ⟨fun cause hplace => ?_, fun k hplace => ?_⟩
    · have hfaults := Member.faults_store hheap htyped hname rfl hplace hcodeop
      exact Faults.above _ (hpushed.stops hfaults)
    · exact hpushed.trans (Member.reaches_store hheap htyped hname rfl hplace hcodeop)

end Access
end MJ
