import Mathlib.Data.List.Pairwise
import MJ.Proofs.Access.Execution
import MJ.Proofs.Array.Correctness
import MJ.Proofs.Operands
import MJ.Proofs.Resolution

/-!
# Where the objects come from

The heap is made of objects of the right types from the start, when there are none, and it stays so
when the code that allocates arrays and records is run: new objects are behind all that is there,
and their elements and fields are 0 or the addresses of other new objects.

## Main definitions

* `NewObjects` — objects that are new in a heap.
* `Compiler.EndsIn` — what has been compiled is part of a finished image.
* `PopulatedByCode` — what allocations and assignments to variables do to the objects.

## Main results

* `HeapTyped.extend` — new objects join those that were there.
* `Machine.IsArray.exists_objects` — an array with several dimensions is made of objects.
* `Allocated.populated` — a new array is made of new objects.
* `populatedByCode` — **the objects of a program are of the right types.**
-/

namespace MJ

open Machine

/-! ### New objects -/

/-- Objects that are new in a heap, behind all words of the heap as it was before.  Their elements
and fields refer to no objects but these, and so nothing need be known of the old ones. -/
structure NewObjects (schema : Schema) (news : List Object) (heap heap' : Array Word) : Prop where
  size_le : heap.size ≤ heap'.size
  size : heap'.size ≤ 2147483648
  same : ∀ k, k < heap.size → heap'[k]? = heap[k]?
  inside : ∀ o ∈ news, heap.size ≤ o.address ∧ o.block.stop ≤ heap'.size
  apart : ∀ o ∈ news, ∀ p ∈ news, o ≠ p → o.block.Apart p.block
  length : ∀ o ∈ news, ∀ n, o.length? = some n → heap'[o.address]? = some (Int32.ofNat n)
  cell : ∀ o ∈ news, ∀ k t, o.cell? schema k = some t →
    ∃ w, heap'[o.address + k]? = some w ∧ Suits news t w

section Extension

variable {schema : Schema} {objects news : List Object} {heap heap' : Array Word}

/-- **New objects join those that were there.**  The words of the old objects are the same, and no
word of a new object is one of them. -/
theorem HeapTyped.extend (h : HeapTyped schema objects heap)
    (hnew : NewObjects schema news heap heap') : HeapTyped schema (news ++ objects) heap' := by
  -- all questions about two objects are settled by the old ones standing in front
  have hbefore : ∀ o ∈ news, ∀ p ∈ objects, p.block.stop ≤ o.block.start := by
    intro o ho p hp
    rw [o.start_block]
    exact Nat.le_trans (h.inside p hp).2 (hnew.inside o ho).1
  have hkept : ∀ o ∈ objects, ∀ k, o.address + k < o.block.stop →
      heap'[o.address + k]? = heap[o.address + k]? := by
    intro o ho k hk
    exact hnew.same _ (Nat.lt_of_lt_of_le hk (h.inside o ho).2)
  have hpos := h.pos
  refine ⟨Nat.lt_of_lt_of_le hpos hnew.size_le, hnew.size, fun o ho => ?_,
    fun o ho p hp hne => ?_, fun o ho n hn => ?_, fun o ho k t ht => ?_⟩
  · rcases List.mem_append.mp ho with ho | ho
    · have hinside := hnew.inside o ho
      exact ⟨by omega, hinside.2⟩
    · exact ⟨(h.inside o ho).1, Nat.le_trans (h.inside o ho).2 hnew.size_le⟩
  · rcases List.mem_append.mp ho with ho | ho <;> rcases List.mem_append.mp hp with hp | hp
    · exact hnew.apart o ho p hp hne
    · exact Or.inr (hbefore o ho p hp)
    · exact Or.inl (hbefore p hp o ho)
    · exact h.apart o ho p hp hne
  · rcases List.mem_append.mp ho with ho | ho
    · exact hnew.length o ho n hn
    · rw [← Nat.add_zero o.address, hkept o ho 0 o.address_lt_stop]
      exact h.length o ho n hn
  · rcases List.mem_append.mp ho with ho | ho
    · obtain ⟨w, hw, hsuits⟩ := hnew.cell o ho k t ht
      exact ⟨w, hw, hsuits.mono fun p hp => List.mem_append_left _ hp⟩
    · obtain ⟨w, hw, hsuits⟩ := h.cell o ho k t ht
      refine ⟨w, ?_, hsuits.mono fun p hp => List.mem_append_right _ hp⟩
      rw [hkept o ho k (o.cell_lt_stop ht), hw]

/-- A new record is one new object.  Its fields are 0, which is a value of every type, and it takes
a word even if it has no fields. -/
theorem NewObjects.record (name : String) (fields : List (Field Ty))
    (hsize : heap.size + max fields.length 1 ≤ 2147483648) :
    NewObjects schema [.record heap.size name fields] heap
      (heap ++ Array.replicate (max fields.length 1) 0) := by
  refine ⟨?_, ?_, fun k hk => ?_, fun o ho => ?_, fun o ho p hp hne => ?_, fun o ho n hn => ?_,
    fun o ho k t ht => ?_⟩
  · simp
  · simpa using hsize
  · rw [Array.getElem?_append_left hk]
  · obtain rfl := List.mem_singleton.mp ho
    simp [Object.address, Object.block, Block.stop]
  · rw [List.mem_singleton.mp ho, List.mem_singleton.mp hp] at hne
    exact absurd rfl hne
  · obtain rfl := List.mem_singleton.mp ho
    cases hn
  · obtain rfl := List.mem_singleton.mp ho
    obtain ⟨hk, -⟩ := Option.ite_none_right_eq_some.mp ht
    refine ⟨0, ?_, Suits.zero _ t⟩
    rw [Object.address, Array.getElem?_append_right (Nat.le_add_right _ _), Nat.add_sub_cancel_left,
      Array.getElem?_replicate, if_pos (by omega)]

/-- **An array with several dimensions is made of objects**, one for each of its blocks.  By
induction on how the array is nested; the objects of all elements together with the array itself are
those looked for. -/
theorem Machine.IsArray.exists_objects {lengths : List Nat} {a inner : Nat} {blocks : List Block}
    (h : IsArray heap lengths a blocks) (hlengths : lengths.length = inner + 1) (schema : Schema)
    (base : Ty) : ∃ news : List Object, news.map Object.block = blocks ∧
      Object.array a (lengths.headD 0) inner base ∈ news ∧ ∀ o ∈ news,
        (∀ n, o.length? = some n → heap[o.address]? = some (Int32.ofNat n)) ∧
        ∀ k t, o.cell? schema k = some t →
          ∃ w, heap[o.address + k]? = some w ∧ Suits news t w := by
  induction h generalizing inner with
  | @flat n a hlength hzero =>
    obtain rfl : inner = 0 := by simpa using hlengths.symm
    refine ⟨[.array a n 0 base], rfl, List.mem_singleton_self _, fun o ho => ?_⟩
    obtain rfl := List.mem_singleton.mp ho
    refine ⟨fun m hm => ?_, fun k t ht => ?_⟩
    · cases hm
      exact hlength
    · obtain ⟨hk, -⟩ := Option.ite_none_right_eq_some.mp ht
      obtain ⟨i, rfl⟩ : ∃ i, k = i + 1 := ⟨k - 1, by omega⟩
      exact ⟨0, hzero i (by omega), Suits.zero _ t⟩
  | @nested n m a ns element blocks hlength helement hinner ih =>
    obtain ⟨inner, rfl⟩ : ∃ i, inner = i + 1 := ⟨ns.length, by simpa using hlengths.symm⟩
    have hcount : (m :: ns).length = inner + 1 := by simpa using hlengths
    -- the objects of the elements, below the array itself
    choose! f hblocks htop hrest using fun i hi => ih i hi hcount
    have hmem : ∀ i, i < n → ∀ o ∈ f i, o ∈ (List.range n).flatMap f := fun i hi o ho =>
      List.mem_flatMap.mpr ⟨i, List.mem_range.mpr hi, ho⟩
    refine ⟨.array a n (inner + 1) base :: (List.range n).flatMap f, ?_, List.mem_cons_self,
      fun o ho => ?_⟩
    · rw [List.map_cons, List.map_flatMap]
      exact congrArg _ (List.flatMap_congr fun i hi => hblocks i (List.mem_range.mp hi))
    · rcases List.mem_cons.mp ho with rfl | ho
      · refine ⟨fun l hl => ?_, fun k t ht => ?_⟩
        · cases hl
          exact hlength
        · obtain ⟨hk, ht⟩ := Option.ite_none_right_eq_some.mp ht
          cases ht
          obtain ⟨i, rfl⟩ : ∃ i, k = i + 1 := ⟨k - 1, by omega⟩
          exact ⟨_, helement i (by omega), Suits.ofObject (o := .array (element i) m inner base)
            (List.mem_cons_of_mem _ (hmem i (by omega) _ (htop i (by omega))))⟩
      · obtain ⟨i, hi, ho⟩ := List.mem_flatMap.mp ho
        have hi := List.mem_range.mp hi
        refine ⟨(hrest i hi o ho).1, fun k t ht => ?_⟩
        obtain ⟨w, hw, hsuits⟩ := (hrest i hi o ho).2 k t ht
        exact ⟨w, hw, hsuits.mono fun p hp => List.mem_cons_of_mem _ (hmem i hi p hp)⟩

end Extension

/-! ### The state of a program -/

namespace Machine.State

variable {schema : Schema} {scope : Scope} {objects news : List Object} {s s' : State}

/-- At the start of a program there are no objects, and the variables are 0. -/
theorem populated_start (hheap : s.heap = #[0])
    (hwords : ∀ d ∈ scope.decls, s.read? d = some 0) : s.Populated schema scope [] := by
  have hsize : s.heap.size = 1 := by
    rw [hheap]
    rfl
  refine .of_words ⟨?_, ?_, nofun, nofun, nofun, nofun⟩ fun d hd => ⟨0, hwords d hd, Suits.zero _ _⟩
  · omega
  · omega

/-- An assignment to a variable, of a value of its type, leaves the objects alone.  Other variables
at the same place have the same type, and so the value suits them too. -/
theorem Populated.setWord (h : s.Populated schema scope objects) {d : Decl}
    (hd : d ∈ scope.decls) {v : Word} (hv : Suits objects d.type v) :
    (s.setWord d.region d.slot v).Populated schema scope objects := by
  have hheap : (s.setWord d.region d.slot v).heap = s.heap := by cases d.region <;> rfl
  refine .of_words (hheap ▸ h.typed.heap) fun e he => ?_
  by_cases hsame : (e.region, e.slot) = (d.region, d.slot)
  -- another variable may have the same place, and then it has the same type
  · obtain ⟨hregion, hslot⟩ := Prod.mk.inj hsame
    refine ⟨v, ?_, scope.consistent e he d hd hregion hslot ▸ hv⟩
    rw [read?, hregion, hslot, word?_setWord_self (h.isSome d hd)]
  · refine ⟨s.memory.word e, ?_, h.typed.word e he⟩
    rw [read?, word?_setWord_of_ne v (h.isSome d hd) hsame]
    exact h.read?_eq he

/-- New objects, with all variables as before.  These still have values of their types, since
objects are never taken away. -/
theorem Populated.extend (h : s.Populated schema scope objects)
    (hread : ∀ d ∈ scope.decls, s'.read? d = s.read? d)
    (hnew : NewObjects schema news s.heap s'.heap) :
    s'.Populated schema scope (news ++ objects) := by
  refine .of_words (h.typed.heap.extend hnew) fun d hd => ⟨s.memory.word d, ?_, ?_⟩
  · rw [hread d hd, h.read?_eq hd]
  · exact (h.typed.word d hd).mono fun o ho => List.mem_append_right _ ho

end Machine.State

/-- **A new array is made of new objects**, if no variable is among the words of the frame that its
code uses. -/
theorem Allocated.populated {schema : Schema} {scope : Scope} {objects : List Object} {s s' : State}
    {lengths : List Nat} {below : Array Word} {lo hi inner : Nat}
    (h : Allocated lengths below lo hi s s') (hs : s.Populated schema scope objects)
    (hlengths : lengths.length = inner + 1)
    (hscope : ∀ d ∈ scope.decls, d.isGlobal = false → d.slot < lo) (base : Ty) :
    ∃ news, Object.array s.heap.size (lengths.headD 0) inner base ∈ news ∧
      s'.Populated schema scope (news ++ objects) := by
  obtain ⟨blocks, harray, hapart, hinside⟩ := h.array
  obtain ⟨news, rfl, htop, hnews⟩ := harray.exists_objects hlengths schema base
  refine ⟨news, htop, hs.extend (fun d hd => ?_) ⟨h.spares.size_le, h.heap_le, h.spares.heap,
    fun o ho => ?_, fun o ho p hp hne => ?_, fun o ho => (hnews o ho).1,
    fun o ho => (hnews o ho).2⟩⟩
  · -- the variables of the frame lie below the words that the code for the array uses
    rw [State.read?, State.read?, Decl.region]
    cases hglobal : d.isGlobal with
    | true => rw [if_pos rfl, State.word?, State.word?, h.spares.statics]
    | false =>
      rw [if_neg Bool.false_ne_true]
      exact h.spares.word _ (Or.inl (hscope d hd hglobal))
  · rw [← o.start_block]
    exact hinside o.block (List.mem_map_of_mem ho)
  · have hsymm : Std.Symm fun o p : Object => o.block.Apart p.block := ⟨fun _ _ => Or.symm⟩
    exact (List.pairwise_map.mp hapart).forall ho hp hne

/-! ### Runs of the code -/

open Assembler

/-- What has been compiled ends up in a finished image with less than 65536 bytes of code. -/
def Compiler.EndsIn (c : Compiler) (image : Image) : Prop :=
  ∃ later b b', Assembler.session later c.assembler = .ok () b ∧ finish b = .ok (.ok image) b' ∧
    image.code.length < 65536

/-- The code that was appended last stands in the image. -/
theorem Compiler.EndsIn.codeAt {c : Compiler} {is : List Instruction} {image : Image}
    (h : (c.withAssembler (c.assembler.append is)).EndsIn image) :
    CodeAt image.code.toArray c.assembler.code.size (Code.ofInstructions is) ∧
      c.assembler.code.size + (Code.ofInstructions is).length < 65536 := by
  obtain ⟨later, b, b', hlater, hfinish, hsize⟩ := h
  have hrealized := RealizedBy.of_effects (effects_session hlater) (realizedBy_of_finish hfinish)
  have hend := Nat.lt_of_le_of_lt hrealized.size hsize
  rw [Compiler.assembler_withAssembler, size_append] at hend
  exact ⟨hrealized.codeAt, hend⟩

/-- More code may follow: what was compiled earlier ends up in the same image. -/
theorem Compiler.EndsIn.of_session {c c' : Compiler} {image : Image}
    (later : List Assembler.Command)
    (hsession : Assembler.session later c.assembler = .ok () c'.assembler)
    (h : c'.EndsIn image) : c.EndsIn image := by
  obtain ⟨rest, b, b', hrest, hfinish, hsize⟩ := h
  exact ⟨later ++ rest, b, b', Assembler.session_append.mpr ⟨_, hsession, hrest⟩, hfinish, hsize⟩

theorem newObject_eq_ok {n : Nat} {a b : Assembler} (h : newObject n a = .ok () b) :
    Width.s16.holds (Int32.ofNat n) = true ∧ b = a.append [.new (Int16.ofNat n)] := by
  have hholds := holds_of_emitWith h
  have hinstruction : Instruction.ofOperands .new
      (fun k => (Width.s16.encode (Int32.ofNat n)).getD k 0) = .new (Int16.ofNat n) :=
    Numbered.ofOperands_encode n .new
  have hemit : newObject n a = _ := emitWith_eq rfl hholds a
  rw [hinstruction] at hemit
  exact ⟨hholds, (EStateM.Result.ok.inj (hemit.symm.trans h)).2.symm⟩

theorem allocRecord_eq_ok {name : String} {fields : List (Field Ty)} {span : Span}
    {c c' : Compiler} {r : Except Diagnostic Operand}
    (h : (Compiler.allocRecord (.record name fields) span).run c = .ok r c') :
    r = .ok (.ofType (.record name fields)) ∧
      ∃ a, newObject fields.length c.assembler = .ok () a ∧ c' = c.withAssembler a := by
  obtain ⟨r₁, c₁, hnew, hrest⟩ := Action.bind_eq_ok.mp h
  obtain ⟨_, a, hnew', rfl, rfl⟩ := Checked.assemble_eq_ok.mp hnew
  obtain ⟨rfl, rfl⟩ := EStateM.Result.ok.inj hrest
  exact ⟨rfl, a, hnew', rfl⟩

/-- A new object is behind all that was allocated before, and its address is pushed. -/
theorem Machine.attains_newObject {room : Nat} {code : Array UInt8} {s : State} {n : Nat}
    (hn : n < 65536) (hroom : s.heap.size + n ≤ room)
    (hcode : CodeAt code s.pc (Instruction.new (Int16.ofNat n)).bytes) :
    Attains room code s
      { s.moved (s.pc + 3) (s.stack.push (Int32.ofNat s.heap.size)) with
        heap := s.heap ++ Array.replicate (max n 1) 0 } := by
  refine attains_of_execute hcode Instruction.noConfusion fun limits hlimits k => ?_
  have hfits : ¬ limits.heapWords < s.heap.size + n := by omega
  have hallocate : allocate limits (Instruction.address (Int16.ofNat n))
      { s with steps := k, pc := s.pc + 3 } = .ok (Int32.ofNat s.heap.size) { s with
        steps := k, pc := s.pc + 3, heap := s.heap ++ Array.replicate (max n 1) 0 } := by
    rw [Instruction.address_ofNat, Nat.mod_eq_of_lt hn]
    unfold allocate
    simp only [if_neg hfits]
  exact Action.bind_of_ok hallocate

/-- What the code of a program does to a populated state: it starts without objects, changes
variables, and allocates records and arrays. -/
structure PopulatedByCode (schema : Schema) (scope : Scope) : Prop where
  /-- At the start there are no objects, and all variables are 0. -/
  start : ∀ s : State, s.heap = #[0] → (∀ d ∈ scope.decls, s.read? d = some 0) →
    s.Populated schema scope []
  /-- A variable is set to a value of its type. -/
  set : ∀ (s : State) (objects : List Object) (d : Decl) (v : Word),
    s.Populated schema scope objects → d ∈ scope.decls → Suits objects d.type v →
    (s.setWord d.region d.slot v).Populated schema scope objects
  /-- The code that allocates a record pushes the address of a new object. -/
  record : ∀ (name : String) (fields : List (Field Ty)) (span : Span) (c c' : Compiler)
    (r : Except Diagnostic Operand) (image : Image) (objects : List Object) (s : State)
    (room : Nat),
    (Compiler.allocRecord (.record name fields) span).run c = .ok r c' → c'.EndsIn image →
    s.pc = c.assembler.code.size → s.Populated schema scope objects →
    s.heap.size + fields.length ≤ room → s.heap.size + max fields.length 1 ≤ 2147483648 →
    ∃ (n : Nat) (s' : State),
      RunsWithin room image.code.toArray s n ⟨.unfinished, { s' with steps := s.steps + n }⟩ ∧
      s'.pc = c'.assembler.code.size ∧ s'.stack = s.stack.push (Int32.ofNat s.heap.size) ∧
      s'.Populated schema scope (.record s.heap.size name fields :: objects)
  /-- The code that allocates an array, after the code for its lengths, pushes the address of a new
  object, which comes with the objects that are its elements. -/
  array : ∀ (inner : Nat) (base : Ty) (span : Span) (c c₁ c₂ : Compiler)
    (r : Except Diagnostic Operand) (p : Procedure) (image : Image) (objects : List Object)
    (between : State → State → Prop) (s s₁ : State) (below : Array Word) (lengths slots : List Nat)
    (room : Nat), c.assembler.procedure? = some p → s.pc = c.assembler.code.size →
    Supplied image room between c s below lengths slots c₁ s₁ → lengths.length = inner + 1 →
    (Compiler.allocArray (.array inner base) span).run c₁ = .ok r c₂ → c₂.EndsIn image →
    s.Hosts c₂.assembler → (∀ d ∈ scope.decls, c₁.assembler.Allocates d) →
    s₁.Populated schema scope objects → s₁.heap.size + arrayWords lengths ≤ room →
    s₁.heap.size + arrayWords lengths ≤ 2147483648 →
    ∃ (n : Nat) (s₂ : State) (news : List Object),
      RunsWithin room image.code.toArray s n ⟨.unfinished, { s₂ with steps := s.steps + n }⟩ ∧
      s₂.pc = c₂.assembler.code.size ∧ s₂.stack = below.push (Int32.ofNat s₁.heap.size) ∧
      Object.array s₁.heap.size (lengths.headD 0) inner base ∈ news ∧
      s₂.Populated schema scope (news ++ objects)

/-- **The objects of a program are of the right types**, since all of them are allocated by this
code. -/
theorem populatedByCode (schema : Schema) (scope : Scope) : PopulatedByCode schema scope := by
  constructor
  case start => exact fun s => State.populated_start
  case set => exact fun s objects d v hs hd hv => hs.setWord hd hv
  case record =>
    intro name fields span c c' r image objects s room halloc hends hpc hs hroom hrange
    obtain ⟨rfl, a, hnew, rfl⟩ := allocRecord_eq_ok halloc
    obtain ⟨hholds, rfl⟩ := newObject_eq_ok hnew
    have hpos : 0 < s.heap.size := hs.typed.heap.pos
    have hle : (fields.length : Int) ≤ 65535 := Width.le_of_holds (by omega) hholds
    obtain ⟨hcode, -⟩ := hends.codeAt
    rw [← hpc, Code.ofInstructions_cons, Code.ofInstructions_nil, List.append_nil] at hcode
    let s' : State := { s.moved (s.pc + 3) (s.stack.push (Int32.ofNat s.heap.size)) with
      heap := s.heap ++ Array.replicate (max fields.length 1) 0 }
    have hattains : Attains room image.code.toArray s s' := attains_newObject (by omega) hroom hcode
    have hread : ∀ d ∈ scope.decls, s'.read? d = s.read? d :=
      fun d _ => State.read?_congr rfl rfl d
    have hpopulated : s'.Populated schema scope ([.record s.heap.size name fields] ++ objects) :=
      hs.extend hread (.record name fields hrange)
    obtain ⟨n, hruns⟩ := hattains.runsWithin
    refine ⟨n, s', hruns, ?_, rfl, hpopulated⟩
    rw [Compiler.assembler_withAssembler, size_append, ← hpc]
    rfl
  case array =>
    intro inner base span c c₁ c₂ r p image objects between s s₁ below lengths slots room hopen hpc
      hsupplied hlengths halloc hends hhosts hscope hs hroom hrange
    obtain ⟨later, b, b', hlater, hfinish, hsize⟩ := hends
    have hrealized := RealizedBy.of_effects (effects_session hlater) (realizedBy_of_finish hfinish)
    obtain ⟨-, s₂, q, q', hattains, hpc₂, hq, -, -, hallocated⟩ :=
      hsupplied.attains_allocated hopen hpc hlengths halloc hrealized hsize hhosts hs.typed.heap.pos
        hroom hrange
    -- the counters of the loops are in words of the frame that are no variables
    have hbelow : ∀ d ∈ scope.decls, d.isGlobal = false → d.slot < q.size := by
      intro d hd hglobal
      have hplace := hscope d hd
      rw [Allocates, hglobal, if_neg Bool.false_ne_true, hq] at hplace
      obtain ⟨q', hq', hslot⟩ := hplace
      cases hq'
      exact hslot
    obtain ⟨news, hnew, hpopulated⟩ := hallocated.populated hs hlengths hbelow base
    obtain ⟨n, hruns⟩ := hattains.runsWithin
    exact ⟨n, s₂, news, hruns, hpc₂, hallocated.stack, hnew, hpopulated⟩

end MJ
