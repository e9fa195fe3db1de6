import MJ.Proofs.Access.Allocation

/-!
# What is stored in an element or field is read from it

A compiled assignment to an element or a field changes the one word that it names.  Elements and
fields are read by the code that loads them: after the assignment the one that was assigned to has
the new value, and all others have the values that they had.

## Main definitions

* `Machine.Arrives`, `Machine.FaultsIn` — how runs of an image end.
* `Access.Reads`, `Access.ReadFaults` — what the code that loads an element or a field does.

## Main results

* `Phrase.computes_load` — compiled expressions in a finished image.
* `Access.populated_after` — what an assignment does to the objects on the heap.
* `Access.reads_after`, `Access.reads_back` — what is read after it.
* `Access.store_load` — **stored values are read back, and others are not changed.**
-/

namespace MJ

open Machine Assembler Compiler

/-! ### Runs of an image -/

namespace Machine

/-- A run arrives in a state, apart from the number of steps. -/
def Arrives (image : Image) (s s' : State) : Prop :=
  ∃ n, RunsTo image.code.toArray s n ⟨.unfinished, { s' with steps := s.steps + n }⟩

/-- A run faults.  Nothing has changed but the program counter, and words above those that were on
the evaluation stack. -/
def FaultsIn (image : Image) (s : State) (cause : Fault) : Prop :=
  ∃ n pc pc' extra, RunsTo image.code.toArray s n ⟨.stopped pc (.fault cause), { s with
    pc := pc', stack := s.stack ++ extra, steps := s.steps + n }⟩

variable {image : Image} {s s' : State} {cause : Fault}

theorem Reaches.arrives (h : Reaches image.code.toArray s s') : Arrives image s s' := h.runsTo

theorem FaultsAbove.faultsIn (h : FaultsAbove image.code.toArray s.stack cause s) :
    FaultsIn image s cause := by
  obtain ⟨pc', extra, hfaults⟩ := h
  obtain ⟨n, pc, hruns⟩ := hfaults.runsTo
  exact ⟨n, pc, pc', extra, hruns⟩

end Machine

section Loads

variable {schema : Schema} {scope : Scope} {objects : List Object} {image : Image} {c c' : Compiler}
  {s : State} {r : Except Diagnostic Operand}

/-- **The code of an expression pushes its value in every finished image.**  Nothing is asked of the
operand that the compiler gives: code that was written is code of an addressable expression. -/
theorem Phrase.computes_load {e : Phrase} (he : e.WellTyped schema scope)
    (hload : e.load.run c = .ok r c') (hends : c'.EndsIn image)
    (hs : s.Populated schema scope objects) (hpc : s.pc = c.assembler.code.size) :
    Computes image.code.toArray s s.stack c'.assembler.code.size s.stack.push
      (e.eval s.memory) := by
  have haddressable := ((needs he).load hload).1
  obtain ⟨x, hcompiled, -⟩ := (delivers he haddressable).load c
  obtain ⟨-, rfl⟩ := EStateM.Result.ok.inj (hcompiled.symm.trans hload)
  obtain ⟨hcode, hend⟩ := hends.codeAt
  rw [assembler_withAssembler, size_append]
  rw [← hpc] at hcode hend ⊢
  exact codeComputes scope.nonneg he (hs.typed.serves e) haddressable s hs.hasMemory hcode hend

/-- Expressions can be loaded just if instructions can name all that they have to, whatever has been
compiled before them. -/
theorem Phrase.addressable_iff_load {e : Phrase} (he : e.WellTyped schema scope) (c : Compiler) :
    e.Addressable ↔ ∃ x c', e.load.run c = .ok (.ok x) c' := by
  constructor
  · intro h
    obtain ⟨x, hload, -⟩ := (delivers he h).load c
    exact ⟨x, _, hload⟩
  · rintro ⟨x, c', hload⟩
    exact ((needs he).load hload).1

/-- Wherever an image has the code that loads an element or a field, a run of it pushes a word.  The
code may be at several addresses, and the program counter is set to the first byte of it. -/
def Access.Reads (x : Access) (image : Image) (s : State) (w : Word) : Prop :=
  ∀ c r c', x.phrase.load.run c = .ok r c' → c'.EndsIn image →
    Arrives image { s with pc := c.assembler.code.size }
      { s with pc := c'.assembler.code.size, stack := s.stack.push w }

/-- Wherever an image has the code that loads an element or a field, a run of it faults. -/
def Access.ReadFaults (x : Access) (image : Image) (s : State) (cause : Fault) : Prop :=
  ∀ c r c', x.phrase.load.run c = .ok r c' → c'.EndsIn image →
    FaultsIn image { s with pc := c.assembler.code.size } cause

variable {x : Access}

theorem Access.reads_of_eval (hx : x.phrase.WellTyped schema scope)
    (hs : s.Populated schema scope objects) {w : Word} (h : x.phrase.eval s.memory = .ok w) :
    x.Reads image s w := by
  intro c r c' hload hends
  have hcomputes := Phrase.computes_load hx hload hends
    (hs.moved c.assembler.code.size s.stack) rfl
  rw [State.memory_moved, h] at hcomputes
  exact Reaches.arrives hcomputes

theorem Access.readFaults_of_eval (hx : x.phrase.WellTyped schema scope)
    (hs : s.Populated schema scope objects) {cause : Fault}
    (h : x.phrase.eval s.memory = .error cause) : x.ReadFaults image s cause := by
  intro c r c' hload hends
  have hcomputes := Phrase.computes_load hx hload hends
    (hs.moved c.assembler.code.size s.stack) rfl
  rw [State.memory_moved, h] at hcomputes
  exact FaultsAbove.faultsIn hcomputes

end Loads

/-! ### What an assignment does -/

namespace Access

variable {schema : Schema} {scope : Scope} {objects : List Object} {s : State} {x : Access}
  {t : Member} {o : Object} {v : Word} {pc : Nat}

/-- The state after an assignment: one word of the heap has changed, and the stack is as it was. -/
def after (s : State) (pc k : Nat) (v : Word) : State :=
  { s with pc := pc, heap := s.heap.setIfInBounds k v }

/-- All objects are still of the right types after an assignment of a value that suits. -/
theorem populated_after (hs : s.Populated schema scope objects) (ho : o ∈ objects) {i : Nat}
    {u : Ty} (hcell : o.cell? schema i = some u) (hv : Suits objects u v) :
    (after s pc (o.address + i) v).Populated schema scope objects := by
  refine .of_words (hs.typed.heap.set ho hcell hv) fun d hd => ⟨s.memory.word d, ?_, ?_⟩
  · rw [State.read?_congr rfl rfl d]
    exact hs.read?_eq hd
  · exact hs.typed.word d hd

/-- The element or field that was assigned to has the new value, and all others have their old
ones.  Objects are told apart by their addresses as words, which is all that the machine knows of
them. -/
theorem getD_after (h : HeapTyped schema objects s.heap) {i : Nat} {u : Ty} (ho : o ∈ objects)
    (hcell : o.cell? schema i = some u) {p : Object} {k : Nat} {u' : Ty} (hp : p ∈ objects)
    (hcell' : p.cell? schema k = some u') :
    (after s pc (o.address + i) v).heap.getD (p.address + k) 0
      = if Int32.ofNat p.address = Int32.ofNat o.address ∧ k = i then v
        else s.heap.getD (p.address + k) 0 := by
  have hstop := o.cell_lt_stop hcell
  have hstop' := p.cell_lt_stop hcell'
  have hsize := (h.inside o ho).2
  by_cases hsame : Int32.ofNat p.address = Int32.ofNat o.address ∧ k = i
  · obtain ⟨haddress, rfl⟩ := hsame
    obtain rfl := h.eq_of_ofNat_address hp ho haddress
    rw [if_pos ⟨rfl, rfl⟩, Array.getD_eq_getD_getElem?, after,
      Array.getElem?_setIfInBounds_self_of_lt (by omega)]
    rfl
  · have hplace : o.address + i ≠ p.address + k := by
      intro heq
      obtain rfl := h.eq_of_mem ho hp ⟨Nat.le_add_right _ _, hstop⟩ ⟨by omega, by omega⟩
      exact hsame ⟨rfl, by omega⟩
    rw [if_neg hsame, after, getD_setIfInBounds_ne hplace]

/-- An access reads the word that it leads to. -/
theorem reads_of_place {image : Image} (hs : s.Populated schema scope objects)
    (hx : x.phrase.WellTyped schema scope) (hmember : x.member s.memory = .ok t) {k : Nat}
    (hplace : t.place s.heap = .ok k) : x.Reads image s (s.heap.getD k 0) := by
  refine reads_of_eval hx hs ?_
  rw [eval_eq]
  exact Fault.bind_eq_ok.mpr ⟨t, hmember, Fault.bind_eq_ok.mpr ⟨k, hplace, rfl⟩⟩

/-- An access that leads to no word faults, because its object is null or has no such element. -/
theorem readFaults_of_place {image : Image} (hs : s.Populated schema scope objects)
    (hx : x.phrase.WellTyped schema scope) (hmember : x.member s.memory = .ok t) {cause : Fault}
    (hplace : t.place s.heap = .error cause) : x.ReadFaults image s cause := by
  refine readFaults_of_eval hx hs ?_
  rw [eval_eq, hmember]
  show (t.place s.heap >>= _) = _
  rw [hplace]
  rfl

/-- Loading an element or field after an assignment gives the new value if it is the one that was
assigned to, and its old value otherwise.  It faults if it did so before. -/
theorem reads_after {image : Image} (hs : s.Populated schema scope objects) (ho : o ∈ objects)
    {w : Ty} (hcell : o.cell? schema t.offset = some w) (hv : Suits objects w v)
    (hbase : t.base = Int32.ofNat o.address) (hx : x.phrase.WellTyped schema scope) {u : Member}
    (hmember : x.member (after s pc (o.address + t.offset) v).memory = .ok u) :
    (∀ cause, u.place s.heap = .error cause →
      x.ReadFaults image (after s pc (o.address + t.offset) v) cause) ∧
    ∀ j, u.place s.heap = .ok j → x.Reads image (after s pc (o.address + t.offset) v)
      (if u.base = t.base ∧ u.offset = t.offset then v else s.heap.getD j 0) := by
  have hs' : (after s pc (o.address + t.offset) v).Populated schema scope objects :=
    populated_after hs ho hcell hv
  have htyped := member_typed hs'.typed hx hmember
  have hplaces : u.place (after s pc (o.address + t.offset) v).heap = u.place s.heap :=
    hs.typed.heap.place_set ho hcell v htyped
  rw [← hplaces]
  refine ⟨fun cause hplace => readFaults_of_place hs' hx hmember hplace, fun j hplace => ?_⟩
  obtain ⟨p, hp, w', hbase', -, rfl, hcell', -⟩ := hs'.typed.heap.cell_of_place htyped hplace
  have hread : x.Reads image _ _ := reads_of_place hs' hx hmember hplace
  rw [getD_after hs.typed.heap ho hcell hp hcell', ← hbase, ← hbase'] at hread
  exact hread

/-- After an assignment through a direct path this leads to the same element or field, and loading
it gives the new value. -/
theorem reads_back {image : Image} (hs : s.Populated schema scope objects) (ho : o ∈ objects)
    {w : Ty} (hcell : o.cell? schema t.offset = some w) (hv : Suits objects w v)
    (hbase : t.base = Int32.ofNat o.address) (hx : x.phrase.WellTyped schema scope)
    (hmember : x.member s.memory = .ok t) (hplace : t.place s.heap = .ok (o.address + t.offset))
    (hdirect : x.IsDirect) :
    x.member (after s pc (o.address + t.offset) v).memory = .ok t ∧
      x.Reads image (after s pc (o.address + t.offset) v) v := by
  have hagain : x.member (after s pc (o.address + t.offset) v).memory = .ok t :=
    member_set hs.typed hx hmember hplace v hdirect
  have hread : x.Reads image (after s pc (o.address + t.offset) v) _ :=
    (reads_after hs ho hcell hv hbase hx hagain).2 _ hplace
  rw [if_pos ⟨rfl, rfl⟩] at hread
  exact ⟨hagain, hread⟩

/-- **Stored values are read back, and others are not changed.**  The objects on the heap are those
that the code of allocations makes.  An element or field can be loaded just if instructions can name
all that it takes; it can be assigned to just if, moreover, it may be changed and the value is of
its type.  Whatever is compiled after an assignment, in a finished image with less than 65536 bytes
of code a run from its first byte on faults if its path or its value does, or if the object is null
or has no such element, and nothing has changed then.  Otherwise it arrives after its last byte and
has changed one word, which is in the object at the last base address and is not the length of an
array.  If the path looks at nothing like what it leads to, as along indices from a variable on, it
still leads there, and loading it gives the new value.  All other elements and fields have the
values that they had. -/
theorem store_load {schema : Schema} {scope : Scope} {x : Access} {e : Phrase}
    (hx : x.phrase.WellTyped schema scope) (he : e.WellTyped schema scope) (span : Span)
    (c : Compiler) :
    PopulatedByCode schema scope ∧ (x.IsChain → x.IsDirect) ∧
    (∀ y : Access, y.phrase.WellTyped schema scope →
      (y.phrase.Addressable ↔ ∃ r c', y.phrase.load.run c = .ok (.ok r) c')) ∧
    (x.phrase.Addressable ∧ e.Addressable ∧ x.phrase.isReadonly = false ∧
        x.phrase.type.same e.type = true ↔
      ∃ c', (x.store e span).run c = .ok (.ok ()) c') ∧
    ∀ (c' : Compiler) (image : Image) (objects : List Object) (s : State),
      (x.store e span).run c = .ok (.ok ()) c' → c'.EndsIn image →
      s.Populated schema scope objects → s.pc = c.assembler.code.size →
      (∀ cause, x.member s.memory = .error cause → FaultsIn image s cause) ∧
      ∀ t, x.member s.memory = .ok t →
        (∀ cause, e.eval s.memory = .error cause → FaultsIn image s cause) ∧
        ∀ v, e.eval s.memory = .ok v →
          (∀ cause, t.place s.heap = .error cause → FaultsIn image s cause) ∧
          ∀ k, t.place s.heap = .ok k → ∃ s' : State,
            s' = { s with
              pc := c'.assembler.code.size, heap := s.heap.setIfInBounds k v } ∧
            Arrives image s s' ∧ s'.Populated schema scope objects ∧
            (∃ o ∈ objects, t.base = Int32.ofNat o.address ∧ o.address ≤ k ∧ k < o.block.stop) ∧
            (∀ o ∈ objects, ∀ n, o.length? = some n → k ≠ o.address) ∧
            (x.IsDirect → x.member s'.memory = .ok t ∧ x.Reads image s' v) ∧
            ∀ y : Access, y.phrase.WellTyped schema scope → ∀ u, y.member s'.memory = .ok u →
              (∀ cause, u.place s.heap = .error cause → y.ReadFaults image s' cause) ∧
              ∀ j, u.place s.heap = .ok j → y.Reads image s'
                (if u.base = t.base ∧ u.offset = t.offset then v else s.heap.getD j 0) := by
  refine ⟨populatedByCode schema scope, isDirect_of_isChain hx,
    fun y hy => Phrase.addressable_iff_load hy c, ⟨?_, ?_⟩, ?_⟩
  · rintro ⟨hxa, hea, hreadonly, hsame⟩
    exact ⟨_, store_eq hx he hxa hea hreadonly hsame c⟩
  · rintro ⟨c', hstore⟩
    exact addressable_of_store hx he hstore
  intro c' image objects s hstore hends hs hpc
  obtain ⟨hxa, hea, hreadonly, hsame⟩ := addressable_of_store hx he hstore
  obtain ⟨-, rfl⟩ := EStateM.Result.ok.inj
    ((store_eq hx he hxa hea hreadonly hsame c).symm.trans hstore)
  obtain ⟨hcode, hend⟩ := hends.codeAt
  rw [← hpc] at hcode hend
  obtain ⟨hoperands, hruns⟩ := runs_store hx hxa he hea hs hcode hend
  refine ⟨fun cause h => (hoperands cause h).faultsIn, fun t hmember => ?_⟩
  obtain ⟨hvalue, hruns⟩ := hruns t hmember
  refine ⟨fun cause h => (hvalue cause h).faultsIn, fun v heval => ?_⟩
  obtain ⟨hfault, hreach⟩ := hruns v heval
  refine ⟨fun cause h => (hfault cause h).faultsIn, fun k hplace => ?_⟩
  -- the word belongs to an object, and the value is of its type
  have hheap := hs.typed.heap
  obtain ⟨o, ho, w, hbase, -, rfl, hcell, hpart⟩ :=
    hheap.cell_of_place (member_typed hs.typed hx hmember) hplace
  have hv : Suits objects w v := (Phrase.eval_suits (hs.typed.serves e) he heval).same
    (Ty.beq_equivalence.symm (Ty.beq_equivalence.trans hpart hsame))
  refine ⟨after s (c.assembler.append (x.storeCode c.assembler.code.size e)).code.size
    (o.address + t.offset) v, rfl, ?_, populated_after hs ho hcell hv, ?_, ?_, ?_, ?_⟩
  · have harrives := (hreach _ hplace).arrives
    rw [hpc, ← size_append] at harrives
    exact harrives
  · exact ⟨o, ho, hbase, Nat.le_add_right _ _, o.cell_lt_stop hcell⟩
  · intro p hp n hn
    exact hheap.cell_ne_length ho hcell hp hn
  · exact reads_back hs ho hcell hv hbase hx hmember hplace
  · intro y hy u hmember'
    exact reads_after hs ho hcell hv hbase hy hmember'

/-- A variable for a matrix, in the frame of the procedure. -/
def sampleDecl : Decl := ⟨"a", .var, .array 1 .int, false, false, some 0, 1⟩

/-- The variable for the matrix is the only one. -/
def sampleScope : Scope :=
  ⟨[sampleDecl], by simpa using ⟨⟨rfl, rfl⟩, by decide⟩, by simp⟩

/-- The first element of a row of the matrix. -/
def sampleItem (row : Word) : Access :=
  .element (.element (.var sampleDecl) (.int row) ⟨0, 0⟩) (.int 0) ⟨0, 0⟩

/-- The machine with a matrix that has two rows and two columns. -/
def sampleState : State :=
  ⟨3, 0, #[9], #[#[1]], #[], #[0, 2, 4, 7, 2, 0, 0, 2, 0, 0], #[0, 0, 0, 0], [], #[]⟩

/-- The matrix is an array of arrays. -/
def sampleObjects : List Object := [.array 1 2 1 .int, .array 4 2 0 .int, .array 7 2 0 .int]

theorem populated_sampleState :
    sampleState.Populated (fun _ _ _ => .void) sampleScope sampleObjects := by
  have hmem : ∀ o ∈ sampleObjects, o = .array 1 2 1 .int ∨ o = .array 4 2 0 .int ∨
      o = .array 7 2 0 .int := by
    simp [sampleObjects]
  refine .of_words ⟨by decide, by decide, ?_, ?_, ?_, ?_⟩ fun d hd => ?_
  · intro o ho
    rcases hmem o ho with rfl | rfl | rfl <;> exact ⟨by decide, by decide⟩
  · intro o ho p hp hne
    rcases hmem o ho with rfl | rfl | rfl <;> rcases hmem p hp with rfl | rfl | rfl <;>
      simp [Block.Apart, Object.block, Block.stop] at hne ⊢
  · intro o ho n hn
    rcases hmem o ho with rfl | rfl | rfl <;> cases hn <;> rfl
  · intro o ho k t hcell
    rcases hmem o ho with rfl | rfl | rfl <;>
      simp only [Object.cell?, Option.ite_none_right_eq_some, Option.some.injEq] at hcell <;>
      obtain ⟨hk, rfl⟩ := hcell <;> obtain rfl | rfl : k = 1 ∨ k = 2 := by omega
    · exact ⟨4, rfl, Suits.ofObject (o := .array 4 2 0 .int) (.tail _ (.head _))⟩
    · exact ⟨7, rfl, Suits.ofObject (o := .array 7 2 0 .int) (.tail _ (.tail _ (.head _)))⟩
    all_goals exact ⟨0, rfl, Suits.zero _ _⟩
  · obtain rfl := List.mem_singleton.mp hd
    exact ⟨1, rfl, Suits.ofObject (o := .array 1 2 1 .int) (.head _)⟩

/-- The code of the procedure: 5 is assigned to the first element of the second row, and then it and
the first element of the first row are loaded. -/
def sampleImage : Image :=
  .ofSegments [48, 0, 1, 1, 0, 16, 33, 15, 20, 34, 1, 0, 16, 33, 15, 33, 1, 0, 15, 33, 15, 33,
    49, 47] [0, 0, 0, 0] 0

/-- The compiler after the first `n` instructions of the procedure. -/
def sampleCode (n : Nat) : Compiler :=
  sampleMain.withAssembler (sampleMain.assembler.append
    (((sampleItem 1).storeCode 3 (.int 5) ++ (sampleItem 1).phrase.code 10 ++
      (sampleItem 0).phrase.code 16).take n))

/-- The element that was assigned to has the new value, and the one of the other row has not
changed. -/
theorem store_load_matrix :
    (∀ row, (sampleItem row).phrase.WellTyped (fun _ _ _ => .void) sampleScope) ∧
    sampleState.Populated (fun _ _ _ => .void) sampleScope sampleObjects ∧
    ((sampleItem 1).store (.int 5) ⟨0, 0⟩).run sampleMain = .ok (.ok ()) (sampleCode 6) ∧
    (sampleItem 1).phrase.load.run (sampleCode 6) = .ok (.ok (.ofType .int)) (sampleCode 11) ∧
    (sampleItem 0).phrase.load.run (sampleCode 11) = .ok (.ok (.ofType .int)) (sampleCode 16) ∧
    (sampleCode 16).EndsIn sampleImage ∧
    ∃ s : State, s = { sampleState with pc := 10, heap := #[0, 2, 4, 7, 2, 0, 0, 2, 5, 0] } ∧
      Arrives sampleImage sampleState s ∧
      Arrives sampleImage s { s with pc := 16, stack := #[9, 5] } ∧
      Arrives sampleImage { s with pc := 16 } { s with pc := 22, stack := #[9, 0] } := by
  have hstore : ((sampleItem 1).store (.int 5) ⟨0, 0⟩).run sampleMain
      = .ok (.ok ()) (sampleCode 6) := by
    rfl
  have hload : (sampleItem 1).phrase.load.run (sampleCode 6)
      = .ok (.ok (.ofType .int)) (sampleCode 11) := by
    rfl
  have hload' : (sampleItem 0).phrase.load.run (sampleCode 11)
      = .ok (.ok (.ofType .int)) (sampleCode 16) := by
    rfl
  have hrest : (do Assembler.session [.exit "$main_end"]; finish) (sampleCode 16).assembler
      = .ok (.ok sampleImage) {
        code := ⟨#[.known 48, .known 0, .known 1, .known 1, .known 0, .known 16, .known 33,
          .known 15, .known 20, .known 34, .known 1, .known 0, .known 16, .known 33, .known 15,
          .known 33, .known 1, .known 0, .known 15, .known 33, .known 15, .known 33, .known 49,
          .known 47]⟩
        statics := ⟨#[0, 0, 0, 0]⟩
        labels := ⟨[("$main_end", 22), ("$main", 0)], []⟩
        procedure? := none
        main? := some "$main" } := by
    rfl
  obtain ⟨_, b, hexit, hfinish⟩ := Action.bind_eq_ok.mp hrest
  have hends₂ : (sampleCode 16).EndsIn sampleImage :=
    ⟨[.exit "$main_end"], b, _, hexit, hfinish, by decide⟩
  have hends₁ : (sampleCode 11).EndsIn sampleImage := .of_session [
    .loadWord .stack 0, .pushConst 0, .loadElement, .pushConst 0, .loadElement] rfl hends₂
  have hends : (sampleCode 6).EndsIn sampleImage := .of_session [
    .loadWord .stack 0, .pushConst 1, .loadElement, .pushConst 0, .loadElement] rfl hends₁
  have htyped : ∀ row, (sampleItem row).phrase.WellTyped (fun _ _ _ => .void) sampleScope :=
    fun row => ⟨⟨⟨⟨.head _, rfl⟩, trivial, rfl⟩, rfl⟩, trivial, rfl⟩
  have hlaw := store_load (htyped 1) (e := .int 5) trivial ⟨0, 0⟩ sampleMain
  have hdirect := hlaw.2.1 ⟨⟨trivial, trivial⟩, trivial⟩
  have hruns := hlaw.2.2.2.2 (sampleCode 6) sampleImage sampleObjects sampleState hstore hends
    populated_sampleState rfl
  obtain ⟨s, hs, harrives, -, -, -, hsame, hothers⟩ :=
    ((hruns.2 (.element 7 0) rfl).2 5 rfl).2 8 rfl
  have hread := (hsame hdirect).2 _ _ _ hload hends₁
  have hother := (hothers (sampleItem 0) (htyped 0) (.element 4 0) (by rw [hs]; rfl)).2 5 rfl
    _ _ _ hload' hends₂
  exact ⟨htyped, populated_sampleState, hstore, hload, hload', hends₂, s, hs, harrives,
    hs ▸ hread, hs ▸ hother⟩

end Access
end MJ
