import MJ.Proofs.Array.Heap
import MJ.Proofs.Array.Layout
import MJ.Proofs.Capacity

/-!
# Objects are fresh

Whatever code a machine runs, each object is put behind the objects before it, and nothing is ever
taken back.  So the objects of a run share no words, and no two of them have the same address.

## Main definitions

* `Machine.Demand`, `Demand.cells` — what is asked of the heap, and the words that are got.
* `Machine.allocations` — the objects that a run has allocated, with the addresses it was given.
* `Machine.Partition` — blocks have each word of a part of the heap exactly once.

## Main results

* `Machine.adds_of_execute` — `new` and `newarray` put their object behind the heap.
* `Machine.consecutive_allocations` — the objects of a run follow each other.
* `Machine.allocations_fresh` — **the objects of a run partition the heap.**
-/

namespace MJ

/-! ### Blocks that follow each other -/

namespace Machine

/-- Blocks with at least one word each, of which each starts where the one before it stops; the
first starts at `lo` and the last stops at `hi`. -/
def Consecutive (lo hi : Nat) : List Block → Prop
  | [] => lo = hi
  | b :: bs => b.start = lo ∧ 0 < b.words ∧ Consecutive b.stop hi bs

/-- Blocks share no words, and have all words from `lo` to before `hi`.  So each of these words
belongs to exactly one block. -/
structure Partition (lo hi : Nat) (blocks : List Block) : Prop where
  apart : blocks.Pairwise Block.Apart
  covers : ∀ k, (lo ≤ k ∧ k < hi) ↔ ∃ b ∈ blocks, b.start ≤ k ∧ k < b.stop

namespace Consecutive

variable {lo hi : Nat} {bs : List Block}

theorem le (h : Consecutive lo hi bs) : lo ≤ hi := by
  induction bs generalizing lo with
  | nil => exact Nat.le_of_eq h
  | cons b bs ih =>
    obtain ⟨rfl, -, hrest⟩ := h
    exact Nat.le_trans (Nat.le_add_right _ _) (ih hrest)

theorem start_ge (h : Consecutive lo hi bs) : ∀ b ∈ bs, lo ≤ b.start := by
  induction bs generalizing lo with
  | nil => simp
  | cons c bs ih =>
    obtain ⟨rfl, -, hrest⟩ := h
    intro b hb
    rcases List.mem_cons.mp hb with rfl | hb
    · exact Nat.le_refl _
    · exact Nat.le_trans (Nat.le_add_right _ _) (ih hrest b hb)

/-- Later blocks start at later words, and where earlier ones have stopped. -/
theorem pairwise (h : Consecutive lo hi bs) :
    bs.Pairwise fun b c => b.start < c.start ∧ b.stop ≤ c.start := by
  induction bs generalizing lo with
  | nil => exact .nil
  | cons b bs ih =>
    obtain ⟨rfl, hpos, hrest⟩ := h
    refine .cons (fun c hc => ?_) (ih hrest)
    have hge := hrest.start_ge c hc
    have hstop : b.start < b.stop := Nat.lt_add_of_pos_right hpos
    exact ⟨Nat.lt_of_lt_of_le hstop hge, hge⟩

theorem covers (h : Consecutive lo hi bs) (k : Nat) :
    (lo ≤ k ∧ k < hi) ↔ ∃ b ∈ bs, b.start ≤ k ∧ k < b.stop := by
  induction bs generalizing lo with
  | nil =>
    cases h
    simp
  | cons b bs ih =>
    obtain ⟨rfl, hpos, hrest⟩ := h
    have hle := hrest.le
    have hstop : b.start < b.stop := Nat.lt_add_of_pos_right hpos
    simp only [List.mem_cons, exists_eq_or_imp, ← ih hrest]
    omega

theorem partition (h : Consecutive lo hi bs) : Partition lo hi bs where
  apart := h.pairwise.imp fun hbefore => Or.inl hbefore.2
  covers := h.covers

end Consecutive

/-! ### What is asked of the heap -/

/-- What is asked of the heap.  The length of an array is a word from the stack, and the size of an
object stands in the code. -/
inductive Demand where
  /-- An object with a number of words. -/
  | object (words : Nat)
  /-- An array with a length. -/
  | array (length : Word)
  deriving DecidableEq, Repr

/-- How many words of the heap are got.  An object without words gets one. -/
def Demand.words : Demand → Nat
  | object words => max words 1
  | array length => length.toInt.toNat + 1

/-- The words that are got.  All of them are 0, but an array starts with its length. -/
def Demand.cells : Demand → Array Word
  | object words => Array.replicate (max words 1) 0
  | array length => #[length] ++ Array.replicate length.toInt.toNat 0

@[simp] theorem Demand.size_cells (d : Demand) : d.cells.size = d.words := by
  cases d with
  | object n => simp [cells, words]
  | array length => simp [cells, words, Nat.add_comm]

theorem Demand.words_pos (d : Demand) : 0 < d.words := by
  cases d with
  | object words => exact Nat.lt_of_lt_of_le Nat.one_pos (Nat.le_max_right _ _)
  | array length => exact Nat.succ_pos _

end Machine

/-- What an instruction asks of the heap if the word on top of the stack is `top`. -/
def Instruction.demand? : Instruction → (top : Option Word) → Option Machine.Demand
  | new n, _ => some (.object (address n))
  | newArray _, some length => some (.array length)
  | _, _ => none

/-- Only an instruction that allocates asks for anything. -/
theorem Instruction.demand?_of_not_allocates {i : Instruction} (h : i.allocates = false)
    (top : Option Word) : i.demand? top = none := by
  cases i with
  | new | newArray => cases h
  | _ => rfl

namespace Machine

variable {limits : Limits} {code : Array UInt8}

/-- An object that was allocated: what the program knows of it, which is what it has asked for and
the address on the stack. -/
structure Allocation where
  /-- What was asked for. -/
  demand : Demand
  /-- The address that was given. -/
  address : Word
  deriving DecidableEq, Repr

namespace Allocation

/-- The words of the object, as far as its address tells. -/
def block (a : Allocation) : Block := ⟨a.address.toInt.toNat, a.demand.words⟩

/-- The object is put behind the heap of the first state, and nothing else is changed in it. -/
structure Adds (a : Allocation) (s t : State) : Prop where
  address : a.address.toInt = s.heap.size
  heap : t.heap = s.heap ++ a.demand.cells

theorem Adds.start {a : Allocation} {s t : State} (h : a.Adds s t) :
    a.block.start = s.heap.size := by
  rw [block, h.address, Int.toNat_natCast]

theorem Adds.stop {a : Allocation} {s t : State} (h : a.Adds s t) :
    a.block.stop = t.heap.size := by
  rw [Block.stop, h.start, h.heap, Array.size_append, Demand.size_cells]
  rfl

end Allocation

/-! ### Instructions -/

/-- `new` and `newarray` put their object behind the heap, and push its address.  With more words
than a word has values, two objects could get the same address. -/
theorem adds_of_execute {i : Instruction} {s t : State} {goesOn : Bool}
    (hwords : limits.heapWords ≤ 2147483647) (hi : i.allocates = true)
    (h : execute limits i s = .ok goesOn t) :
    goesOn = true ∧ ∃ a : Allocation, i.demand? s.stack.back? = some a.demand ∧
      t.stack.back? = some a.address ∧ a.Adds s t := by
  -- the heap has so few words that the address is the number of them
  have haddress {n : Nat} (hroom : s.heap.size + n ≤ limits.heapWords) :
      (Int32.ofNat s.heap.size).toInt = s.heap.size := Int32.toInt_ofNat_of_lt (by omega)
  cases i with
  | new n =>
    obtain ⟨base, u, halloc, hpush⟩ := Action.bind_eq_ok.mp h
    obtain ⟨hroom, rfl, rfl⟩ := allocate_eq_ok halloc
    cases hpush
    refine ⟨rfl, ⟨.object (Instruction.address n), Int32.ofNat s.heap.size⟩, rfl, ?_, ?_, rfl⟩
    · exact Array.back?_push
    · exact haddress hroom
  | newArray kind =>
    obtain ⟨length, u, hpop, hrest⟩ := Action.bind_eq_ok.mp h
    obtain ⟨stack, hstack, rfl⟩ := pop_eq_ok hpop
    split at hrest
    · cases hrest
    · rename_i hlength
      obtain ⟨base, v, halloc, hpush⟩ := Action.bind_eq_ok.mp hrest
      obtain ⟨hroom, rfl, rfl⟩ := allocate_eq_ok halloc
      cases hpush
      refine ⟨rfl, ⟨.array length, Int32.ofNat s.heap.size⟩, ?_, Array.back?_push, ?_, ?_⟩
      · rw [hstack, Array.back?_push]
        rfl
      · exact haddress hroom
      · obtain ⟨n, hn, rfl⟩ := exists_ofNat hlength
        have hindex : (Int32.ofNat s.heap.size).toInt.toNat = s.heap.size := by
          rw [haddress hroom, Int.toNat_natCast]
        have hlen := toNat_ofNat hn
        have hcells : addArray s.heap n = s.heap ++ (Demand.array (Int32.ofNat n)).cells := by
          rw [Demand.cells, hlen, addArray, Array.push_eq_append, Array.append_assoc]
        rw [← hcells, ← setIfInBounds_length]
        simp only [hindex, hlen, Nat.max_eq_left (Nat.succ_le_succ (Nat.zero_le n))]
  | _ => cases hi

/-! ### Steps -/

/-- The object that a step from `s` to `t` has allocated, read off the instruction and the stacks
before and after it. -/
def allocation? (code : Array UInt8) (s t : State) : Option Allocation := do
  let i ← (fetch code s.pc).toOption
  let demand ← i.demand? s.stack.back?
  let address ← t.stack.back?
  return ⟨demand, address⟩

theorem allocation?_eq_some {s t : State} {i : Instruction} {a : Allocation}
    (hfetch : fetch code s.pc = .ok i) (hdemand : i.demand? s.stack.back? = some a.demand)
    (haddress : t.stack.back? = some a.address) : allocation? code s t = some a := by
  simp only [allocation?, hfetch, Except.toOption, hdemand, haddress, Option.bind_eq_bind,
    Option.bind_some]
  rfl

/-- A step allocates one object or none, and in the latter case the heap keeps its size. -/
theorem allocation?_of_step {s t : State} {goesOn : Bool}
    (hwords : limits.heapWords ≤ 2147483647) (h : step limits code s = .ok goesOn t) :
    (allocation? code s t = none ∧ t.heap.size = s.heap.size) ∨
      goesOn = true ∧ ∃ a, allocation? code s t = some a ∧ a.Adds s t := by
  obtain ⟨i, -, hfetch, hexecute⟩ := execute_of_step h
  cases hi : i.allocates with
  | false =>
    have hsize : t.heap.size = (s.fetched i).heap.size := heap_size_of_execute hi hexecute
    refine Or.inl ⟨?_, hsize⟩
    simp [allocation?, hfetch, Except.toOption, Instruction.demand?_of_not_allocates hi]
  | true =>
    obtain ⟨hgoesOn, a, hdemand, haddress, hadds⟩ := adds_of_execute hwords hi hexecute
    exact Or.inr
      ⟨hgoesOn, a, allocation?_eq_some hfetch hdemand haddress, hadds.address, hadds.heap⟩

/-! ### Runs -/

/-- The objects that the first `n` steps from a state allocate, the first object first.  A step that
ends the run allocates none. -/
def allocations (limits : Limits) (code : Array UInt8) : (n : Nat) → State → List Allocation
  | 0, _ => []
  | n + 1, s =>
    match step limits code s with
    | .ok true t => (allocation? code s t).toList ++ allocations limits code n t
    | _ => []

/-- The objects of a run follow each other, from the end of the heap it starts with.  By induction
on the run; a step that fails leaves the heap alone. -/
theorem consecutive_allocations (hwords : limits.heapWords ≤ 2147483647) (n : Nat) (s : State) :
    Consecutive s.heap.size (runFor limits code n s).state.heap.size
      ((allocations limits code n s).map Allocation.block) := by
  fun_induction runFor limits code n s with
  | case1 s => rfl
  | case2 n s t hstep ih =>
    rw [allocations, hstep]
    rcases allocation?_of_step hwords hstep with ⟨hnone, hsize⟩ | ⟨-, a, hsome, hadds⟩
    · simp only [hnone, Option.toList_none, List.nil_append, ← hsize]
      exact ih
    · simp only [hsome, Option.toList_some, List.singleton_append, List.map_cons]
      refine ⟨hadds.start, a.demand.words_pos, ?_⟩
      rw [hadds.stop]
      exact ih
  | case3 n s t hstep =>
    rw [allocations, hstep]
    rcases allocation?_of_step hwords hstep with ⟨-, hsize⟩ | ⟨hgoesOn, -⟩
    · exact hsize.symm
    · cases hgoesOn
  | case4 n s pc cause t hstep =>
    rw [allocations, hstep]
    exact congrArg Array.size (heap_of_error hstep).symm

/-- An object that a step of the run allocates is one of its objects.  By induction on the number of
steps, from the first one on. -/
theorem mem_allocations {m n : Nat} {s u t : State} {a : Allocation} (hm : m < n)
    (hrun : runFor limits code m s = ⟨.unfinished, u⟩) (hstep : step limits code u = .ok true t)
    (ha : allocation? code u t = some a) : a ∈ allocations limits code n s := by
  induction n generalizing m s with
  | zero => exact absurd hm (Nat.not_lt_zero m)
  | succ n ih =>
    rw [allocations]
    cases m with
    | zero =>
      cases hrun
      simp [hstep, ha]
    | succ m =>
      rw [runFor] at hrun
      split at hrun
      · rename_i s' hfirst
        rw [hfirst]
        exact List.mem_append_right _ (ih (Nat.lt_of_succ_lt_succ hm) hrun)
      · cases hrun
      · cases hrun

/-- A longer run leaves a heap that is at least as large. -/
theorem heap_size_mono (hwords : limits.heapWords ≤ 2147483647) {m n : Nat} (h : m ≤ n)
    {s : State} :
    (runFor limits code m s).state.heap.size ≤ (runFor limits code n s).state.heap.size := by
  induction m generalizing n s with
  | zero => exact (consecutive_allocations hwords n s).le
  | succ m ih =>
    obtain ⟨n, rfl⟩ : ∃ k, n = k + 1 := ⟨n - 1, by omega⟩
    rw [runFor, runFor]
    split
    · exact ih (Nat.le_of_succ_le_succ h)
    · exact Nat.le_refl _
    · exact Nat.le_refl _

/-- **The objects of a run partition the heap.**  If addresses can tell all words of the heap apart,
then after any number of steps of any code the objects allocated so far share no words and have all
words but the word 0; none of them is at address 0, no two are at the same address, and the heap is
not smaller than before.  Each `new` and each `newarray` on the way has put its object behind the
heap as it was, all words 0 but for the length of an array, and pushed its address. -/
theorem allocations_fresh (limits : Limits) (hwords : limits.heapWords ≤ 2147483647)
    (image : Image) (input : List UInt8) (n : Nat) :
    (∀ m, m ≤ n → (runFor limits image.code.toArray m (.load image input)).state.heap.size
      ≤ (runFor limits image.code.toArray n (.load image input)).state.heap.size) ∧
    Partition 1 (runFor limits image.code.toArray n (.load image input)).state.heap.size
      ((allocations limits image.code.toArray n (.load image input)).map Allocation.block) ∧
    (∀ a ∈ allocations limits image.code.toArray n (.load image input), a.address ≠ 0) ∧
    ((allocations limits image.code.toArray n (.load image input)).map Allocation.address).Nodup ∧
    ∀ m s t i, m < n → runFor limits image.code.toArray m (.load image input) = ⟨.unfinished, s⟩ →
      step limits image.code.toArray s = .ok true t → fetch image.code.toArray s.pc = .ok i →
      i.allocates = true →
      ∃ a ∈ allocations limits image.code.toArray n (.load image input),
        i.demand? s.stack.back? = some a.demand ∧ t.stack.back? = some a.address ∧
          a.address.toInt = s.heap.size ∧ t.heap = s.heap ++ a.demand.cells := by
  have hconsecutive : Consecutive 1
      (runFor limits image.code.toArray n (.load image input)).state.heap.size
      ((allocations limits image.code.toArray n (.load image input)).map Allocation.block) :=
    consecutive_allocations hwords n (.load image input)
  refine ⟨fun m hm => heap_size_mono hwords hm, hconsecutive.partition, ?_, ?_, ?_⟩
  · intro a ha hzero
    have hge := hconsecutive.start_ge a.block (List.mem_map_of_mem ha)
    rw [Allocation.block, hzero] at hge
    exact absurd hge (Nat.not_succ_le_zero 0)
  · have hpairwise := List.pairwise_map.mp hconsecutive.pairwise
    refine List.pairwise_map.mpr (hpairwise.imp fun hbefore heq => ?_)
    rw [Allocation.block, Allocation.block, heq] at hbefore
    exact Nat.lt_irrefl _ hbefore.1
  · intro m s t i hm hrun hstep hfetch hi
    obtain ⟨j, -, hfetch', hexecute⟩ := execute_of_step hstep
    obtain rfl : i = j := Except.ok.inj (hfetch.symm.trans hfetch')
    obtain ⟨-, a, hdemand, haddress, hadds⟩ := adds_of_execute hwords hi hexecute
    have hmem : a ∈ allocations limits image.code.toArray n (.load image input) :=
      mem_allocations hm hrun hstep (allocation?_eq_some hfetch hdemand haddress)
    exact ⟨a, hmem, hdemand, haddress, hadds.address, hadds.heap⟩

/-- The image of a program that makes two objects without words and an array of two elements. -/
def threeObjects : Image :=
  .ofSegments (Code.ofInstructions [.new 0, .new 0, .const 2, .newArray 1, .ret]) [] 0

/-- The machine about to make the array. -/
def threeObjectsState : State :=
  { State.load threeObjects [] with pc := 11, steps := 3, stack := #[1, 2, 2], heap := #[0, 0, 0] }

/-- Its objects are at the addresses 1, 2 and 3, and have all of the five words. -/
theorem allocations_fresh_three_objects :
    allocations ⟨none, 9, 9, 6⟩ threeObjects.code.toArray 4 (.load threeObjects [])
        = [⟨.object 0, 1⟩, ⟨.object 0, 2⟩, ⟨.array 2, 3⟩] ∧
      Partition 1 6 [⟨1, 1⟩, ⟨2, 1⟩, ⟨3, 3⟩] ∧
      ∃ t, step ⟨none, 9, 9, 6⟩ threeObjects.code.toArray threeObjectsState = .ok true t ∧
        t.heap = #[0, 0, 0] ++ (Demand.array 2).cells := by
  have hlist : allocations ⟨none, 9, 9, 6⟩ threeObjects.code.toArray 4 (.load threeObjects [])
      = [⟨.object 0, 1⟩, ⟨.object 0, 2⟩, ⟨.array 2, 3⟩] := by decide +kernel
  have hsize : (runFor ⟨none, 9, 9, 6⟩ threeObjects.code.toArray 4
      (.load threeObjects [])).state.heap.size = 6 := by decide +kernel
  have hstep : step ⟨none, 9, 9, 6⟩ threeObjects.code.toArray threeObjectsState
      = .ok true { threeObjectsState with
          pc := 13, steps := 4, stack := #[1, 2, 3], heap := #[0, 0, 0, 2, 0, 0] } := by
    rfl
  obtain ⟨-, hpartition, -, -, hadded⟩ :=
    allocations_fresh ⟨none, 9, 9, 6⟩ (by decide) threeObjects [] 4
  rw [hlist, hsize] at hpartition
  obtain ⟨a, -, hdemand, -, -, hheap⟩ := hadded 3 threeObjectsState _ (.newArray 1) (by decide)
    (by decide +kernel) hstep (by decide +kernel) rfl
  rw [← Option.some.inj hdemand] at hheap
  exact ⟨hlist, hpartition, _, hstep, hheap⟩

end Machine
end MJ
