import Mathlib.Data.List.Forall2
import MJ.Proofs.Array.Layout
import MJ.Proofs.Array.Placement

/-!
# Running the code that allocates an array

The code of a level allocates an array, and then fills it in a loop with the arrays that the code of
the later levels allocates.  The loop keeps the array and the index in two words of the frame, and
the code of the later levels uses other words, so that each iteration finds them as they were.

## Main definitions

* `Machine.Spares` — what code that allocates leaves alone.
* `Machine.Stored` — a length is in a word of the frame.
* `Machine.Prepared`, `Machine.Built` — the machine before and after the code of some levels.
* `Machine.Filling` — the invariant of the loop: the first elements are filled in.

## Main results

* `Machine.Filling.advance` — one iteration fills one element in.
* `Machine.builds_of_levels` — **the code of all levels allocates the whole array**.
-/

namespace MJ
namespace Machine

open Assembler

/-! ### What is left alone -/

/-- Apart from the program counter and the evaluation stack, only words of the innermost frame from
`lo` on and before `hi` have changed, and the heap has grown. -/
structure Spares (lo hi : Nat) (s s' : State) : Prop where
  /-- The outer frames are the same. -/
  frames : s'.frames.pop = s.frames.pop
  /-- The innermost frame has the same places. -/
  isSome : ∀ k, (s'.word? .stack k).isSome = (s.word? .stack k).isSome
  /-- All other words of the innermost frame are the same. -/
  word : ∀ k, k < lo ∨ hi ≤ k → s'.word? .stack k = s.word? .stack k
  /-- The heap does not shrink. -/
  size_le : s.heap.size ≤ s'.heap.size
  /-- The words that were in the heap are the same. -/
  heap : ∀ k, k < s.heap.size → s'.heap[k]? = s.heap[k]?
  returns : s'.returns = s.returns
  statics : s'.statics = s.statics
  input : s'.input = s.input
  output : s'.output = s.output

namespace Spares

variable {lo hi : Nat} {s s₁ s₂ : State}

theorem refl (lo hi : Nat) (s : State) : Spares lo hi s s :=
  ⟨rfl, fun _ => rfl, fun _ _ => rfl, Nat.le_refl _, fun _ _ => rfl, rfl, rfl, rfl, rfl⟩

/-- One piece of code after another.  Code that uses fewer words spares more, so the words of the
one may be among those of the other. -/
theorem trans {lo' hi' : Nat} (h : Spares lo hi s s₁) (h' : Spares lo' hi' s₁ s₂) (hlo : lo ≤ lo')
    (hhi : hi' ≤ hi) : Spares lo hi s s₂ where
  frames := h'.frames.trans h.frames
  isSome k := (h'.isSome k).trans (h.isSome k)
  word k hk := (h'.word k (by omega)).trans (h.word k hk)
  size_le := Nat.le_trans h.size_le h'.size_le
  heap k hk := (h'.heap k (Nat.lt_of_lt_of_le hk h.size_le)).trans (h.heap k hk)
  returns := h'.returns.trans h.returns
  statics := h'.statics.trans h.statics
  input := h'.input.trans h.input
  output := h'.output.trans h.output

theorem moved (h : Spares lo hi s s₁) (pc : Nat) (stack : Array Word) :
    Spares lo hi s (s₁.moved pc stack) :=
  ⟨h.frames, h.isSome, h.word, h.size_le, h.heap, h.returns, h.statics, h.input, h.output⟩

/-- A word of the frame that may change is set; the others, and how many there are, stay the same.
-/
theorem setWord (h : Spares lo hi s s₁) {k : Nat} (hlo : lo ≤ k) (hhi : k < hi)
    (hsome : (s₁.word? .stack k).isSome = true) (v : Word) :
    Spares lo hi s (s₁.setWord .stack k v) := by
  have hother : ∀ j, j ≠ k → (s₁.setWord .stack k v).word? .stack j = s₁.word? .stack j := by
    intro j hj
    refine word?_setWord_of_ne v hsome fun hsame => hj ?_
    exact (Prod.mk.inj hsame).2
  have hframes : (s₁.setWord .stack k v).frames.pop = s₁.frames.pop := by
    simp only [State.setWord, Array.pop_push]
  refine ⟨hframes.trans h.frames, fun j => ?_, fun j hj => ?_, h.size_le, h.heap, h.returns,
    h.statics, h.input, h.output⟩
  · rw [← h.isSome j]
    by_cases hj : j = k
    · rw [hj, word?_setWord_self hsome, hsome]
      rfl
    · rw [hother j hj]
  · rw [hother j (by omega), h.word j hj]

/-- Words of the heap behind those that were there may be written. -/
theorem withHeap (h : Spares lo hi s s₁) {heap : Array Word} (hsize : s.heap.size ≤ heap.size)
    (hheap : ∀ k, k < s.heap.size → heap[k]? = s.heap[k]?) :
    Spares lo hi s { s₁ with heap := heap } :=
  ⟨h.frames, h.isSome, h.word, hsize, hheap, h.returns, h.statics, h.input, h.output⟩

end Spares

/-! ### Words of the frame -/

section Slots

variable {code : Array UInt8} {s : State} {stack : Array Word} {k : Nat} {v : Word}

theorem holds_slot (hk : k ≤ 255) : Region.stack.offsetWidth.holds (Int32.ofNat k) = true :=
  Width.holds_of_le (by omega) (show (k : Int) ≤ 255 by omega)

theorem reaches_loadSlot (hk : k ≤ 255) (hword : s.word? .stack k = some v)
    (hcode : CodeAt code s.pc (Instruction.load (UInt8.ofNat k)).bytes) :
    Reaches code s (s.moved (s.pc + 2) (s.stack.push v)) := by
  rw [← Region.loadInstruction_stack] at hcode
  have hload := reaches_load (holds_slot hk) (by omega) hword hcode
  rw [Region.loadInstruction_stack] at hload
  exact hload

theorem reaches_storeSlot (hk : k ≤ 255) (hword : (s.word? .stack k).isSome = true)
    (hstack : s.stack = stack.push v)
    (hcode : CodeAt code s.pc (Instruction.store (UInt8.ofNat k)).bytes) :
    Reaches code s ((s.setWord .stack k v).moved (s.pc + 2) stack) := by
  rw [← Region.storeInstruction_stack] at hcode
  have hstore := reaches_store (holds_slot hk) (by omega) hword hstack hcode
  rw [Region.storeInstruction_stack] at hstore
  exact hstore

end Slots

/-! ### One level -/

/-- A length is in a word of the frame before `lo`, where the code that uses the words from `lo` on
does not change it. -/
def Stored (s : State) (lo slot n : Nat) : Prop :=
  slot < lo ∧ n < 2147483648 ∧ s.word? .stack slot = some (Int32.ofNat n)

/-- The machine before the code of some levels: the lengths are in the words `slots` of the frame,
the frame has all words that the code uses, and words can address all of the heap. -/
structure Prepared (s : State) (slots lengths : List Nat) (lo hi : Nat) : Prop where
  stored : List.Forall₂ (Stored s lo) slots lengths
  words : ∀ k, k < hi → (s.word? .stack k).isSome = true
  hi_le : hi ≤ 255
  heap_pos : 0 < s.heap.size
  heap_le : s.heap.size + arrayWords lengths ≤ 2147483648

/-- The machine after the code of some levels: the address of a new array is on the stack. -/
structure Built (s s' : State) (lengths : List Nat) (lo hi : Nat) : Prop where
  stack : s'.stack = s.stack.push (Int32.ofNat s.heap.size)
  spares : Spares lo hi s s'
  size : s'.heap.size = s.heap.size + arrayWords lengths
  filled : Filled s'.heap lengths s.heap.size

/-- A new array with one dimension takes a single instruction, which uses no word of the frame. -/
theorem built_addArray (s : State) (n lo hi pc : Nat) :
    Built s { s.moved pc (s.stack.push (Int32.ofNat s.heap.size)) with heap := addArray s.heap n }
      [n] lo hi := by
  have hwords : arrayWords [n] = n + 1 := by simp
  constructor
  case stack => rfl
  case spares =>
    refine ((Spares.refl lo hi s).moved _ _).withHeap ?_ fun k hk => getElem?_addArray_of_lt n hk
    rw [size_addArray]
    omega
  case size =>
    rw [hwords]
    exact size_addArray s.heap n
  case filled => exact ⟨getElem?_addArray_size s.heap n, fun i hi => getElem?_addArray_element hi⟩

/-- The code between two addresses allocates an array with the given lengths, from any state in
which there is room for it.  This is what the induction on the levels carries. -/
def Builds (room : Nat) (code : Array UInt8) (slots lengths : List Nat) (lo hi base next : Nat) :
    Prop :=
  ∀ s : State, s.pc = base → Prepared s slots lengths lo hi →
    s.heap.size + arrayWords lengths ≤ room →
    ∃ s', Attains room code s s' ∧ s'.pc = next ∧ Built s s' lengths lo hi

/-- The invariant of the loop of a level, which began in the state `s`: the array has been allocated
and its first `i` elements are filled in. -/
structure Filling (s t : State) (n i : Nat) (ns : List Nat) (lo hi : Nat) : Prop where
  stack : t.stack = s.stack
  spares : Spares lo hi s t
  array : t.word? .stack lo = some (Int32.ofNat s.heap.size)
  index : t.word? .stack (lo + 1) = some (Int32.ofNat i)
  size : t.heap.size = elementAddress s.heap.size n ns i
  length : t.heap[s.heap.size]? = some (Int32.ofNat n)
  elements : ∀ j, j < i →
    t.heap[s.heap.size + (j + 1)]? = some (Int32.ofNat (elementAddress s.heap.size n ns j)) ∧
      Filled t.heap ns (elementAddress s.heap.size n ns j)

section Level

variable {room : Nat} {code : Array UInt8} {s t : State} {slot lo hi base top body tail done : Nat}
  {n i : Nat} {ns : List Nat}

/-- The start of a level allocates the array and establishes the invariant of the loop, with no
element filled in yet. -/
theorem exists_filling_zero {slots : List Nat}
    (hspans : Spans code (startCode slot lo) base top) (hpc : s.pc = base)
    (hprepared : Prepared s (slot :: slots) (n :: ns) lo hi) (hlo : lo + 2 ≤ hi)
    (hroom : s.heap.size + arrayWords (n :: ns) ≤ room) :
    ∃ t, Attains room code s t ∧ t.pc = top ∧ Filling s t n 0 ns lo hi := by
  subst hpc
  obtain ⟨⟨hslot, hn, hlength⟩, -⟩ := List.forall₂_cons.mp hprepared.stored
  have hhi := hprepared.hi_le
  have hrange := hprepared.heap_le
  have hwords : n + 1 ≤ arrayWords (n :: ns) := Nat.le_add_right _ _
  obtain ⟨hload, hspans⟩ := hspans.cons
  obtain ⟨hnew, hspans⟩ := hspans.cons
  obtain ⟨hstore, hspans⟩ := hspans.cons
  obtain ⟨hzero, hspans⟩ := hspans.cons
  obtain ⟨hindex, hspans⟩ := hspans.cons
  -- the array is allocated, its address goes to the frame, and so does the index
  let s₁ : State := { s.moved (s.pc + 4) (s.stack.push (Int32.ofNat s.heap.size)) with
    heap := addArray s.heap n }
  let s₂ : State := (s₁.setWord .stack lo (Int32.ofNat s.heap.size)).moved (s.pc + 6) s.stack
  let s₃ : State := (s₂.setWord .stack (lo + 1) 0).moved (s.pc + 9) s.stack
  have hsome : (s₁.word? .stack lo).isSome = true := hprepared.words lo (by omega)
  have hspares₁ : Spares lo hi s s₁ := (built_addArray s n lo hi (s.pc + 4)).spares
  have hspares₂ : Spares lo hi s s₂ :=
    (hspares₁.setWord (Nat.le_refl lo) (by omega) hsome _).moved _ _
  have hsome' : (s₂.word? .stack (lo + 1)).isSome = true := by
    rw [hspares₂.isSome]
    exact hprepared.words (lo + 1) (by omega)
  have hattains₁ : Attains room code s s₁ := by
    have hpushed := reaches_loadSlot (by omega) hlength hload
    have hallocated : Attains room code (s.moved (s.pc + 2) (s.stack.push (Int32.ofNat n))) s₁ :=
      attains_newArray rfl hn (by show s.heap.size + _ ≤ _; omega)
        (by show s.heap.size < _; omega) hnew
    exact hpushed.attains.trans hallocated
  have hattains₂ : Reaches code s₁ s₂ := reaches_storeSlot (by omega) hsome rfl hstore
  have hattains₃ : Reaches code s₂ s₃ := by
    have hpushed : Reaches code s₂ (s₂.moved (s.pc + 7) (s.stack.push 0)) :=
      reaches_ofConst (s := s₂) (v := 0) hzero
    refine hpushed.trans ?_
    exact reaches_storeSlot (s := s₂.moved (s.pc + 7) (s.stack.push 0)) (by omega) hsome' rfl hindex
  refine ⟨s₃, (hattains₁.trans hattains₂.attains).trans hattains₃.attains, hspans.2.symm, ?_⟩
  constructor
  case stack => rfl
  case spares => exact (hspares₂.setWord (by omega) (by omega) hsome' 0).moved _ _
  case array =>
    have hne : (Region.stack, lo) ≠ (Region.stack, lo + 1) := by simp
    have hkept : s₃.word? .stack lo = s₂.word? .stack lo := word?_setWord_of_ne 0 hsome' hne
    rw [hkept]
    exact word?_setWord_self hsome _
  case index => exact word?_setWord_self hsome' 0
  case size =>
    show (addArray s.heap n).size = _
    rw [size_addArray, elementAddress_zero]
  case length => exact getElem?_addArray_size s.heap n
  case elements =>
    intro j hj
    cases hj

/-- The test of a level ends it if all elements are filled in, and otherwise pushes the array and
the index.  It compares words, which is a comparison of numbers because both are small. -/
theorem reaches_test {a : Word} (hspans : Spans code (testCode slot lo done top) top body)
    (hpc : t.pc = top) (hslot : slot ≤ 255) (hlo : lo + 1 ≤ 255) (hdone : done < 65536)
    (hbody : body < 65536) (hlength : t.word? .stack slot = some (Int32.ofNat n))
    (harray : t.word? .stack lo = some a) (hindex : t.word? .stack (lo + 1) = some (Int32.ofNat i))
    (hn : n < 2147483648) (hi : i < 2147483648) :
    Reaches code t (if n ≤ i then t.moved done t.stack
      else t.moved body ((t.stack.push a).push (Int32.ofNat i))) := by
  subst hpc
  have hend : body = t.pc + 20 := hspans.2
  obtain ⟨hleft, hspans⟩ := hspans.cons
  obtain ⟨hright, hspans⟩ := hspans.cons
  obtain ⟨hcompare, hspans⟩ := hspans.split
  obtain ⟨hone, hspans⟩ := hspans.cons
  obtain ⟨hbranch, hspans⟩ := hspans.cons
  obtain ⟨hpushArray, hspans⟩ := hspans.cons
  obtain ⟨hpushIndex, -⟩ := hspans.cons
  have hholds : Comparison.ge.holds (Int32.ofNat i) (Int32.ofNat n) = decide (n ≤ i) := by
    simp only [Comparison.holds, ofNat_le_ofNat hn hi]
  -- the comparison leaves a truth value
  have hcompared : Reaches code t
      (t.moved (t.pc + 12) (t.stack.push (boolWord (decide (n ≤ i))))) := by
    have hfirst := reaches_loadSlot hlo hindex hleft
    have hsecond := reaches_loadSlot
      (s := t.moved (t.pc + 2) (t.stack.push (Int32.ofNat i))) hslot hlength hright
    have hthird := reaches_compareCode
      (s := t.moved (t.pc + 4) ((t.stack.push (Int32.ofNat i)).push (Int32.ofNat n))) rfl
      (by show t.pc + 4 + 8 < 65536; omega) hcompare.1
    rw [hholds] at hthird
    exact (hfirst.trans hsecond).trans hthird
  have hpushed := reaches_ofConst (v := 1)
    (s := t.moved (t.pc + 12) (t.stack.push (boolWord (decide (n ≤ i))))) hone
  have hbranched := reaches_branch
    (s := t.moved (t.pc + 13) ((t.stack.push (boolWord (decide (n ≤ i)))).push 1)) rfl hdone hbranch
  have htested := (hcompared.trans hpushed).trans hbranched
  by_cases hle : n ≤ i
  · rw [if_pos hle]
    simp only [hle, decide_true] at htested
    exact htested
  · rw [if_neg hle]
    simp only [hle, decide_false] at htested
    have hfirst := reaches_loadSlot (s := t.moved (t.pc + 16) t.stack) (by omega) harray hpushArray
    have hsecond :=
      reaches_loadSlot (s := t.moved (t.pc + 18) (t.stack.push a)) hlo hindex hpushIndex
    rw [hend]
    exact (htested.trans hfirst).trans hsecond

/-- The end of an iteration stores the element and goes on with the next index. -/
theorem reaches_advance {u : State} {stack : Array Word} {a v : Word} {j : Nat}
    (hspans : Spans code (advanceCode lo top) tail done) (hpc : u.pc = tail) (hlo : lo + 1 ≤ 255)
    (htop : top < 65536) (hstack : u.stack = ((stack.push a).push (Int32.ofNat i)).push v)
    (helement : elementIndex a (Int32.ofNat i) u = .ok j u)
    (hindex : u.word? .stack (lo + 1) = some (Int32.ofNat i)) :
    Reaches code u ((State.setWord { u with heap := u.heap.setIfInBounds j v } .stack (lo + 1)
      (Int32.ofNat (i + 1))).moved top stack) := by
  subst hpc
  obtain ⟨hastore, hspans⟩ := hspans.cons
  obtain ⟨hload, hspans⟩ := hspans.cons
  obtain ⟨hone, hspans⟩ := hspans.cons
  obtain ⟨hadd, hspans⟩ := hspans.cons
  obtain ⟨hstore, hspans⟩ := hspans.cons
  obtain ⟨hjump, -⟩ := hspans.cons
  -- the heap has changed by the first instruction, and the frame changes by the fifth
  let w : State := { u with heap := u.heap.setIfInBounds j v }
  have hsome : (w.word? .stack (lo + 1)).isSome = true := Option.isSome_of_mem hindex
  have hnext : Arithmetic.add.apply (Int32.ofNat i) 1 = some (Int32.ofNat (i + 1)) :=
    congrArg some (Int32.ofNat_add i 1).symm
  have hstored : Reaches code u (w.moved (u.pc + 1) stack) :=
    reaches_storeElement hstack helement hastore
  have hloaded := reaches_loadSlot (s := w.moved (u.pc + 1) stack) hlo hindex hload
  have hpushed := reaches_ofConst (v := 1)
    (s := w.moved (u.pc + 3) (stack.push (Int32.ofNat i))) hone
  have hadded := reaches_arithmetic
    (s := w.moved (u.pc + 4) ((stack.push (Int32.ofNat i)).push 1)) rfl hnext hadd
  have hkept := reaches_storeSlot
    (s := w.moved (u.pc + 5) (stack.push (Int32.ofNat (i + 1)))) hlo hsome rfl hstore
  have hjumped := reaches_jump
    (s := (w.setWord .stack (lo + 1) (Int32.ofNat (i + 1))).moved (u.pc + 7) stack) htop hjump
  exact ((((hstored.trans hloaded).trans hpushed).trans hadded).trans hkept).trans hjumped

/-- An array behind all others becomes the next element.  The code that has allocated it spares the
words of this level, and the elements that are filled in already depend on their own words only. -/
theorem Filling.next {u : State} (h : Filling s t n i ns lo hi) (hin : i < n) (hlo : lo + 2 ≤ hi)
    (hsome : (s.word? .stack (lo + 1)).isSome = true) (hspares : Spares (lo + 2) hi t u)
    (hsize : u.heap.size = t.heap.size + arrayWords ns) (hfilled : Filled u.heap ns t.heap.size)
    (pc : Nat) :
    Filling s ((State.setWord
      { u with heap := u.heap.setIfInBounds (s.heap.size + (i + 1)) (Int32.ofNat t.heap.size) }
      .stack (lo + 1) (Int32.ofNat (i + 1))).moved pc s.stack) n (i + 1) ns lo hi := by
  have hstart : s.heap.size + (n + 1) ≤ t.heap.size := by
    rw [h.size]
    exact Nat.le_add_right _ _
  -- the heap with the new element
  let heap := u.heap.setIfInBounds (s.heap.size + (i + 1)) (Int32.ofNat t.heap.size)
  have hheapSize : heap.size = u.heap.size := Array.size_setIfInBounds
  have hother : ∀ k, k ≠ s.heap.size + (i + 1) → heap[k]? = u.heap[k]? := by
    intro k hk
    rw [Array.getElem?_setIfInBounds, if_neg (Ne.symm hk)]
  have hold : ∀ k, k ≠ s.heap.size + (i + 1) → k < t.heap.size → heap[k]? = t.heap[k]? := by
    intro k hk hlt
    rw [hother k hk, hspares.heap k hlt]
  have helement : heap[s.heap.size + (i + 1)]? = some (Int32.ofNat t.heap.size) := by
    rw [Array.getElem?_setIfInBounds, if_pos rfl, if_pos (by omega)]
  -- the frame with the new index
  let w : State := { u with heap := heap }
  have hsparesW : Spares lo hi s w := by
    refine (h.spares.trans hspares (by omega) (Nat.le_refl hi)).withHeap (by omega) fun k hk => ?_
    rw [hold k (by omega) (by omega), h.spares.heap k hk]
  have hsomeW : (w.word? .stack (lo + 1)).isSome = true := by
    rw [hsparesW.isSome]
    exact hsome
  constructor
  case stack => rfl
  case spares => exact (hsparesW.setWord (by omega) (by omega) hsomeW _).moved _ _
  case array =>
    have hne : (Region.stack, lo) ≠ (Region.stack, lo + 1) := by simp
    have hkept : (w.setWord .stack (lo + 1) (Int32.ofNat (i + 1))).word? .stack lo
        = t.word? .stack lo :=
      (word?_setWord_of_ne _ hsomeW hne).trans (hspares.word lo (by omega))
    exact hkept.trans h.array
  case index => exact word?_setWord_self hsomeW _
  case size =>
    show heap.size = _
    rw [hheapSize, hsize, h.size, elementAddress_succ]
  case length =>
    show heap[s.heap.size]? = _
    rw [hold _ (by omega) (by omega), h.length]
  case elements =>
    intro j hj
    show heap[s.heap.size + (j + 1)]? = _ ∧ Filled heap ns _
    have hge : s.heap.size + (n + 1) ≤ elementAddress s.heap.size n ns j := Nat.le_add_right _ _
    rcases Nat.lt_succ_iff_lt_or_eq.mp hj with hlt | rfl
    · obtain ⟨haddress, hinner⟩ := h.elements j hlt
      have hle : elementAddress s.heap.size n ns j + arrayWords ns ≤ t.heap.size := by
        rw [h.size]
        exact elementAddress_le hlt
      refine ⟨?_, hinner.congr fun k hk hlt => hold k (by omega) (by omega)⟩
      rw [hold _ (by omega) (by omega)]
      exact haddress
    · rw [← h.size]
      exact ⟨helement, hfilled.congr fun k hk _ => hother k (by omega)⟩

/-- The loop does not change the length, whose word is before those that the level uses. -/
theorem Filling.word_length {slots : List Nat} (h : Filling s t n i ns lo hi)
    (hprepared : Prepared s (slot :: slots) (n :: ns) lo hi) :
    t.word? .stack slot = some (Int32.ofNat n) := by
  obtain ⟨⟨hslot, -, hlength⟩, -⟩ := List.forall₂_cons.mp hprepared.stored
  rw [h.spares.word slot (Or.inl hslot)]
  exact hlength

/-- **One iteration fills one element in.**  The code of the later levels is known to allocate an
array, and what is left of the iteration is the test before it and the store after it. -/
theorem Filling.advance {slots : List Nat} (h : Filling s t n i ns lo hi) (hin : i < n)
    (hpc : t.pc = top) (hprepared : Prepared s (slot :: slots) (n :: ns) lo hi)
    (hroom : s.heap.size + arrayWords (n :: ns) ≤ room) (hlo : lo + 2 ≤ hi)
    (htest : Spans code (testCode slot lo done top) top body) (hbody : body < 65536)
    (hinner : Builds room code slots ns (lo + 2) hi body tail)
    (hadvance : Spans code (advanceCode lo top) tail done) (hdone : done < 65536) :
    ∃ t', Attains room code t t' ∧ t'.pc = top ∧ Filling s t' n (i + 1) ns lo hi := by
  obtain ⟨⟨hslot, hn, -⟩, hstored⟩ := List.forall₂_cons.mp hprepared.stored
  have hhi := hprepared.hi_le
  have hpos := hprepared.heap_pos
  have hrange := hprepared.heap_le
  obtain ⟨hge, hle⟩ := elementAddress_mem s.heap.size ns hin
  rw [← h.size] at hge hle
  -- the array and the index are pushed
  have htested := reaches_test htest hpc (by omega) (by omega) hdone hbody
    (h.word_length hprepared) h.array h.index hn (by omega)
  rw [if_neg (by omega), h.stack] at htested
  -- the later levels leave a new array
  have hprepared' : Prepared (t.moved body ((s.stack.push (Int32.ofNat s.heap.size)).push
      (Int32.ofNat i))) slots ns (lo + 2) hi := by
    refine ⟨hstored.imp fun k m hk => ?_, fun k hk => ?_, hhi, by show 0 < t.heap.size; omega, ?_⟩
    · obtain ⟨hk, hm, hword⟩ := hk
      refine ⟨by omega, hm, ?_⟩
      rw [word?_moved, h.spares.word k (Or.inl hk)]
      exact hword
    · rw [word?_moved, h.spares.isSome]
      exact hprepared.words k hk
    · show t.heap.size + arrayWords ns ≤ _
      omega
  obtain ⟨u, hbuilds, hupc, hbuilt⟩ := hinner _ rfl hprepared' (by show t.heap.size + _ ≤ _; omega)
  have hspares : Spares (lo + 2) hi t u :=
    ((Spares.refl (lo + 2) hi t).moved _ _).trans hbuilt.spares (Nat.le_refl _) (Nat.le_refl _)
  have husize : u.heap.size = t.heap.size + arrayWords ns := hbuilt.size
  -- it is stored
  have hindex : u.word? .stack (lo + 1) = some (Int32.ofNat i) := by
    rw [hspares.word (lo + 1) (by omega)]
    exact h.index
  have harray : u.heap[s.heap.size]? = some (Int32.ofNat n) := by
    rw [hspares.heap _ (by omega)]
    exact h.length
  have helement : elementIndex (Int32.ofNat s.heap.size) (Int32.ofNat i) u
      = .ok (s.heap.size + (i + 1)) u :=
    elementIndex_ofNat hpos harray hin hn (by omega) (by omega)
  have hadvanced := reaches_advance hadvance hupc (by omega)
    (by have hend := htest.le; omega) hbuilt.stack helement hindex
  refine ⟨_, (htested.attains.trans hbuilds).trans hadvanced.attains, rfl, ?_⟩
  exact h.next hin hlo (hprepared.words (lo + 1) (by omega)) hspares husize hbuilt.filled top

/-- All iterations fill all elements in, by induction on how many are left. -/
theorem Filling.run {slots : List Nat} {k : Nat} (h : Filling s t n i ns lo hi) (hk : i + k = n)
    (hpc : t.pc = top) (hprepared : Prepared s (slot :: slots) (n :: ns) lo hi)
    (hroom : s.heap.size + arrayWords (n :: ns) ≤ room) (hlo : lo + 2 ≤ hi)
    (htest : Spans code (testCode slot lo done top) top body) (hbody : body < 65536)
    (hinner : Builds room code slots ns (lo + 2) hi body tail)
    (hadvance : Spans code (advanceCode lo top) tail done) (hdone : done < 65536) :
    ∃ t', Attains room code t t' ∧ t'.pc = top ∧ Filling s t' n n ns lo hi := by
  induction k generalizing t i with
  | zero =>
    obtain rfl : i = n := hk
    exact ⟨t, .refl t, hpc, h⟩
  | succ k ih =>
    obtain ⟨t₁, hfirst, hpc₁, h₁⟩ := h.advance (by omega) hpc hprepared hroom hlo htest hbody hinner
      hadvance hdone
    obtain ⟨t', hrest, hpc', h'⟩ := ih h₁ (by omega) hpc₁
    exact ⟨t', hfirst.trans hrest, hpc', h'⟩

/-- The end of a level pushes the array, when the test finds all elements filled in. -/
theorem Filling.finish {slots : List Nat} {next m : Nat}
    (h : Filling s t n n (m :: ns) lo hi) (hpc : t.pc = top)
    (hprepared : Prepared s (slot :: slots) (n :: m :: ns) lo hi) (hlo : lo + 2 ≤ hi)
    (htest : Spans code (testCode slot lo done top) top body) (hbody : body < 65536)
    (hdone : done < 65536) (hresult : Spans code [.load (UInt8.ofNat lo)] done next) :
    ∃ s', Reaches code t s' ∧ s'.pc = next ∧ Built s s' (n :: m :: ns) lo hi := by
  obtain ⟨⟨hslot, hn, -⟩, -⟩ := List.forall₂_cons.mp hprepared.stored
  have hhi := hprepared.hi_le
  have htested := reaches_test htest hpc (by omega) (by omega) hdone hbody
    (h.word_length hprepared) h.array h.index hn hn
  rw [if_pos (Nat.le_refl n)] at htested
  obtain ⟨hload, hend⟩ := hresult.cons
  have hloaded := reaches_loadSlot (s := t.moved done t.stack) (by omega) h.array hload
  refine ⟨_, htested.trans hloaded, hend.2.symm, ?_, (h.spares.moved _ _).moved _ _,
    h.size.trans (elementAddress_length _ _ _), h.length, h.elements⟩
  show t.stack.push _ = _
  rw [h.stack]

end Level

/-- The last level is a single array, without a loop: its elements are 0 from the start. -/
theorem builds_single {room : Nat} {code : Array UInt8} {slot n lo base next : Nat}
    (hspans : Spans code [.load (UInt8.ofNat slot), .newArray 1] base next) :
    Builds room code [slot] [n] lo lo base next := by
  intro s hpc hprepared hroom
  subst hpc
  obtain ⟨⟨hslot, hn, hlength⟩, -⟩ := List.forall₂_cons.mp hprepared.stored
  have hhi := hprepared.hi_le
  have hrange := hprepared.heap_le
  have hwords : arrayWords [n] = n + 1 := by simp
  rw [hwords] at hroom hrange
  obtain ⟨hload, hspans⟩ := hspans.cons
  obtain ⟨hnew, hspans⟩ := hspans.cons
  have hpushed := reaches_loadSlot (by omega) hlength hload
  have hallocated : Attains room code (s.moved (s.pc + 2) (s.stack.push (Int32.ofNat n)))
      { s.moved (s.pc + 4) (s.stack.push (Int32.ofNat s.heap.size)) with
        heap := addArray s.heap n } :=
    attains_newArray rfl hn hroom (by show s.heap.size < _; omega) hnew
  exact ⟨_, hpushed.attains.trans hallocated, hspans.2.symm,
    built_addArray s n lo lo (s.pc + 4)⟩

/-- **The code of all levels allocates the whole array.**  By induction on the levels: the code
inside of the loop of a level is that of the later ones. -/
theorem builds_of_levels {room : Nat} {code : Array UInt8} {slots lengths : List Nat}
    {lo hi base next : Nat} (h : Levels code slots lo hi base next) (hne : slots ≠ []) :
    Builds room code slots lengths lo hi base next := by
  induction slots generalizing lengths lo base next with
  | nil => exact absurd rfl hne
  | cons slot slots ih =>
    intro s hpc hprepared hroom
    obtain ⟨n, ns, -, hstored, rfl⟩ := List.forall₂_cons_left_iff.mp hprepared.stored
    cases slots with
    | nil =>
      cases hstored
      obtain ⟨rfl, hspans⟩ := h
      exact builds_single hspans s hpc hprepared hroom
    | cons inner rest =>
      obtain ⟨m, ns, -, -, rfl⟩ := List.forall₂_cons_left_iff.mp hstored
      obtain ⟨top, body, tail, done, hstart, htest, hlevels, hadvance, hdone, hresult⟩ := h
      obtain ⟨hlo, hbody⟩ := hlevels.le
      have htail := hadvance.le
      -- before the loop, the loop, and after it
      obtain ⟨t, hallocated, htpc, hfilling⟩ :=
        exists_filling_zero hstart hpc hprepared hlo hroom
      obtain ⟨t', hfilled, htpc', hfilling'⟩ :=
        hfilling.run (Nat.zero_add n) htpc hprepared hroom hlo htest (by omega)
          (ih hlevels (List.cons_ne_nil _ _)) hadvance hdone
      obtain ⟨s', hended, hpc', hbuilt⟩ := hfilling'.finish htpc' hprepared hlo htest (by omega)
        hdone hresult
      exact ⟨s', (hallocated.trans hfilled).trans hended.attains, hpc', hbuilt⟩

end Machine
end MJ
