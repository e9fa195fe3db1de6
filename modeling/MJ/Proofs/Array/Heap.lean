import MJ.Proofs.Storage

/-!
# Runs that use the heap

An array is a block of the heap: a word with its length, then its elements.  A new one is put
after all that is there.  Whether there is room for it depends on the limit on the heap, so runs
that allocate are described for the limits that leave a number of words.

## Main definitions

* `Machine.Attains` — steps lead from one state to another if the heap may have so many words.
* `Machine.RunsWithin` — a run has an outcome if the heap may have so many words.
* `Machine.addArray` — a heap with a new array.

## Main results

* `Machine.attains_newArray` — an array is allocated.
* `Machine.reaches_storeElement`, `Machine.reaches_loadElement`, `Machine.reaches_getField` — words
  of objects.
-/

namespace MJ
namespace Machine

/-! ### Runs within a heap -/

/-- Steps lead from one state to the other, apart from the number of steps, if the heap may have
`room` words: a run that is long enough comes to the other state, unless a limit on steps or on the
stack cuts it short; limits that are large enough do not. -/
def Attains (room : Nat) (code : Array UInt8) (s s' : State) : Prop :=
  ∃ n, ∀ k,
    (∀ limits : Limits, room ≤ limits.heapWords → ∀ r,
      (runFor limits code (n + r) { s with steps := k }).IsLimited ∨
        runFor limits code (n + r) { s with steps := k }
          = runFor limits code r { s' with steps := k + n }) ∧
    ∃ steps words, ∀ limits : Limits, room ≤ limits.heapWords → limits.Allow steps words →
      ∀ r, runFor limits code (n + r) { s with steps := k }
        = runFor limits code r { s' with steps := k + n }

/-- A run of `n` steps has an outcome if the heap may have `room` words, unless a limit on steps or
on the stack cuts it short; limits that are large enough do not. -/
def RunsWithin (room : Nat) (code : Array UInt8) (s : State) (n : Nat) (o : Outcome) : Prop :=
  (∀ limits : Limits, room ≤ limits.heapWords →
    (runFor limits code n s).IsLimited ∨ runFor limits code n s = o) ∧
  ∃ steps words, ∀ limits : Limits, room ≤ limits.heapWords → limits.Allow steps words →
    runFor limits code n s = o

variable {room : Nat} {code : Array UInt8}

/-- Steps that do not depend on the limit on the heap lead there in any room. -/
theorem Reaches.attains {s s' : State} (h : Reaches code s s') : Attains room code s s' := by
  obtain ⟨n, hn⟩ := h
  refine ⟨n, fun k => ⟨fun limits _ r => ?_, ?_⟩⟩
  · rcases (hn k).runFor_or_limited limits (n + r) with hlimited | ⟨hlt, -⟩ | ⟨r', hr, hrun⟩
    · exact Or.inl hlimited
    · exact absurd hlt (by omega)
    · obtain rfl : r = r' := by omega
      exact Or.inr hrun
  · obtain ⟨steps, words, hrun⟩ := (hn k).exists_runFor
    exact ⟨steps, words, fun limits _ hallow => hrun limits hallow⟩

theorem Attains.refl (s : State) : Attains room code s s := (Reaches.refl s).attains

/-- Steps after other steps.  The limits that are large enough for both are the maxima. -/
theorem Attains.trans {s s₁ s₂ : State} (h : Attains room code s s₁)
    (h' : Attains room code s₁ s₂) : Attains room code s s₂ := by
  obtain ⟨m, hm⟩ := h
  obtain ⟨n, hn⟩ := h'
  refine ⟨m + n, fun k => ?_⟩
  obtain ⟨hm, steps, words, hmrun⟩ := hm k
  obtain ⟨hn, steps', words', hnrun⟩ := hn (k + m)
  rw [← Nat.add_assoc]
  refine ⟨fun limits hroom r => ?_, max steps steps', max words words',
    fun limits hroom hallow r => ?_⟩
  · rw [Nat.add_assoc m n r]
    rcases hm limits hroom (n + r) with hlimited | hrun
    · exact Or.inl hlimited
    · rw [hrun]
      exact hn limits hroom r
  · rw [Nat.add_assoc m n r,
      hmrun limits hroom (hallow.mono (Nat.le_max_left _ _) (Nat.le_max_left _ _)),
      hnrun limits hroom (hallow.mono (Nat.le_max_right _ _) (Nat.le_max_right _ _))]

/-- One instruction after which the machine goes on.  It need only be known what the instruction
does when the heap has room, with any number of steps so far. -/
theorem attains_of_execute {s s' : State} {i : Instruction} (hcode : CodeAt code s.pc i.bytes)
    (hlast : i ≠ .last)
    (h : ∀ limits : Limits, room ≤ limits.heapWords → ∀ k,
      execute limits i { s with steps := k, pc := s.pc + i.size }
        = .ok true { s' with steps := k }) : Attains room code s s' := by
  have hfetch := fetch_of_codeAt hcode hlast
  have hstep : ∀ limits : Limits, room ≤ limits.heapWords → ∀ k,
      checkLimits limits { s with steps := k } = .ok () { s with steps := k + 1 } →
      step limits code { s with steps := k } = .ok true { s' with steps := k + 1 } := by
    intro limits hroom k hlimits
    exact step_of_fetch hfetch (h limits hroom (k + 1)) hlimits
  refine ⟨1, fun k => ⟨fun limits hroom r => ?_, k + 1, s.stack.size,
    fun limits hroom hallow r => ?_⟩⟩
  · rw [Nat.add_comm]
    rcases step_or_limited (hstep limits hroom k) with hfirst | hlimited
    · rw [runFor, hfirst]
      exact Or.inr rfl
    · exact Or.inl (hlimited r)
  · rw [Nat.add_comm, runFor, hstep limits hroom k (checkLimits_of_allow hallow)]

theorem Attains.runsWithin {s s' : State} (h : Attains room code s s') :
    ∃ n, RunsWithin room code s n ⟨.unfinished, { s' with steps := s.steps + n }⟩ := by
  obtain ⟨n, hn⟩ := h
  obtain ⟨hrun, steps, words, hallowed⟩ := hn s.steps
  exact ⟨n, fun limits hroom => hrun limits hroom 0, steps, words,
    fun limits hroom hallow => hallowed limits hroom hallow 0⟩

/-! ### Small numbers as words -/

theorem ofNat_ne_zero {n : Nat} (hpos : 0 < n) (hlt : n < 2147483648) : Int32.ofNat n ≠ 0 := by
  intro h
  have htoInt := congrArg Int32.toInt h
  rw [Int32.toInt_ofNat_of_lt hlt, Int32.toInt_zero] at htoInt
  omega

theorem not_ofNat_neg {n : Nat} (hlt : n < 2147483648) : ¬ Int32.ofNat n < 0 := by
  rw [Int32.lt_iff_toInt_lt, Int32.toInt_ofNat_of_lt hlt, Int32.toInt_zero]
  omega

theorem toNat_ofNat {n : Nat} (hlt : n < 2147483648) : (Int32.ofNat n).toInt.toNat = n := by
  rw [Int32.toInt_ofNat_of_lt hlt, Int.toNat_natCast]

/-- A word that is not negative is a small number.  Lengths are tested for this before an array is
allocated. -/
theorem exists_ofNat {v : Word} (h : ¬ v < 0) : ∃ n, n < 2147483648 ∧ v = Int32.ofNat n := by
  rw [Int32.lt_iff_toInt_lt, Int32.toInt_zero] at h
  have hlt : v.toInt < 2147483648 := Int32.toInt_lt v
  refine ⟨v.toInt.toNat, by omega, Int32.toInt_inj.mp ?_⟩
  rw [Int32.toInt_ofNat_of_lt (by omega)]
  omega

theorem ofNat_le_ofNat {m n : Nat} (hm : m < 2147483648) (hn : n < 2147483648) :
    Int32.ofNat m ≤ Int32.ofNat n ↔ m ≤ n := by
  rw [Int32.le_iff_toInt_le, Int32.toInt_ofNat_of_lt hm, Int32.toInt_ofNat_of_lt hn]
  omega

/-! ### Words of objects -/

/-- A word of an object is in the heap, and the object is not the null object.  These are all checks
that the machine makes, and the state is not changed by them. -/
theorem heapIndex_eq_ok {s s' : State} {base offset : Word} {j : Nat} :
    heapIndex base offset s = .ok j s' ↔ base ≠ 0 ∧ 0 ≤ base + offset ∧
      (base + offset).toInt.toNat < s.heap.size ∧ j = (base + offset).toInt.toNat ∧ s' = s := by
  unfold heapIndex
  constructor
  · intro h
    by_cases hbase : base = 0
    · rw [if_pos hbase] at h
      cases h
    rw [if_neg hbase] at h
    by_cases hinside : 0 ≤ base + offset ∧ (base + offset).toInt.toNat < s.heap.size
    · simp only [if_pos hinside] at h
      obtain ⟨rfl, rfl⟩ := EStateM.Result.ok.inj h
      exact ⟨hbase, hinside.1, hinside.2, rfl, rfl⟩
    · simp only [if_neg hinside] at h
      cases h
  · rintro ⟨hbase, hnonneg, hlt, rfl, rfl⟩
    simp only [if_neg hbase, if_pos (And.intro hnonneg hlt)]

/-- The index of a word of an object depends on the heap only. -/
theorem heapIndex_congr {s s' : State} {base offset : Word} {j : Nat}
    (h : heapIndex base offset s = .ok j s) (hheap : s'.heap = s.heap) :
    heapIndex base offset s' = .ok j s' := by
  obtain ⟨hbase, hnonneg, hlt, rfl, -⟩ := heapIndex_eq_ok.mp h
  rw [← hheap] at hlt
  exact heapIndex_eq_ok.mpr ⟨hbase, hnonneg, hlt, rfl, rfl⟩

theorem heapIndex_ofNat {s : State} {a k : Nat} (ha : 0 < a) (hlt : a + k < s.heap.size)
    (hrange : s.heap.size ≤ 2147483648) :
    heapIndex (Int32.ofNat a) (Int32.ofNat k) s = .ok (a + k) s := by
  have haddress : a + k < 2147483648 := Nat.lt_of_lt_of_le hlt hrange
  have hnonneg : (0 : Int32) ≤ Int32.ofNat (a + k) := by
    rw [Int32.le_iff_toInt_le, Int32.toInt_ofNat_of_lt haddress, Int32.toInt_zero]
    omega
  rw [heapIndex_eq_ok, ← Int32.ofNat_add, toNat_ofNat haddress]
  exact ⟨ofNat_ne_zero ha (by omega), hnonneg, hlt, rfl, rfl⟩

theorem getHeap_of_getElem? {s : State} {j : Nat} {v : Word} (h : s.heap[j]? = some v) :
    getHeap j s = .ok v s := by
  rw [getHeap, Array.getD_eq_getD_getElem?, h]
  rfl

/-- The index of an element of an array: the length stands in front of the elements, and the machine
compares the index with it. -/
theorem elementIndex_ofNat {s : State} {a i n : Nat} (ha : 0 < a)
    (hlength : s.heap[a]? = some (Int32.ofNat n)) (hi : i < n) (hn : n < 2147483648)
    (hlt : a + (i + 1) < s.heap.size) (hrange : s.heap.size ≤ 2147483648) :
    elementIndex (Int32.ofNat a) (Int32.ofNat i) s = .ok (a + (i + 1)) s := by
  have hfirst : heapIndex (Int32.ofNat a) 0 s = .ok a s :=
    heapIndex_ofNat (k := 0) ha (by omega) hrange
  have hinside : ¬ (Int32.ofNat i < 0 ∨ Int32.ofNat n ≤ Int32.ofNat i) := by
    rw [ofNat_le_ofNat hn (by omega)]
    exact not_or.mpr ⟨not_ofNat_neg (by omega), by omega⟩
  have hnext : Int32.ofNat i + 1 = Int32.ofNat (i + 1) := (Int32.ofNat_add i 1).symm
  rw [elementIndex, Action.bind_of_ok hfirst, Action.bind_of_ok (getHeap_of_getElem? hlength),
    if_neg hinside, hnext]
  exact heapIndex_ofNat ha hlt hrange

/-- The index of an element depends on the heap only. -/
theorem elementIndex_congr {s s' : State} {base index : Word} {j : Nat}
    (h : elementIndex base index s = .ok j s) (hheap : s'.heap = s.heap) :
    elementIndex base index s' = .ok j s' := by
  unfold elementIndex at h ⊢
  obtain ⟨k, s₁, hfirst, hrest⟩ := Action.bind_eq_ok.mp h
  obtain ⟨-, -, -, -, rfl⟩ := heapIndex_eq_ok.mp hfirst
  obtain ⟨length, s₂, hget, hrest⟩ := Action.bind_eq_ok.mp hrest
  obtain ⟨hlength, rfl⟩ := EStateM.Result.ok.inj hget
  have hget' : getHeap k s' = .ok length s' := by
    rw [getHeap, hheap, hlength]
  refine (Action.bind_of_ok (heapIndex_congr hfirst hheap)).trans ?_
  refine (Action.bind_of_ok hget').trans ?_
  by_cases hinside : index < 0 ∨ length ≤ index
  · rw [if_pos hinside] at hrest
    cases hrest
  · rw [if_neg hinside] at hrest ⊢
    exact heapIndex_congr hrest hheap

section Objects

variable {s : State} {stack : Array Word} {base index v : Word} {j : Nat}

/-- An element of an array is loaded. -/
theorem reaches_loadElement (hstack : s.stack = (stack.push base).push index)
    (hindex : elementIndex base index s = .ok j s) (hv : s.heap[j]? = some v)
    (hcode : CodeAt code s.pc Instruction.loadElement.bytes) :
    Reaches code s (s.moved (s.pc + 1) (stack.push v)) := by
  refine reaches_of_execute hcode Instruction.noConfusion fun limits k => ?_
  have hindex' : elementIndex base index { s with steps := k, pc := s.pc + 1, stack := stack }
      = .ok j { s with steps := k, pc := s.pc + 1, stack := stack } :=
    elementIndex_congr hindex rfl
  unfold execute
  refine (pop_pop_push (by exact hstack) _).trans ?_
  refine (Action.bind_of_ok hindex').trans ?_
  exact Action.bind_of_ok (getHeap_of_getElem? (by exact hv))

/-- A field of a record is loaded. -/
theorem reaches_getField {n : Nat} (hn : n < 65536) (hstack : s.stack = stack.push base)
    (hindex : heapIndex base (Int32.ofNat n) s = .ok j s) (hv : s.heap[j]? = some v)
    (hcode : CodeAt code s.pc (Instruction.getField (Int16.ofNat n)).bytes) :
    Reaches code s (s.moved (s.pc + 3) (stack.push v)) := by
  have hunsigned : unsigned (Int16.ofNat n) = Int32.ofNat n := by
    rw [unsigned, Instruction.address_ofNat, Nat.mod_eq_of_lt hn]
  refine reaches_of_execute hcode Instruction.noConfusion fun limits k => ?_
  have hindex' : heapIndex base (Int32.ofNat n)
      { s with steps := k, pc := s.pc + 3, stack := stack }
        = .ok j { s with steps := k, pc := s.pc + 3, stack := stack } :=
    heapIndex_congr hindex rfl
  unfold execute
  refine (Action.bind_of_ok (pop_push (by exact hstack))).trans ?_
  rw [hunsigned]
  refine (Action.bind_of_ok hindex').trans ?_
  exact Action.bind_of_ok (getHeap_of_getElem? (by exact hv))

/-- An element of an array is stored. -/
theorem reaches_storeElement (hstack : s.stack = ((stack.push base).push index).push v)
    (hindex : elementIndex base index s = .ok j s)
    (hcode : CodeAt code s.pc Instruction.storeElement.bytes) :
    Reaches code s
      { s.moved (s.pc + 1) stack with heap := s.heap.setIfInBounds j v } := by
  refine reaches_of_execute hcode Instruction.noConfusion fun limits k => ?_
  have hindex' : elementIndex base index { s with steps := k, pc := s.pc + 1, stack := stack }
      = .ok j { s with steps := k, pc := s.pc + 1, stack := stack } :=
    elementIndex_congr hindex rfl
  unfold execute
  refine (Action.bind_of_ok (pop_push (by exact hstack))).trans ?_
  refine (pop_pop_push rfl _).trans ?_
  exact Action.bind_of_ok hindex'

end Objects

/-! ### New arrays -/

/-- The heap with a new array of `n` zeros behind all that is there.  The length comes first. -/
def addArray (heap : Array Word) (n : Nat) : Array Word :=
  heap.push (Int32.ofNat n) ++ Array.replicate n 0

@[simp] theorem size_addArray (heap : Array Word) (n : Nat) :
    (addArray heap n).size = heap.size + (n + 1) := by
  simp only [addArray, Array.size_append, Array.size_push, Array.size_replicate]
  omega

theorem getElem?_addArray_of_lt {heap : Array Word} {k : Nat} (n : Nat) (hk : k < heap.size) :
    (addArray heap n)[k]? = heap[k]? := by
  have hlt : k < (heap.push (Int32.ofNat n)).size := by
    rw [Array.size_push]
    omega
  rw [addArray, Array.getElem?_append_left hlt, Array.getElem?_push, if_neg (by omega)]

@[simp] theorem getElem?_addArray_size (heap : Array Word) (n : Nat) :
    (addArray heap n)[heap.size]? = some (Int32.ofNat n) := by
  have hlt : heap.size < (heap.push (Int32.ofNat n)).size := by
    rw [Array.size_push]
    omega
  rw [addArray, Array.getElem?_append_left hlt, Array.getElem?_push, if_pos rfl]

theorem getElem?_addArray_element {heap : Array Word} {n i : Nat} (hi : i < n) :
    (addArray heap n)[heap.size + (i + 1)]? = some 0 := by
  have hle : (heap.push (Int32.ofNat n)).size ≤ heap.size + (i + 1) := by
    rw [Array.size_push]
    omega
  have hindex : heap.size + (i + 1) - (heap.size + 1) = i := by omega
  rw [addArray, Array.getElem?_append_right hle, Array.size_push, hindex,
    Array.getElem?_replicate, if_pos hi]

/-- A zeroed object becomes an array when its length is put in front. -/
theorem setIfInBounds_length (heap : Array Word) (n : Nat) :
    (heap ++ Array.replicate (n + 1) 0).setIfInBounds heap.size (Int32.ofNat n)
      = addArray heap n := by
  refine Array.ext_getElem? fun k => ?_
  rw [Array.getElem?_setIfInBounds, Array.size_append, Array.size_replicate]
  by_cases hk : heap.size = k
  · subst hk
    rw [if_pos rfl, if_pos (by omega), getElem?_addArray_size]
  · rw [if_neg hk]
    rcases Nat.lt_or_ge k heap.size with hlt | hge
    · rw [Array.getElem?_append_left hlt, getElem?_addArray_of_lt n hlt]
    · rw [Array.getElem?_append_right hge, Array.getElem?_replicate]
      obtain ⟨i, rfl⟩ : ∃ i, k = heap.size + (i + 1) := ⟨k - heap.size - 1, by omega⟩
      by_cases hi : i < n
      · rw [if_pos (by omega), getElem?_addArray_element hi]
      · rw [if_neg (by omega), Array.getElem?_eq_none (by rw [size_addArray]; omega)]

/-- A new array is behind all that was allocated before, and its address is pushed.  The size of the
elements does not matter, since all of them take a word. -/
theorem attains_newArray {s : State} {stack : Array Word} {n : Nat} {size : Int8}
    (hstack : s.stack = stack.push (Int32.ofNat n)) (hn : n < 2147483648)
    (hroom : s.heap.size + (n + 1) ≤ room) (hrange : s.heap.size < 2147483648)
    (hcode : CodeAt code s.pc (Instruction.newArray size).bytes) :
    Attains room code s
      { s.moved (s.pc + 2) (stack.push (Int32.ofNat s.heap.size)) with
        heap := addArray s.heap n } := by
  refine attains_of_execute hcode Instruction.noConfusion fun limits hlimits k => ?_
  have hfits : ¬ limits.heapWords < s.heap.size + (n + 1) := by omega
  unfold execute
  refine (Action.bind_of_ok (pop_push (by exact hstack))).trans ?_
  rw [if_neg (not_ofNat_neg hn), toNat_ofNat hn]
  have hallocate : allocate limits (n + 1)
      { s with steps := k, pc := s.pc + 2, stack := stack }
        = .ok (Int32.ofNat s.heap.size) { s with
            steps := k, pc := s.pc + 2, stack := stack,
            heap := s.heap ++ Array.replicate (n + 1) 0 } := by
    unfold allocate
    simp only [if_neg hfits, Nat.max_eq_left (Nat.succ_le_succ (Nat.zero_le n))]
  refine (Action.bind_of_ok hallocate).trans ?_
  rw [toNat_ofNat hrange, ← setIfInBounds_length]
  rfl

end Machine
end MJ
