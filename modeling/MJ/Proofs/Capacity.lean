import MJ.Proofs.Commit

/-!
# The size of the heap

The heap grows by one object at a time.  An object is let in if its words fit, but it takes up one
word even if it has none.  So the heap stays within its limit, with a single exception: an object
without words that is asked for when the heap is full is let in, and the heap is one word too
large from then on.

## Main definitions

* `Machine.Grows` — how the heap changes when an instruction is executed.

## Main results

* `Machine.grows_of_step` — a step adds at most one object, and only `new 0` adds one without words.
* `Machine.runFor_heap` — what that means for a whole run.
* `Machine.heap_bounded` — **the heap outgrows its limit only by an object without words.**
* `Machine.full_heap_grows` — it does so.
-/

namespace MJ

/-- Whether an instruction asks for words of the heap. -/
def Instruction.allocates : Instruction → Bool
  | new _ | newArray _ => true
  | _ => false

/-- Only the operand 0 stands for the address 0. -/
theorem Instruction.eq_zero_of_address {n : Int16} (h : address n = 0) : n = 0 := by
  have hzero : n.toUInt16 = 0 := UInt16.toNat_inj.mp h
  rw [← Int16.toInt16_toUInt16 n, hzero]
  rfl

namespace Machine

variable {code : Array UInt8} {limits : Limits}

/-- How the heap may change when `i` is executed: it keeps its size, or an object is put after it
that was let in for its words and takes up at least one.  Only `new 0` asks for no word. -/
def Grows (limits : Limits) (i : Instruction) (s t : State) : Prop :=
  t.heap.size = s.heap.size ∨ ∃ words, s.heap.size + words ≤ limits.heapWords ∧
    t.heap.size = s.heap.size + max words 1 ∧ (words = 0 → i = .new 0)

/-! ### Instructions -/

/-- A change keeps the size of the heap or adds an object, and only `new 0` adds one without words:
an array has its length in the heap. -/
theorem Commit.grows {i : Instruction} {s t : State} (h : Commit limits i s t) :
    Grows limits i s t := by
  cases h with
  | setHeap k v => exact Or.inl (by simp)
  | newObject n hi hroom =>
    refine Or.inr ⟨_, hroom, by simp, fun hzero => ?_⟩
    rw [hi, Instruction.eq_zero_of_address hzero]
  | newArray kind length hi hlength hroom =>
    exact Or.inr ⟨_, hroom, by simp, fun hzero => by omega⟩
  | _ => exact Or.inl rfl

theorem grows_of_execute {i : Instruction} {s t : State} {goesOn : Bool}
    (h : execute limits i s = .ok goesOn t) : Grows limits i s t := by
  have hcommitted := execute_committed limits i s
  rw [h] at hcommitted
  cases goesOn with
  | false => exact Or.inl (by rw [hcommitted.1.heap])
  | true =>
    obtain ⟨u, hpopped, hcommit⟩ := hcommitted
    have hgrows := hcommit.grows
    rwa [Grows, hpopped.heap] at hgrows

/-- An instruction that allocates nothing keeps the size of the heap, also if it changes a word in
it. -/
theorem heap_size_of_execute {i : Instruction} {s t : State} {goesOn : Bool}
    (hi : i.allocates = false) (h : execute limits i s = .ok goesOn t) :
    t.heap.size = s.heap.size := by
  have hcommitted := execute_committed limits i s
  rw [h] at hcommitted
  cases goesOn with
  | false => rw [hcommitted.1.heap]
  | true =>
    obtain ⟨u, hpopped, hcommit⟩ := hcommitted
    -- the two changes that enlarge the heap say which instruction they belong to
    cases hcommit with
    | newObject n hnew =>
      subst hnew
      cases hi
    | newArray kind length hnew =>
      subst hnew
      cases hi
    | setHeap k v => simp [hpopped.heap]
    | _ => rw [hpopped.heap]

/-- Allocation lets an object in if its words fit. -/
theorem allocate_eq_ok {words : Nat} {s t : State} {base : Word}
    (h : allocate limits words s = .ok base t) :
    s.heap.size + words ≤ limits.heapWords ∧ base = Int32.ofNat s.heap.size ∧
      t = { s with heap := s.heap ++ Array.replicate (max words 1) 0 } := by
  unfold allocate at h
  dsimp only at h
  split at h
  · cases h
  · rename_i hroom
    cases h
    exact ⟨Nat.le_of_not_lt hroom, rfl, rfl⟩

/-! ### Steps -/

/-- A step adds at most one object, and only `new 0` adds one without words. -/
theorem grows_of_step {s t : State} {goesOn : Bool} (h : step limits code s = .ok goesOn t) :
    ∃ i, fetch code s.pc = .ok i ∧ Grows limits i s t := by
  obtain ⟨i, -, hfetch, hexecute⟩ := execute_of_step h
  have hgrows : Grows limits i (s.fetched i) t := grows_of_execute hexecute
  exact ⟨i, hfetch, hgrows⟩

/-- A step that fails leaves the heap as it is, since allocation checks the room before it takes
any. -/
theorem heap_of_error {s t : State} {cause : Stop} (h : step limits code s = .error cause t) :
    t.heap = s.heap := by
  rcases step_cases limits code s with ⟨cause', -, hstop⟩ | ⟨i, -, -, hstep⟩
  · cases hstop.symm.trans h
    rfl
  · have hcommitted := execute_committed limits i (s.fetched i)
    rw [← hstep, h] at hcommitted
    exact hcommitted.1.heap

/-! ### Runs -/

/-- The heap holds its unused word, and at most one word more than allowed.  This is what every run
keeps; the sharper bound needs the history of the run. -/
structure Roomy (limits : Limits) (s : State) : Prop where
  pos : 0 < s.heap.size
  le : s.heap.size ≤ limits.heapWords + 1

theorem Grows.roomy {i : Instruction} {s t : State} (h : Grows limits i s t)
    (hs : Roomy limits s) : Roomy limits t := by
  have hpos := hs.pos
  have hle := hs.le
  rcases h with hsize | ⟨words, hroom, hsize, -⟩
  · exact ⟨by omega, by omega⟩
  · exact ⟨by omega, by omega⟩

/-- A heap becomes too large only when an object without words is put into a full one.  The check
counts no word for it, and it takes up one. -/
theorem Grows.eq_new {i : Instruction} {s t : State} (h : Grows limits i s t)
    (hs : s.heap.size ≤ limits.heapWords) (ht : limits.heapWords < t.heap.size) :
    i = .new 0 ∧ s.heap.size = limits.heapWords := by
  rcases h with hsize | ⟨words, hroom, hsize, hnew⟩
  · omega
  · exact ⟨hnew (by omega), by omega⟩

/-- At some moment before `n` steps are made, `new 0` is executed and the heap is full. -/
def FillsUp (limits : Limits) (code : Array UInt8) (n : Nat) (s : State) : Prop :=
  ∃ m u, m < n ∧ runFor limits code m s = ⟨.unfinished, u⟩ ∧ fetch code u.pc = .ok (.new 0) ∧
    u.heap.size = limits.heapWords

theorem FillsUp.of_step {n : Nat} {s t : State} (hstep : step limits code s = .ok true t)
    (h : FillsUp limits code n t) : FillsUp limits code (n + 1) s := by
  obtain ⟨m, u, hm, hrun, hnew⟩ := h
  refine ⟨m + 1, u, Nat.succ_lt_succ hm, ?_, hnew⟩
  rw [runFor, hstep]
  exact hrun

/-- The heap is at most one word too large, and then it was so before or has become so by an object
without words.  By induction on the run, whose first step is treated apart. -/
theorem runFor_heap (code : Array UInt8) (n : Nat) {s : State} (h : Roomy limits s) :
    Roomy limits (runFor limits code n s).state ∧
      (limits.heapWords < (runFor limits code n s).state.heap.size →
        limits.heapWords < s.heap.size ∨ FillsUp limits code n s) := by
  -- one step that succeeds: it is the one that makes the heap too large, or that was so before
  have hfirst : ∀ {n goesOn s t}, step limits code s = .ok goesOn t → Roomy limits s →
      Roomy limits t ∧ (limits.heapWords < t.heap.size →
        limits.heapWords < s.heap.size ∨ FillsUp limits code (n + 1) s) := by
    intro n goesOn s t hstep hs
    obtain ⟨i, hfetch, hgrows⟩ := grows_of_step hstep
    refine ⟨hgrows.roomy hs, fun ht => ?_⟩
    by_cases hover : limits.heapWords < s.heap.size
    · exact Or.inl hover
    · obtain ⟨rfl, hfull⟩ := hgrows.eq_new (Nat.le_of_not_lt hover) ht
      exact Or.inr ⟨0, s, Nat.succ_pos n, rfl, hfetch, hfull⟩
  fun_induction runFor limits code n s with
  | case1 s => exact ⟨h, Or.inl⟩
  | case2 n s t hstep ih =>
    obtain ⟨ht, hover⟩ := hfirst hstep h
    obtain ⟨hroomy, hlater⟩ := ih ht
    refine ⟨hroomy, fun hend => ?_⟩
    rcases hlater hend with hearlier | hfills
    · exact hover hearlier
    · exact Or.inr (hfills.of_step hstep)
  | case3 n s t hstep => exact hfirst hstep h
  | case4 n s pc cause t hstep =>
    have hheap := heap_of_error hstep
    exact ⟨⟨hheap ▸ h.pos, hheap ▸ h.le⟩, fun hend => Or.inl (hheap ▸ hend)⟩

theorem roomy_load (limits : Limits) (image : Image) (input : List UInt8) :
    Roomy limits (.load image input) :=
  ⟨Nat.one_pos, Nat.succ_le_succ (Nat.zero_le _)⟩

/-- **The heap outgrows its limit only by an object without words.**  If there is room for the
unused word, the heap has at most as many words as allowed after any number of steps, unless `new 0`
was executed when it had exactly as many; then it has one more. -/
theorem heap_bounded (limits : Limits) (image : Image) (input : List UInt8)
    (hwords : 1 ≤ limits.heapWords) (n : Nat) :
    (runFor limits image.code.toArray n (.load image input)).state.heap.size
        ≤ limits.heapWords ∨
      (runFor limits image.code.toArray n (.load image input)).state.heap.size
          = limits.heapWords + 1 ∧
        ∃ m s, m < n ∧ runFor limits image.code.toArray m (.load image input) = ⟨.unfinished, s⟩ ∧
          fetch image.code.toArray s.pc = .ok (.new 0) ∧ s.heap.size = limits.heapWords := by
  obtain ⟨hroomy, hover⟩ := runFor_heap image.code.toArray n (roomy_load limits image input)
  by_cases hle : (runFor limits image.code.toArray n (.load image input)).state.heap.size
      ≤ limits.heapWords
  · exact Or.inl hle
  · have hlt := Nat.lt_of_not_le hle
    refine Or.inr ⟨Nat.le_antisymm hroomy.le hlt, ?_⟩
    rcases hover hlt with hload | hfills
    · exact absurd hload (Nat.not_lt.mpr hwords)
    · exact hfills

/-- The image of a program that makes two objects without words. -/
def emptyObjects : Image := .ofSegments (Code.ofInstructions [.new 0, .new 0, .ret]) [] 0

/-- With room for one object, the second one is let in too. -/
theorem heap_bounded_empty_objects :
    (runFor ⟨none, 9, 9, 2⟩ emptyObjects.code.toArray 3 (.load emptyObjects [])).state.heap.size
        = 3 ∧
      ∃ m s, m < 3 ∧ runFor ⟨none, 9, 9, 2⟩ emptyObjects.code.toArray m (.load emptyObjects [])
          = ⟨.unfinished, s⟩ ∧
        fetch emptyObjects.code.toArray s.pc = .ok (.new 0) ∧ s.heap.size = 2 := by
  have hsize : (runFor ⟨none, 9, 9, 2⟩ emptyObjects.code.toArray 3
      (.load emptyObjects [])).state.heap.size = 3 := by decide +kernel
  rcases heap_bounded ⟨none, 9, 9, 2⟩ emptyObjects [] (by decide) 3 with hle | hover
  · exact absurd hle (by rw [hsize]; decide)
  · exact hover

/-- A heap with room for nothing but its unused word takes in an object without words: it is not
true that the heap stays within its limit. -/
theorem full_heap_grows :
    ¬ ∀ (limits : Limits) (image : Image) (input : List UInt8), 1 ≤ limits.heapWords → ∀ n,
      (runFor limits image.code.toArray n (.load image input)).state.heap.size
        ≤ limits.heapWords := by
  intro h
  have hsize : (runFor ⟨none, 9, 9, 1⟩ emptyObjects.code.toArray 1
      (.load emptyObjects [])).state.heap.size = 2 := by decide +kernel
  have hle := h ⟨none, 9, 9, 1⟩ emptyObjects [] (by decide) 1
  rw [hsize] at hle
  exact absurd hle (by decide)

end Machine
end MJ
