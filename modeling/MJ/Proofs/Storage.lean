import MJ.Proofs.Execution

/-!
# Words in memory

A variable is a word of the innermost frame or of the static segment.  These are the lemmas that
say what loading and storing such a word do, and that storing one leaves all others alone.

## Main definitions

* `Machine.State.word?` — the word at a place.
* `Machine.State.setWord` — the state with another word at a place.

## Main results

* `Machine.reaches_load`, `Machine.reaches_store` — the two instructions.
* `Machine.word?_setWord_self`, `Machine.word?_setWord_of_ne` — a word is stored at its place and
  nowhere else.
-/

namespace MJ

/-! ### The instructions -/

/-- A number that an operand holds is not above the greatest one. -/
theorem Width.le_of_holds {w : Width} {n : Nat} (hlt : n < 2147483648)
    (h : w.holds (Int32.ofNat n) = true) : (n : Int) ≤ 2 * w.max + 1 := by
  simp only [Width.holds, Int32.toInt_ofNat_of_lt hlt, Bool.and_eq_true, decide_eq_true_eq] at h
  exact h.2

/-- A number that is not above the greatest one is held. -/
theorem Width.holds_of_le {w : Width} {n : Nat} (hlt : n < 2147483648)
    (h : (n : Int) ≤ 2 * w.max + 1) : w.holds (Int32.ofNat n) = true := by
  have hmin : w.min ≤ 0 := by cases w <;> decide
  simp only [Width.holds, Int32.toInt_ofNat_of_lt hlt, Bool.and_eq_true, decide_eq_true_eq]
  exact ⟨Int.le_trans hmin (Int.natCast_nonneg n), h⟩

namespace Region

theorem loadInstruction_stack (n : Nat) :
    stack.loadInstruction (Int32.ofNat n) = .load (UInt8.ofNat n) := by
  rw [loadInstruction, offsetWidth, Width.encode_s8_ofNat]
  rfl

theorem loadInstruction_static (n : Nat) :
    static.loadInstruction (Int32.ofNat n) = .getStatic (Int16.ofNat n) := by
  rw [loadInstruction, offsetWidth, Width.encode_s16_ofNat, ← Instruction.bytes_ofNat,
    BigEndian.bytes_two]
  exact congrArg Instruction.getStatic (Instruction.half_bytes _)

theorem storeInstruction_stack (n : Nat) :
    stack.storeInstruction (Int32.ofNat n) = .store (UInt8.ofNat n) := by
  rw [storeInstruction, offsetWidth, Width.encode_s8_ofNat]
  rfl

theorem storeInstruction_static (n : Nat) :
    static.storeInstruction (Int32.ofNat n) = .putStatic (Int16.ofNat n) := by
  rw [storeInstruction, offsetWidth, Width.encode_s16_ofNat, ← Instruction.bytes_ofNat,
    BigEndian.bytes_two]
  exact congrArg Instruction.putStatic (Instruction.half_bytes _)

end Region

/-- A word is made of its bytes. -/
theorem Word.ofBytes_encode (v : Word) :
    Word.ofBytes ((Width.s32.encode v).getD 0 0) ((Width.s32.encode v).getD 1 0)
      ((Width.s32.encode v).getD 2 0) ((Width.s32.encode v).getD 3 0) = v := by
  have hbytes : Width.s32.encode v = _ := BigEndian.bytes_four v.toUInt32.toNat
  simp only [hbytes, List.getD_cons_succ, List.getD_cons_zero]
  exact Instruction.ofBytes_bytes v

namespace Machine

/-! ### Bytes written over others -/

@[simp] theorem size_writeAt (data : Array UInt8) (start : Nat) (bs : List UInt8) :
    (writeAt data start bs).size = data.size := by
  induction bs generalizing data start with
  | nil => rfl
  | cons b bs ih => rw [writeAt, ih, Array.size_setIfInBounds]

/-- Bytes outside of the place that is written stay. -/
theorem getElem?_writeAt_of_outside {data : Array UInt8} {start k : Nat} {bs : List UInt8}
    (h : k < start ∨ start + bs.length ≤ k) : (writeAt data start bs)[k]? = data[k]? := by
  induction bs generalizing data start with
  | nil => rfl
  | cons b bs ih =>
    rw [List.length_cons] at h
    rw [writeAt, ih (by omega), Array.getElem?_setIfInBounds, if_neg (by omega)]

/-- Bytes inside of it are the new ones, if the place lies in the data as a whole. -/
theorem getElem?_writeAt_of_inside {data : Array UInt8} {start k : Nat} {bs : List UInt8}
    (hk : k < bs.length) (h : start + bs.length ≤ data.size) :
    (writeAt data start bs)[start + k]? = bs[k]? := by
  induction bs generalizing data start k with
  | nil => cases hk
  | cons b bs ih =>
    rw [List.length_cons] at h hk
    cases k with
    | zero =>
      rw [writeAt, getElem?_writeAt_of_outside (by omega), Array.getElem?_setIfInBounds,
        if_pos (Nat.add_zero start).symm, if_pos (by omega)]
      rfl
    | succ k =>
      rw [writeAt, ← Nat.add_assoc, Nat.add_right_comm,
        ih (by omega) (by rw [Array.size_setIfInBounds]; omega), List.getElem?_cons_succ]

/-- The static word at an address, if there is one.  All four bytes have to lie in the data. -/
def staticWord? (data : Array UInt8) (n : Nat) : Option Word :=
  if n * wordSize + wordSize ≤ data.size then
    let byte (i : Nat) : UInt8 := data.getD (n * wordSize + i) 0
    some (Word.ofBytes (byte 0) (byte 1) (byte 2) (byte 3))
  else none

/-- Words that have the same bytes are the same.  The sizes have to agree as well, since they decide
whether there is a word at all. -/
theorem staticWord?_congr {data data' : Array UInt8} {n : Nat} (hsize : data.size = data'.size)
    (h : ∀ k, k < wordSize → data[n * wordSize + k]? = data'[n * wordSize + k]?) :
    staticWord? data n = staticWord? data' n := by
  simp only [staticWord?, hsize, Array.getD_eq_getD_getElem?, h 0 (by decide), h 1 (by decide),
    h 2 (by decide), h 3 (by decide)]

/-- Zero bytes make a zero word. -/
theorem staticWord?_of_zero {data : Array UInt8} {n : Nat}
    (h : ∀ k, k < wordSize → data[n * wordSize + k]? = some 0) : staticWord? data n = some 0 := by
  have hfits : n * wordSize + wordSize ≤ data.size :=
    (Array.getElem?_eq_some_iff.mp (h (wordSize - 1) (by decide))).1
  rw [staticWord?, if_pos hfits]
  simp only [Array.getD_eq_getD_getElem?, h 0 (by decide), h 1 (by decide), h 2 (by decide),
    h 3 (by decide)]
  rfl

theorem staticWord?_writeAt_self {data : Array UInt8} {n : Nat} (v : Word)
    (h : n * wordSize + wordSize ≤ data.size) :
    staticWord? (writeAt data (n * wordSize) (Width.s32.encode v)) n = some v := by
  have hlength : (Width.s32.encode v).length = wordSize := Width.length_encode _ _
  have hbyte : ∀ k, k < wordSize →
      (writeAt data (n * wordSize) (Width.s32.encode v)).getD (n * wordSize + k) 0
        = (Width.s32.encode v).getD k 0 := by
    intro k hk
    rw [Array.getD_eq_getD_getElem?, getElem?_writeAt_of_inside (by omega) (by omega),
      List.getD_eq_getElem?_getD]
  rw [staticWord?, size_writeAt, if_pos h]
  simp only [hbyte 0 (by decide), hbyte 1 (by decide), hbyte 2 (by decide), hbyte 3 (by decide),
    Word.ofBytes_encode]

theorem staticWord?_writeAt_of_ne {data : Array UInt8} {m n : Nat} (v : Word) (h : m ≠ n) :
    staticWord? (writeAt data (n * wordSize) (Width.s32.encode v)) m = staticWord? data m := by
  have hlength : (Width.s32.encode v).length = wordSize := Width.length_encode _ _
  refine staticWord?_congr (size_writeAt _ _ _) fun k hk => ?_
  refine getElem?_writeAt_of_outside ?_
  rw [hlength]
  simp only [wordSize] at hk ⊢
  omega

/-! ### Words at a place -/

/-- The word at a place of a region, if there is one.  Words of objects are not at a place of
their own. -/
def State.word? (s : State) : Region → Nat → Option Word
  | .stack, n => s.frames.back?.bind (·[n]?)
  | .static, n => staticWord? s.statics n
  | .heap, _ => none

/-- The state with another word at a place.  Where there is no place, this is not what the machine
does, and so the lemmas ask for one. -/
def State.setWord (s : State) : Region → Nat → Word → State
  | .stack, n, v =>
    { s with frames := s.frames.pop.push ((s.frames.back?.getD #[]).setIfInBounds n v) }
  | .static, n, v => { s with statics := writeAt s.statics (n * wordSize) (Width.s32.encode v) }
  | .heap, _, _ => s

/-- What is stored does not depend on the counters and the evaluation stack, which change in the
same step. -/
theorem setWord_with (s : State) (r : Region) (n : Nat) (v : Word) (steps pc : Nat)
    (stack : Array Word) :
    State.setWord { s with steps := steps, pc := pc, stack := stack } r n v
      = { (s.setWord r n v).moved pc stack with steps := steps } := by
  cases r <;> simp only [State.setWord, State.moved]

@[simp] theorem word?_moved (s : State) (pc : Nat) (stack : Array Word) (r : Region) (n : Nat) :
    (s.moved pc stack).word? r n = s.word? r n := by
  cases r <;> rfl

theorem getLocal_of_word? {s : State} {n : Nat} {v : Word} (h : s.word? .stack n = some v) :
    getLocal n s = .ok v s := by
  obtain ⟨frame, hframe, hv⟩ := Option.bind_eq_some_iff.mp h
  rw [getLocal, hframe]
  simp only [hv]

theorem getStatic_of_word? {s : State} {n : Nat} {v : Word} (h : s.word? .static n = some v) :
    getStatic n s = .ok v s := by
  rw [State.word?, staticWord?] at h
  rw [getStatic]
  split at h
  · rename_i hsize
    obtain rfl := Option.some.inj h
    rw [if_pos hsize]
  · cases h

theorem setLocal_of_word? {s : State} {n : Nat} (h : (s.word? .stack n).isSome = true) (v : Word) :
    setLocal n v s = .ok () (s.setWord .stack n v) := by
  obtain ⟨w, hw⟩ := Option.isSome_iff_exists.mp h
  obtain ⟨frame, hframe, hv⟩ := Option.bind_eq_some_iff.mp hw
  have hn := (Array.getElem?_eq_some_iff.mp hv).1
  rw [setLocal, State.setWord, hframe]
  simp only [if_pos hn]
  rfl

theorem setStatic_of_word? {s : State} {n : Nat} (h : (s.word? .static n).isSome = true)
    (v : Word) : setStatic n v s = .ok () (s.setWord .static n v) := by
  rw [State.word?, staticWord?] at h
  rw [setStatic]
  split at h
  · rename_i hsize
    rw [if_pos hsize]
    rfl
  · cases h

/-- A stored word is at its place. -/
theorem word?_setWord_self {s : State} {r : Region} {n : Nat}
    (h : (s.word? r n).isSome = true) (v : Word) : (s.setWord r n v).word? r n = some v := by
  cases r with
  | stack =>
    obtain ⟨w, hw⟩ := Option.isSome_iff_exists.mp h
    obtain ⟨frame, hframe, hv⟩ := Option.bind_eq_some_iff.mp hw
    have hn := (Array.getElem?_eq_some_iff.mp hv).1
    simp only [State.word?, State.setWord, hframe, Array.back?_push, Option.bind_some,
      Option.getD_some, Array.getElem?_setIfInBounds, if_pos hn, if_true]
  | static =>
    rw [State.word?, staticWord?] at h
    split at h
    · rename_i hsize
      simp only [State.setWord, State.word?, staticWord?_writeAt_self v hsize]
    · cases h
  | heap => cases h

/-- A stored word is at no other place: words of the two regions never overlap, and neither do two
words of one region. -/
theorem word?_setWord_of_ne {s : State} {r r' : Region} {n n' : Nat} (v : Word)
    (hsome : (s.word? r n).isSome = true) (hne : (r', n') ≠ (r, n)) :
    (s.setWord r n v).word? r' n' = s.word? r' n' := by
  cases r with
  | stack =>
    cases r' with
    | stack =>
      obtain ⟨w, hw⟩ := Option.isSome_iff_exists.mp hsome
      obtain ⟨frame, hframe, -⟩ := Option.bind_eq_some_iff.mp hw
      have hn : n ≠ n' := fun h => hne (by rw [h])
      simp only [State.word?, State.setWord, hframe, Array.back?_push, Option.bind_some,
        Option.getD_some, Array.getElem?_setIfInBounds, if_neg hn]
    | static => rfl
    | heap => rfl
  | static =>
    cases r' with
    | stack => rfl
    | static =>
      have hn : n' ≠ n := fun h => hne (by rw [h])
      simp only [State.setWord, State.word?, staticWord?_writeAt_of_ne v hn]
    | heap => rfl
  | heap => cases hsome

/-- Words are those of the innermost frame and of the static segment. -/
theorem word?_congr {s s' : State} (hframes : s'.frames = s.frames)
    (hstatics : s'.statics = s.statics) (r : Region) (n : Nat) : s'.word? r n = s.word? r n := by
  cases r with
  | stack => rw [State.word?, hframes, State.word?]
  | static => rw [State.word?, hstatics, State.word?]
  | heap => rfl

/-- Storing a word changes no size. -/
theorem size_statics_setWord (s : State) (r : Region) (n : Nat) (v : Word) :
    (s.setWord r n v).statics.size = s.statics.size := by
  cases r with
  | stack => rfl
  | static => simp only [State.setWord, size_writeAt]
  | heap => rfl

/-- Storing a word leaves the static bytes after it alone. -/
theorem getElem?_statics_setWord {s : State} {r : Region} {n k : Nat} (v : Word)
    (h : r = .static → n * wordSize + wordSize ≤ k) :
    (s.setWord r n v).statics[k]? = s.statics[k]? := by
  cases r with
  | stack => rfl
  | static =>
    have hlength : (Width.s32.encode v).length = wordSize := Width.length_encode _ _
    have hafter : n * wordSize + (Width.s32.encode v).length ≤ k := by
      rw [hlength]
      exact h rfl
    simp only [State.setWord, getElem?_writeAt_of_outside (Or.inr hafter)]
  | heap => rfl

/-! ### Loading and storing -/

variable {code : Array UInt8} {s : State} {r : Region} {n : Nat} {v : Word}

/-- An instruction that names a place of the frame names its number, as the compiler checks that the
number fits. -/
theorem toNat_slot (hn : Region.stack.offsetWidth.holds (Int32.ofNat n) = true)
    (hlt : n < 2147483648) : (UInt8.ofNat n).toNat = n := by
  have hle : (n : Int) ≤ 255 := Width.le_of_holds hlt hn
  rw [UInt8.toNat_ofNat', Nat.mod_eq_of_lt (by omega)]

/-- An instruction that names a static word names its number. -/
theorem address_slot (hn : Region.static.offsetWidth.holds (Int32.ofNat n) = true)
    (hlt : n < 2147483648) : Instruction.address (Int16.ofNat n) = n := by
  have hle : (n : Int) ≤ 65535 := Width.le_of_holds hlt hn
  rw [Instruction.address_ofNat, Nat.mod_eq_of_lt (by omega)]

/-- A word is loaded from its place.  Whether it is a local or a static one makes no difference to
those who use this. -/
theorem reaches_load (hn : r.offsetWidth.holds (Int32.ofNat n) = true) (hlt : n < 2147483648)
    (hword : s.word? r n = some v)
    (hcode : CodeAt code s.pc (r.loadInstruction (Int32.ofNat n)).bytes) :
    Reaches code s (s.moved (s.pc + (r.loadInstruction (Int32.ofNat n)).size)
      (s.stack.push v)) := by
  cases r with
  | stack =>
    rw [Region.loadInstruction_stack] at hcode ⊢
    refine reaches_of_execute hcode Instruction.noConfusion fun limits k => ?_
    rw [execute, toNat_slot hn hlt]
    exact Action.bind_of_ok (getLocal_of_word? (by exact hword))
  | static =>
    rw [Region.loadInstruction_static] at hcode ⊢
    refine reaches_of_execute hcode Instruction.noConfusion fun limits k => ?_
    rw [execute, address_slot hn hlt]
    exact Action.bind_of_ok (getStatic_of_word? (by exact hword))
  | heap => cases hword

/-- A word is stored at its place. -/
theorem reaches_store {stack : Array Word} (hn : r.offsetWidth.holds (Int32.ofNat n) = true)
    (hlt : n < 2147483648) (hword : (s.word? r n).isSome = true) (hstack : s.stack = stack.push v)
    (hcode : CodeAt code s.pc (r.storeInstruction (Int32.ofNat n)).bytes) :
    Reaches code s ((s.setWord r n v).moved (s.pc + (r.storeInstruction (Int32.ofNat n)).size)
      stack) := by
  cases r with
  | stack =>
    rw [Region.storeInstruction_stack] at hcode ⊢
    refine reaches_of_execute hcode Instruction.noConfusion fun limits k => ?_
    rw [execute, toNat_slot hn hlt]
    -- the places of words are the same in the state that the step has started to change
    refine (Action.bind_of_ok (pop_push (by exact hstack))).trans ?_
    refine (Action.bind_of_ok (setLocal_of_word? (by exact hword) v)).trans ?_
    rw [setWord_with]
    rfl
  | static =>
    rw [Region.storeInstruction_static] at hcode ⊢
    refine reaches_of_execute hcode Instruction.noConfusion fun limits k => ?_
    rw [execute, address_slot hn hlt]
    refine (Action.bind_of_ok (pop_push (by exact hstack))).trans ?_
    refine (Action.bind_of_ok (setStatic_of_word? (by exact hword) v)).trans ?_
    rw [setWord_with]
    rfl
  | heap => cases hword

end Machine
end MJ
