import MJ.Proofs.Array.Heap
import MJ.Proofs.Capacity
import MJ.Proofs.Guarded.Machine

/-!
# The guards hold

The guarded machine does what the machine does: no guard fails.  Most guards hold because of a check
made just before, such as that of a static or heap address, or because an operand is small.  Three
need more.  The sums of `fetch` are small because the code fits the memory, those of an allocation
because the heap is limited, and those made on a line of input because the input fits the memory.

## Main definitions

* `Machine.Guarded.words` — the operands of an instruction as they are fetched.
* `Machine.Guarded.Sound` — the states in which all guards hold.

## Main results

* `Machine.Guarded.fetch_eq` — the operands that are fetched are those of the machine's instruction.
* `Machine.Guarded.execute_plain`, `execute_eq_lift` — no guard of an instruction fails.
* `Machine.Guarded.step_eq_lift` — **no guard of a step fails** in a sound state.
-/

namespace MJ

namespace Width

/-! ### Signed operands -/

theorem signed_s8 (n : Nat) : s8.signed n = (Int8.ofNat n).toInt32 := by
  have hvalue : (n : Int).bmod s8.modulus = (Int8.ofNat n).toInt := by
    rw [← Int8.ofInt_eq_ofNat, Int8.toInt_ofInt]
    rfl
  rw [signed, hvalue, Int32.ofInt_int8ToInt]

theorem signed_s16 (n : Nat) : s16.signed n = (Int16.ofNat n).toInt32 := by
  have hvalue : (n : Int).bmod s16.modulus = (Int16.ofNat n).toInt := by
    rw [← Int16.ofInt_eq_ofNat, Int16.toInt_ofInt]
    rfl
  rw [signed, hvalue, Int32.ofInt_int16ToInt]

theorem signed_s32 (n : Nat) : s32.signed n = Int32.ofNat n := by
  have hvalue : (n : Int).bmod s32.modulus = (Int32.ofNat n).toInt := by
    rw [← Int32.ofInt_eq_ofNat, Int32.toInt_ofInt]
    rfl
  rw [signed, hvalue, Int32.ofInt_toInt]

end Width

namespace Machine
namespace Guarded

/-! ### Operands -/

/-- The signed numbers of the given widths at the front of a string of bytes. -/
def decodeAll : List Width → List UInt8 → List Word
  | [], _ => []
  | w :: ws, bs => w.signed (BigEndian.value (bs.take w.size)) :: decodeAll ws (bs.drop w.size)

/-- The operands of an instruction, each with a sign.  The instruction has them in the types it uses
them in, and the guarded machine has them as words. -/
def words : Instruction → List Word
  | .load slot | .store slot => [slot.toInt8.toInt32]
  | .getStatic n | .putStatic n | .getField n | .putField n | .new n | .printString n
  | .jump n | .branch _ n | .call n => [n.toInt32]
  | .const v => [v]
  | .newArray kind => [kind.toInt32]
  | .enter params size => [params.toInt8.toInt32, size.toInt8.toInt32]
  | _ => []

@[simp] theorem byte_toInt32 (b : UInt8) : byte b.toInt8.toInt32 = b.toNat := by
  rw [byte, Int8.toInt8_toInt32, UInt8.toUInt8_toInt8]

@[simp] theorem half_toInt32 (n : Int16) : half n.toInt32 = Instruction.address n := by
  rw [half, Int16.toInt16_toInt32, Instruction.address]

theorem address_lt (n : Int16) : Instruction.address n < 65536 := n.toUInt16.toNat_lt

theorem index_of_nonneg {v : Word} (h : 0 ≤ v) : index v = v.toInt.toNat := by
  have hnonneg : 0 ≤ v.toInt64 := by
    rw [Int64.le_iff_toInt_le, Int32.toInt_toInt64]
    exact Int32.le_iff_toInt_le.mp h
  rw [index, Int64.toNat_toUInt64_of_le hnonneg, Int64.toNatClampNeg, Int32.toInt_toInt64]

theorem decodeAll_byte (b : UInt8) (rest : List UInt8) (ws : List Width) :
    decodeAll (.s8 :: ws) (b :: rest) = b.toInt8.toInt32 :: decodeAll ws rest := by
  have hvalue : BigEndian.value [b] = b.toNat := Nat.zero_add _
  have hb : Int8.ofNat b.toNat = b.toInt8 := by
    rw [← UInt8.toInt8_ofNat', UInt8.ofNat_toNat]
  change Width.s8.signed (BigEndian.value [b]) :: _ = _
  rw [hvalue, Width.signed_s8, hb]
  rfl

theorem decodeAll_half (n : Int16) (rest : List UInt8) :
    decodeAll [.s16] (BigEndian.bytes 2 n.toUInt16.toNat ++ rest) = [n.toInt32] := by
  have hvalue : BigEndian.value (BigEndian.bytes 2 n.toUInt16.toNat) = n.toUInt16.toNat := by
    rw [BigEndian.value_bytes]
    exact Nat.mod_eq_of_lt n.toUInt16.toNat_lt
  have hn : Int16.ofNat n.toUInt16.toNat = n := by
    rw [← UInt16.toInt16_ofNat', UInt16.ofNat_toNat, Int16.toInt16_toUInt16]
  change [Width.s16.signed (BigEndian.value (BigEndian.bytes 2 n.toUInt16.toNat))] = _
  rw [hvalue, Width.signed_s16, hn]

theorem decodeAll_word (v : Word) (rest : List UInt8) :
    decodeAll [.s32] (BigEndian.bytes 4 v.toUInt32.toNat ++ rest) = [v] := by
  have hvalue : BigEndian.value (BigEndian.bytes 4 v.toUInt32.toNat) = v.toUInt32.toNat := by
    rw [BigEndian.value_bytes]
    exact Nat.mod_eq_of_lt v.toUInt32.toNat_lt
  have hv : Int32.ofNat v.toUInt32.toNat = v := by
    rw [← UInt32.toInt32_ofNat', UInt32.ofNat_toNat, Int32.toInt32_toUInt32]
  change [Width.s32.signed (BigEndian.value (BigEndian.bytes 4 v.toUInt32.toNat))] = _
  rw [hvalue, Width.signed_s32, hv]

/-- The operands of an instruction are decoded from its bytes.  The instructions are sorted by the
widths of their operands, for each of which one fact is enough. -/
theorem decodeAll_operandBytes (i : Instruction) (rest : List UInt8) :
    decodeAll i.opcode.operands (i.operandBytes ++ rest) = words i := by
  cases i with
  | load slot | store slot => exact decodeAll_byte slot rest []
  | getStatic n | putStatic n | getField n | putField n | new n | printString n | jump n
  | call n => exact decodeAll_half n rest
  | branch test n => cases test <;> exact decodeAll_half n rest
  | const v => exact decodeAll_word v rest
  | newArray kind => exact decodeAll_byte kind.toUInt8 rest []
  | enter params size =>
    change decodeAll [.s8, .s8] (params :: size :: rest) = _
    rw [decodeAll_byte, decodeAll_byte]
    rfl
  | loadShort slot | storeShort slot =>
    match slot with
    | 0 | 1 | 2 | 3 => rfl
  | constShort v =>
    match v with
    | 0 | 1 | 2 | 3 | 4 | 5 => rfl
  | arithmetic op => cases op <;> rfl
  | _ => rfl

/-- Operands that lie inside the code are fetched.  No sum of their addresses overflows, because the
code is far smaller than 2⁶⁴ bytes. -/
theorem fetchOperands_eq {code : List UInt8} (hlen : code.length < 9223372036854775808)
    (ws : List Width) {start : Nat}
    (hstop : start + ws.foldr (fun w n => w.size + n) 0 ≤ code.length) :
    fetchOperands code start ws = pure (decodeAll ws (code.drop start)) := by
  induction ws generalizing start with
  | nil => rfl
  | cons w ws ih =>
    rw [List.foldr_cons] at hstop
    have hslice : slice code start code.length = pure (code.drop start) := by
      rw [slice_of_le (by omega) (Nat.le_refl _), ← List.drop_eq_extract]
    rw [fetchOperands, hslice, pure_bind, decode_of_le (by simp; omega), pure_bind,
      sum_of_lt (by omega), pure_bind, ih (by omega), pure_bind, decodeAll, List.drop_drop]

/-- The operands in the code are those of the instruction that the machine makes of them. -/
theorem decodeAll_ofOperands {code : List UInt8} {op : Opcode} {start : Nat}
    (hstop : start + op.operandSize ≤ code.length) :
    decodeAll op.operands (code.drop start)
      = words (.ofOperands op fun k => code.toArray.getD (start + k) 0) := by
  have hlength : ((code.drop start).take op.operandSize).length = op.operandSize := by
    rw [List.length_take, List.length_drop]
    omega
  have hbytes : ∀ k, k < op.operandSize →
      code.toArray.getD (start + k) 0 = ((code.drop start).take op.operandSize).getD k 0 := by
    intro k hk
    rw [Array.getD_eq_getD_getElem?, List.getD_eq_getElem?_getD, List.getElem?_take_of_lt hk,
      List.getElem?_drop, List.getElem?_toArray]
  have hwords := decodeAll_operandBytes
    (.ofOperands op fun k => ((code.drop start).take op.operandSize).getD k 0)
    ((code.drop start).drop op.operandSize)
  rw [Instruction.opcode_ofOperands, Instruction.operandBytes_ofOperands hlength,
    List.take_append_drop] at hwords
  rw [Instruction.ofOperands_congr hbytes, hwords]

/-- What the machine fetches once it has found a byte.  The bound checks are written in the order in
which the guarded machine makes them. -/
theorem fetch_of_byte {code : Array UInt8} {pc : Nat} {b : UInt8} (h : code[pc]? = some b) :
    Machine.fetch code pc = match (Opcode.ofByte? b).filter (· ≠ .last) with
      | none => .error (.invalidOpcode b)
      | some op =>
        if code.size < pc + op.size then .error .pcOutOfBounds
        else .ok (.ofOperands op fun k => code.getD (pc + 1 + k) 0) := by
  rw [Machine.fetch, h]
  dsimp only
  split
  · rename_i hop
    rw [hop]
    rfl
  · rename_i hop
    rw [hop]
    rfl
  · rename_i op hlast hop
    have hfilter : (some op).filter (· ≠ .last) = some op := by simpa using hlast
    rw [hop, hfilter]

/-- The guarded machine fetches the instruction that the machine fetches. -/
theorem fetch_eq {code : List UInt8} (hlen : code.length < 9223372036854775808) (pc : Nat) :
    fetch code pc
      = ofExcept ((Machine.fetch code.toArray pc).map fun i => (i.opcode, words i)) := by
  rw [fetch]
  cases hbyte : code[pc]? with
  | none =>
    rw [Machine.fetch, List.getElem?_toArray, hbyte]
    rfl
  | some b =>
    have hpc : pc < code.length := (List.getElem?_eq_some_iff.mp hbyte).1
    rw [fetch_of_byte (List.getElem?_toArray.trans hbyte)]
    dsimp only
    cases (Opcode.ofByte? b).filter (· ≠ .last) with
    | none => rfl
    | some op =>
      -- instructions are short, so that no sum with the program counter leaves sixty-four bits
      have hsize : op.size ≤ 5 := by cases op <;> decide
      dsimp only
      rw [sum_of_lt (by omega), pure_bind, List.size_toArray]
      by_cases hstop : code.length < pc + op.size
      · rw [if_pos hstop, if_pos hstop]
        rfl
      · have hoperands : pc + 1 + op.operandSize ≤ code.length := by
          rw [Opcode.size] at hstop
          omega
        rw [if_neg hstop, if_neg hstop, sum_of_lt (by omega), pure_bind,
          fetchOperands_eq hlen op.operands hoperands, pure_bind, decodeAll_ofOperands hoperands]
        rw [Except.map, Instruction.opcode_ofOperands]
        rfl

/-! ### Static words -/

theorem get_bind {α : Type} (f : State → Guarded α) (s : State) : (get >>= f) s = f s s := rfl

/-- The end of a static word is small, as its address is. -/
theorem sum_wordSize {address : Nat} (h : address < 65536) :
    sum (address * wordSize) wordSize = pure (address * wordSize + wordSize) :=
  sum_of_lt (by rw [wordSize]; omega)

/-- A static word starts at a multiple of its size if it lies inside the static segment.  The guards
of the two ways to use it follow from the check that is made here. -/
theorem staticStart_eq {address : Nat} (h : address < 65536) (s : State) :
    staticStart address s =
      if address * wordSize + wordSize ≤ s.statics.size then .ok (address * wordSize) s
      else .error (.fault (.staticAccess address)) s := by
  have hproduct : product address wordSize = pure (address * wordSize) :=
    product_of_lt (by rw [wordSize]; omega)
  rw [staticStart, hproduct, pure_bind, sum_wordSize h, pure_bind, get_bind]
  by_cases hle : address * wordSize + wordSize ≤ s.statics.size
  · rw [if_pos hle, if_neg (Nat.not_lt.mpr hle)]
    rfl
  · rw [if_neg hle, if_pos (Nat.lt_of_not_le hle)]
    rfl

/-- Four bytes of the static segment, as a range and one by one. -/
theorem extract_word {data : Array UInt8} {start : Nat} (h : start + wordSize ≤ data.size) :
    data.toList.extract start (start + wordSize) = [data.getD (start + 0) 0,
      data.getD (start + 1) 0, data.getD (start + 2) 0, data.getD (start + 3) 0] := by
  rw [wordSize] at h
  have h0 : start < data.size := by omega
  have h1 : start + 1 < data.size := by omega
  have h2 : start + 2 < data.size := by omega
  have h3 : start + 3 < data.size := by omega
  apply List.ext_getElem?
  intro k
  rw [List.extract_eq_take_drop, wordSize, Nat.add_sub_cancel_left]
  rcases k with _ | _ | _ | _ | k
  · simp [h0]
  · simp [h1]
  · simp [h2]
  · simp [h3]
  · rw [List.getElem?_take_eq_none (Nat.le_add_left 4 k)]
    rfl

/-- Four bytes are decoded as a word. -/
theorem decode_s32 (a b c d : UInt8) : decode .s32 [a, b, c, d] = pure (Word.ofBytes a b c d) := by
  have hvalue : BigEndian.value [a, b, c, d]
      = ((a.toNat * 256 + b.toNat) * 256 + c.toNat) * 256 + d.toNat := by
    simp only [BigEndian.value, BigEndian.valueFrom]
    omega
  have hdecode : decode .s32 [a, b, c, d]
      = pure (Width.s32.signed (BigEndian.value [a, b, c, d])) := decode_of_le (Nat.le_refl 4)
  rw [hdecode, Width.signed_s32, hvalue]
  rfl

theorem getStatic_eq {address : Nat} (h : address < 65536) :
    getStatic address = lift (Machine.getStatic address) := by
  funext s
  have hstart := staticStart_eq h s
  by_cases hle : address * wordSize + wordSize ≤ s.statics.size
  · rw [if_pos hle] at hstart
    rw [getStatic, Action.bind_of_ok hstart, sum_wordSize h, pure_bind, get_bind,
      slice_of_le (Nat.le_add_right _ _) hle, pure_bind, extract_word hle, decode_s32]
    exact (lift_of_ok (if_pos hle)).symm
  · rw [if_neg hle] at hstart
    have hfault : Machine.getStatic address s = .error (.fault (.staticAccess address)) s :=
      if_neg hle
    rw [getStatic, Action.bind_eq_error.mpr (Or.inl hstart), lift_of_error hfault]
    rfl

theorem setStatic_eq {address : Nat} (h : address < 65536) (v : Word) :
    setStatic address v = lift (Machine.setStatic address v) := by
  funext s
  have hstart := staticStart_eq h s
  by_cases hle : address * wordSize + wordSize ≤ s.statics.size
  · rw [if_pos hle] at hstart
    have hlength : (s.statics.toList.extract (address * wordSize)
        (address * wordSize + wordSize)).length = (Width.s32.encode v).length := by
      rw [extract_word hle, Width.length_encode]
      rfl
    rw [setStatic, Action.bind_of_ok hstart, sum_wordSize h, pure_bind, get_bind,
      slice_of_le (Nat.le_add_right _ _) hle, pure_bind, encode_s32, pure_bind, if_pos hlength]
    exact (lift_of_ok (if_pos hle)).symm
  · rw [if_neg hle] at hstart
    have hfault : Machine.setStatic address v s = .error (.fault (.staticAccess address)) s :=
      if_neg hle
    rw [setStatic, Action.bind_eq_error.mpr (Or.inl hstart), lift_of_error hfault]
    rfl

/-- A string ends before its first zero byte, or with the static segment. -/
theorem stringAt_eq_take {data : Array UInt8} {start n : Nat} (h : start + n = data.size) :
    stringAt data start n
      = (data.toList.drop start).take ((data.toList.drop start).findIdx (· == 0)) := by
  induction n generalizing start with
  | zero =>
    have hnil : data.toList.drop start = [] := List.drop_eq_nil_of_le (Nat.le_of_eq h.symm)
    rw [hnil]
    rfl
  | succ n ih =>
    have hlt : start < data.size := by omega
    have hdrop : data.toList.drop start = data.getD start 0 :: data.toList.drop (start + 1) := by
      rw [List.drop_eq_getElem_cons hlt]
      simp [hlt]
    rw [stringAt, hdrop, List.findIdx_cons]
    by_cases hzero : data.getD start 0 = 0
    · simp [hzero]
    · rw [if_neg hzero, beq_eq_false_iff_ne.mpr hzero, ih (by omega)]
      rfl

@[simp] theorem printString_eq_lift (n : Int16) :
    printString n.toInt32 = lift (Machine.printString n) := by
  funext s
  have hlt := address_lt n
  have hproduct : product (Instruction.address n) wordSize
      = pure (Instruction.address n * wordSize) := product_of_lt (by rw [wordSize]; omega)
  rw [printString, half_toInt32, hproduct, pure_bind, get_bind, Int16.toInt_toInt32]
  by_cases hstart : s.statics.size < Instruction.address n * wordSize
  · have hfault : Machine.printString n s
        = .error (.fault (.staticAccess n.toInt)) s := if_pos hstart
    rw [lift_of_error hfault]
    exact congrFun (if_pos hstart) s
  · have hbytes : stringAt s.statics _ (s.statics.size - _) = _ :=
      stringAt_eq_take (Nat.add_sub_cancel' (Nat.le_of_not_lt hstart))
    have hprint : Machine.printString n s = Machine.write _ s := if_neg hstart
    rw [hbytes] at hprint
    rw [lift_of_ok hprint, if_neg hstart, slice_of_le (Nat.zero_le _) List.findIdx_le_length,
      pure_bind]
    rfl

/-! ### The heap -/

/-- An action that gives an index inside the heap.  Fields and elements are found by two actions of
this kind, and what is done with the index is the same for both. -/
def Indexes (x : Exec Nat) : Prop := ∀ s i t, x s = .ok i t → i < t.heap.size

theorem indexes_heapIndex (base offset : Word) : Indexes (heapIndex base offset) := by
  intro s i t h
  obtain ⟨-, -, hlt, rfl, rfl⟩ := heapIndex_eq_ok.mp h
  exact hlt

theorem indexes_elementIndex (base index : Word) : Indexes (Machine.elementIndex base index) := by
  intro s i t h
  obtain ⟨j, t₁, -, h⟩ := Action.bind_eq_ok.mp h
  obtain ⟨length, t₂, -, h⟩ := Action.bind_eq_ok.mp h
  split at h
  · cases h
  · exact indexes_heapIndex base (index + 1) t₂ i t h

theorem getHeap_eq {s : State} {i : Nat} (h : i < s.heap.size) :
    getHeap i s = lift (Machine.getHeap i) s := by
  have helement : element s.heap.toList i = pure (s.heap.getD i 0) :=
    element_of_getElem? (by simp [h])
  rw [getHeap, get_bind, helement]
  rfl

theorem setHeap_eq {s : State} {i : Nat} (h : i < s.heap.size) (v : Word) :
    setHeap i v s = lift (Machine.setHeap i v) s := by
  rw [setHeap, get_bind, replace_of_lt h, pure_bind]
  rfl

/-- A word whose index was checked can be read. -/
theorem bind_getHeap {x : Exec Nat} (hx : Indexes x) :
    (lift x >>= getHeap) = lift (x >>= Machine.getHeap) := by
  funext s
  exact bind_eq_lift rfl fun i t hi => getHeap_eq (hx s i t hi)

/-- A word whose index was checked can be changed. -/
theorem bind_setHeap {x : Exec Nat} (hx : Indexes x) (v : Word) :
    (lift x >>= fun i => setHeap i v) = lift (x >>= fun i => Machine.setHeap i v) := by
  funext s
  exact bind_eq_lift rfl fun i t hi => setHeap_eq (hx s i t hi) v

@[simp] theorem getField_eq (base offset : Word) :
    getField base offset = lift (heapIndex base offset >>= Machine.getHeap) :=
  bind_getHeap (indexes_heapIndex base offset)

@[simp] theorem setField_eq (base offset v : Word) :
    setField base offset v = lift (heapIndex base offset >>= fun i => Machine.setHeap i v) :=
  bind_setHeap (indexes_heapIndex base offset) v

theorem elementIndex_eq (base index : Word) :
    elementIndex base index = lift (Machine.elementIndex base index) := by
  rw [elementIndex, getField_eq, Machine.elementIndex]
  simp only [lift_bind, bind_assoc]
  congr 1
  funext i
  congr 1
  funext length
  by_cases hindex : index < 0 ∨ length ≤ index
  · rw [if_pos hindex, if_pos hindex, lift_fault]
  · have hlt : index < length := Int32.not_le.mp (not_or.mp hindex).2
    rw [if_neg hindex, if_neg hindex, successor_of_lt hlt, pure_bind]
    rfl

@[simp] theorem getElement_eq (base index : Word) :
    getElement base index = lift (Machine.elementIndex base index >>= Machine.getHeap) := by
  rw [getElement, elementIndex_eq, bind_getHeap (indexes_elementIndex base index)]

@[simp] theorem setElement_eq (base index v : Word) :
    setElement base index v
      = lift (Machine.elementIndex base index >>= fun i => Machine.setHeap i v) := by
  rw [setElement, elementIndex_eq, bind_setHeap (indexes_elementIndex base index)]

theorem allocate_eq {limits : Limits} {words : Nat} {s : State} (hs : s.heap.size ≤ 2147483648)
    (hwords : words ≤ 2147483648) :
    allocate limits words s = lift (Machine.allocate limits words) s := by
  rw [allocate, get_bind, sum_of_lt (by omega), pure_bind]
  by_cases hroom : limits.heapWords < s.heap.size + words
  · have hfault : Machine.allocate limits words s
        = .error (.fault (.heapExhausted limits.heapWords)) s := if_pos hroom
    rw [if_pos hroom, lift_of_error hfault]
    rfl
  · have hok : Machine.allocate limits words s = .ok (Int32.ofNat s.heap.size)
        { s with heap := s.heap ++ Array.replicate (max words 1) 0 } := if_neg hroom
    rw [if_neg hroom, sum_of_lt (by omega), pure_bind, lift_of_ok hok, Nat.add_sub_cancel_left]
    rfl

/-- The address of a new object is its index. -/
theorem index_ofNat {n : Nat} (h : n < 2147483648) : index (Int32.ofNat n) = n := by
  rw [index_of_nonneg (Int32.not_lt.mp (not_ofNat_neg h)), Int32.toInt_ofNat_of_lt h,
    Int.toNat_natCast]

/-- The length of an array is written into its first word, which exists since the array was just
allocated.  Its address is an index only if it is not negative, and this is where the limit on the
heap is needed. -/
theorem newArray_eq {limits : Limits} {s : State} (hlimit : limits.heapWords ≤ 2147483647)
    (hs : s.heap.size ≤ 2147483648) (kind : Int8) :
    (newArray limits >>= fun _ => pure true) s
      = lift (Machine.execute limits (.newArray kind)) s := by
  rw [newArray, Machine.execute, bind_assoc]
  refine bind_eq_lift rfl fun length t hpop => ?_
  have hheap : t.heap = s.heap := by
    obtain ⟨stack, -, rfl⟩ := pop_eq_ok hpop
    rfl
  by_cases hneg : length < 0
  · rw [if_pos hneg, if_pos hneg]
    rfl
  · -- the length and one more word do not overflow, because a length has thirty-one bits
    have hmax := length.toInt_lt
    have hindex := index_of_nonneg (Int32.not_lt.mp hneg)
    rw [if_neg hneg, if_neg hneg, hindex, sum_of_lt (by omega), pure_bind, bind_assoc]
    refine bind_eq_lift (allocate_eq (hheap ▸ hs) (by omega)) fun base u halloc => ?_
    obtain ⟨hroom, rfl, rfl⟩ := allocate_eq_ok halloc
    have hbase : t.heap.size < 2147483648 := by omega
    rw [index_ofNat hbase, Int32.toInt_ofNat_of_lt hbase, Int.toNat_natCast, bind_assoc]
    refine bind_eq_lift (setHeap_eq ?_ length) fun _ _ _ => rfl
    rw [Array.size_append, Array.size_replicate]
    omega

/-! ### Arguments -/

/-- There is a slot for every argument, as the frame has been made large enough for them. -/
theorem popInto_eq_lift {n : Nat} {frame : Array Word} (h : n ≤ frame.size) :
    popInto n frame = lift (Machine.popInto n frame) := by
  induction n generalizing frame with
  | zero => rfl
  | succ n ih =>
    rw [popInto, Machine.popInto, lift_bind]
    congr 1
    funext v
    rw [replace_of_lt h, pure_bind, ih (by rw [Array.size_setIfInBounds]; omega)]

@[simp] theorem enter_eq_lift (params size : Nat) :
    enter params size = lift (Machine.enter params size) := by
  have hslots : params ≤ (Array.replicate (max size params) (0 : Word)).size := by
    rw [Array.size_replicate]
    exact Nat.le_max_right size params
  funext s
  exact bind_eq_lift (congrFun (popInto_eq_lift hslots) s) fun _ _ _ => rfl

/-! ### Input -/

/-- A line is a part of the input. -/
theorem length_line_le (input : List UInt8) : (Input.line input).1.length ≤ input.length := by
  induction input with
  | nil => exact Nat.le_refl _
  | cons b bs ih =>
    rw [Input.line]
    split
    · simp
    · exact Nat.succ_le_succ ih

/-- A part of a text has no more bytes than the text.  The number is looked for in a trimmed line,
and the bound on the input has to be carried over to it. -/
theorem length_encodeChars_le {cs ds : List Char} (h : cs.Sublist ds) :
    (Utf8.encodeChars cs).length ≤ (Utf8.encodeChars ds).length := by
  induction h with
  | slnil => exact Nat.le_refl _
  | cons d _ ih =>
    rw [Utf8.encodeChars_cons, List.length_append]
    omega
  | cons_cons d _ ih =>
    rw [Utf8.encodeChars_cons, Utf8.encodeChars_cons, List.length_append, List.length_append]
    omega

theorem trim_sublist (cs : List Char) : (Text.trim cs).Sublist cs := by
  have hend := (List.dropWhile_sublist Text.isBlank
    (l := (cs.dropWhile Text.isBlank).reverse)).reverse
  rw [List.reverse_reverse] at hend
  exact hend.trans (List.dropWhile_sublist _)

/-- A text has the bytes that it was decoded from. -/
theorem encode_of_decode? {bs : List UInt8} {text : String} (h : Utf8.decode? bs = some text) :
    Utf8.encode text = bs := by
  rw [Utf8.decode?, String.fromUTF8?] at h
  split at h
  · cases h
    rfl
  · cases h

/-- A line that fits the memory is read without a breach, since indices into it do not overflow. -/
theorem lineNumber_eq {input : List UInt8} (h : input.length < 9223372036854775808) :
    lineNumber (Input.line input).1 = ofExcept (Input.readInteger input).1 := by
  have hline := length_line_le input
  rw [lineNumber, Input.readInteger]
  generalize Input.line input = l at hline ⊢
  dsimp only
  by_cases hempty : l.1.isEmpty = true
  · rw [if_pos hempty, if_pos hempty]
    rfl
  · rw [if_neg hempty, if_neg hempty]
    cases htext : Utf8.decode? l.1 with
    | none => rfl
    | some text =>
      -- the bytes of the trimmed text are bounded by those of the line
      have hbytes : Utf8.encodeChars text.toList = l.1 :=
        (Utf8.encode_eq_flatMap text).symm.trans (encode_of_decode? htext)
      have hlength := length_encodeChars_le (trim_sublist text.toList)
      rw [hbytes] at hlength
      dsimp only
      rw [number_eq (by omega)]
      cases Input.word? (Text.trim text.toList) with
      | none => rfl
      | some v => rfl

theorem readInteger_eq {s : State} (hs : s.input.length < 9223372036854775808) :
    readInteger s = lift Machine.readInteger s := by
  have hrest : (Input.line s.input).2 = (Input.readInteger s.input).2 := rfl
  change lineNumber (Input.line s.input).1 { s with input := (Input.line s.input).2 } = _
  rw [lineNumber_eq hs, hrest, lift, Machine.readInteger]
  obtain ⟨result, rest⟩ := Input.readInteger s.input
  cases result with
  | ok v => rfl
  | error cause => rfl

/-! ### Instructions -/

/-- Two words are combined without a breach if their result is the machine's. -/
theorem binary_eq {f : Word → Word → Guarded Word} (op : Arithmetic) (limits : Limits)
    (hf : ∀ a b, f a b = match op.apply a b with
      | some v => pure v
      | none => fail .divisionByZero) :
    (binary f >>= fun _ => pure true) = lift (Machine.execute limits (.arithmetic op)) := by
  simp only [binary, Machine.execute, liftM_eq, lift_bind, bind_assoc, hf]
  congr 1
  funext b
  congr 1
  funext a
  cases op.apply a b with
  | none => rfl
  | some v => rfl

/-- Nothing is divided by zero, because this is a fault that comes before the division. -/
theorem execute_arithmetic_eq (limits : Limits) (op : Arithmetic) :
    execute limits op.opcode [] = lift (Machine.execute limits (.arithmetic op)) := by
  cases op with
  | add => exact binary_eq .add limits fun _ _ => rfl
  | sub => exact binary_eq .sub limits fun _ _ => rfl
  | mul => exact binary_eq .mul limits fun _ _ => rfl
  | shl => exact binary_eq .shl limits fun _ _ => rfl
  | shr => exact binary_eq .shr limits fun _ _ => rfl
  | div =>
    refine binary_eq .div limits fun a b => ?_
    by_cases hb : b = 0
    · simp [hb, Arithmetic.apply]
    · simp [hb, Arithmetic.apply, quotient]
  | rem =>
    refine binary_eq .rem limits fun a b => ?_
    by_cases hb : b = 0
    · simp [hb, Arithmetic.apply]
    · simp [hb, Arithmetic.apply, remainder]

theorem execute_branch_eq (limits : Limits) (test : Comparison) (n : Int16) :
    execute limits test.opcode [n.toInt32] = lift (Machine.execute limits (.branch test n)) := by
  have hbranch : (branch test [n.toInt32] >>= fun _ => pure true)
      = lift (Machine.execute limits (.branch test n)) := by
    simp only [branch, Machine.execute, liftM_eq, lift_bind, bind_assoc, element_cons_zero,
      pure_bind, half_toInt32]
    congr 1
    funext b
    congr 1
    funext a
    cases test.holds a b with
    | true => rfl
    | false => rfl
  cases test <;> exact hbranch

/-- One of the first four locals is found by its distance from the first opcode of its family. -/
theorem execute_loadShort_eq (limits : Limits) (slot : Fin 4) :
    execute limits (Instruction.loadShort slot).opcode []
      = lift (Machine.execute limits (.loadShort slot)) := by
  have hload : ∀ (op : Opcode) (k : Nat),
      difference op.byte.toNat Opcode.load0.byte.toNat = pure k →
      ((do push (← getLocal (← difference op.byte.toNat Opcode.load0.byte.toNat)) : Guarded Unit)
        >>= fun _ => pure true) = lift (do push (← getLocal k); return true) := by
    intro op k hk
    simp [hk]
  match slot with
  | 0 => exact hload .load0 0 rfl
  | 1 => exact hload .load1 1 rfl
  | 2 => exact hload .load2 2 rfl
  | 3 => exact hload .load3 3 rfl

theorem execute_storeShort_eq (limits : Limits) (slot : Fin 4) :
    execute limits (Instruction.storeShort slot).opcode []
      = lift (Machine.execute limits (.storeShort slot)) := by
  have hstore : ∀ (op : Opcode) (k : Nat),
      difference op.byte.toNat Opcode.store0.byte.toNat = pure k →
      ((do
          let v ← pop
          setLocal (← difference op.byte.toNat Opcode.store0.byte.toNat) v : Guarded Unit)
        >>= fun _ => pure true) = lift (do let v ← pop; setLocal k v; return true) := by
    intro op k hk
    simp [hk]
  match slot with
  | 0 => exact hstore .store0 0 rfl
  | 1 => exact hstore .store1 1 rfl
  | 2 => exact hstore .store2 2 rfl
  | 3 => exact hstore .store3 3 rfl

/-- A small number is the distance of its opcode from that of zero. -/
theorem execute_constShort_eq (limits : Limits) (v : Fin 6) :
    execute limits (Instruction.constShort v).opcode []
      = lift (Machine.execute limits (.constShort v)) := by
  have hpush : ∀ v, (do push v; return true : Guarded Bool)
      = lift (do push v; return true) := fun v => by simp
  match v with
  | 0 => exact hpush 0
  | 1 => exact hpush 1
  | 2 => exact hpush 2
  | 3 => exact hpush 3
  | 4 => exact hpush 4
  | 5 => exact hpush 5

/-- The instructions whose guards hold in every state: all but those that allocate and the one that
reads a number.  These three are treated apart. -/
theorem execute_plain (limits : Limits) {i : Instruction} (halloc : i.allocates = false)
    (hread : i ≠ .read) :
    execute limits i.opcode (words i) = lift (Machine.execute limits i) := by
  cases i with
  | new | newArray => cases halloc
  | read => exact absurd rfl hread
  | arithmetic op => exact execute_arithmetic_eq limits op
  | branch test n => exact execute_branch_eq limits test n
  | loadShort slot => exact execute_loadShort_eq limits slot
  | storeShort slot => exact execute_storeShort_eq limits slot
  | constShort v => exact execute_constShort_eq limits v
  | getStatic n =>
    simp [execute, perform, Machine.execute, words, Instruction.opcode, getStatic_eq (address_lt n)]
  | putStatic n =>
    simp [execute, perform, Machine.execute, words, Instruction.opcode, setStatic_eq (address_lt n)]
  | _ => simp [execute, perform, Machine.execute, words, Instruction.opcode, unsigned]

/-- The states in which all guards hold: the heap is as large as its limit lets it become, and the
input fits the memory. -/
structure Sound (limits : Limits) (s : State) : Prop extends Roomy limits s where
  input : s.input.length < 9223372036854775808

/-- The guards of an instruction hold in every sound state. -/
theorem execute_eq_lift {limits : Limits} (hlimit : limits.heapWords ≤ 2147483647)
    (i : Instruction) {s : State} (hs : Sound limits s) :
    execute limits i.opcode (words i) s = lift (Machine.execute limits i) s := by
  have hheap : s.heap.size ≤ 2147483648 := Nat.le_trans hs.le (Nat.succ_le_succ hlimit)
  -- reading needs the bound on the input and allocating the one on the heap; the rest needs none
  by_cases hread : i = .read
  · have hexecute : execute limits .read []
        = readInteger >>= fun v => lift (do push v; return true) := by
      simp [execute, perform]
    rw [hread]
    change execute limits .read [] s = _
    rw [hexecute]
    exact bind_eq_lift (readInteger_eq hs.input) fun _ _ _ => rfl
  · cases halloc : i.allocates with
    | false => rw [execute_plain limits halloc hread]
    | true =>
      cases i with
      | new n =>
        have hwords := address_lt n
        have hexecute : execute limits .new [n.toInt32]
            = allocate limits (Instruction.address n)
              >>= fun base => lift (do push base; return true) := by
          simp [execute, perform]
        change execute limits .new [n.toInt32] s = _
        rw [hexecute]
        exact bind_eq_lift (allocate_eq hheap (by omega)) fun _ _ _ => rfl
      | newArray kind => exact newArray_eq hlimit hheap kind
      | _ => cases halloc

/-! ### Steps -/

/-- What is fetched lies inside the code. -/
theorem le_of_fetch {code : Array UInt8} {pc : Nat} {i : Instruction}
    (h : Machine.fetch code pc = .ok i) : pc + i.size ≤ code.size := by
  cases hbyte : code[pc]? with
  | none =>
    rw [Machine.fetch, hbyte] at h
    cases h
  | some b =>
    rw [fetch_of_byte hbyte] at h
    split at h
    · cases h
    · split at h
      · cases h
      · rename_i hstop
        cases h
        rw [Instruction.size, Instruction.opcode_ofOperands]
        exact Nat.le_of_not_lt hstop

/-- **The guards of a step hold in every sound state.**  The next address is a sum as well, and it
fits because what was fetched lies inside the code. -/
theorem step_eq_lift {limits : Limits} (hlimit : limits.heapWords ≤ 2147483647)
    {code : List UInt8} (hcode : code.length < 9223372036854775808) {s : State}
    (hs : Sound limits s) : step limits code s = lift (Machine.step limits code.toArray) s := by
  rw [step, Machine.step]
  refine bind_eq_lift rfl fun _ t hcheck => ?_
  -- the checks of the limits only count the step, and so the state stays sound
  have ht : t = { s with steps := s.steps + 1 } := by
    rcases checkLimits_split limits s with ⟨m, -, -, hstop⟩ | ⟨-, -, hstop⟩ | ⟨-, hok⟩
    · cases hstop.symm.trans hcheck
    · cases hstop.symm.trans hcheck
    · cases hok.symm.trans hcheck
      rfl
  have hfetched := fetch_eq hcode t.pc
  rw [get_bind]
  cases hfetch : Machine.fetch code.toArray t.pc with
  | error cause =>
    have hadvance : advance code.toArray t = .error (.fault cause) t := by rw [advance, hfetch]
    rw [hfetch] at hfetched
    rw [hfetched, lift_of_error (Action.bind_eq_error.mpr (Or.inl hadvance))]
    rfl
  | ok i =>
    rw [hfetch] at hfetched
    change fetch code t.pc = pure (i.opcode, words i) at hfetched
    have hadvance : advance code.toArray t = .ok i { t with pc := t.pc + i.size } := by
      rw [advance, hfetch]
    have hnext := le_of_fetch hfetch
    rw [List.size_toArray, Instruction.size] at hnext
    rw [lift_bind, Action.bind_of_ok (lift_of_ok hadvance), hfetched, pure_bind]
    dsimp only
    rw [sum_of_lt (by omega), pure_bind]
    have hsound : Sound limits { t with pc := t.pc + i.size } := ht ▸ ⟨⟨hs.pos, hs.le⟩, hs.input⟩
    exact execute_eq_lift hlimit i hsound

end Guarded
end Machine
end MJ
