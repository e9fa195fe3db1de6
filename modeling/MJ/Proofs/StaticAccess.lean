import MJ.Proofs.Execution
import MJ.Proofs.Printing

/-!
# Access to the static segment

Three instructions address a word of the static segment: one pushes it, one changes it and one
prints the string that starts there.  Their operand is an unsigned number of two bytes.  The first
two check it alike.  The third does not: it also takes the address right after the last word, where
it prints nothing, and the fault for an address further on names the signed number with the same
bytes.

## Main definitions

* `Machine.StaticAccess` — the three instructions.
* `StaticAccess.Misses`, `StaticAccess.reported` — the addresses that one of them faults at, and the
  number that the fault names.

## Main results

* `StaticAccess.execute_fault_iff` — an access fails exactly at the addresses that it misses.
* `Machine.static_faults` — **accesses are judged alike, but for strings at the end of the segment**
  and the addresses that are named for them.
* `Machine.string_after_end_accepted` — a string after the last word is not a fault.
-/

namespace MJ

/-- The signed number with the bytes of an address: addresses from 32768 on look negative. -/
theorem Instruction.toInt_eq_address (k : Int16) :
    k.toInt = if 32768 ≤ address k then (address k : Int) - 65536 else address k := by
  have hsigned : k.toInt = (address k : Int).bmod 65536 := BitVec.toInt_eq_toNat_bmod k.toBitVec
  have hlt : address k < 65536 := k.toUInt16.toNat_lt
  rw [hsigned]
  split
  · rw [← Int.sub_bmod_right]
    exact Int.bmod_eq_of_le (by omega) (by omega)
  · exact Int.bmod_eq_of_le (by omega) (by omega)

/-- The address in two bytes of code. -/
theorem Instruction.address_half (high low : UInt8) :
    address (half high low) = 256 * high.toNat + low.toNat := by
  have hhigh := high.toNat_lt
  have hlow := low.toNat_lt
  rw [half, address_ofNat]
  omega

namespace Machine

/-! ### Words and strings -/

section

variable {s : State} {n w : Nat} {k : Int16}

/-- A word lies in a segment of whole words just if there are more words than its address. -/
theorem wordFits_iff (hs : s.statics.size = n * wordSize) :
    w * wordSize + wordSize ≤ s.statics.size ↔ w < n := by
  rw [hs, wordSize]
  omega

theorem getStatic_of_lt (hs : s.statics.size = n * wordSize) (hw : w < n) :
    ∃ v, getStatic w s = .ok v s :=
  ⟨_, if_pos ((wordFits_iff hs).mpr hw)⟩

theorem getStatic_of_le (hs : s.statics.size = n * wordSize) (hw : n ≤ w) :
    getStatic w s = .error (.fault (.staticAccess w)) s :=
  if_neg fun hfits => Nat.not_lt.mpr hw ((wordFits_iff hs).mp hfits)

theorem setStatic_of_lt (hs : s.statics.size = n * wordSize) (hw : w < n) (v : Word) :
    ∃ t, setStatic w v s = .ok () t :=
  ⟨_, if_pos ((wordFits_iff hs).mpr hw)⟩

theorem setStatic_of_le (hs : s.statics.size = n * wordSize) (hw : n ≤ w) (v : Word) :
    setStatic w v s = .error (.fault (.staticAccess w)) s :=
  if_neg fun hfits => Nat.not_lt.mpr hw ((wordFits_iff hs).mp hfits)

/-- A string may start where a word does, or right after the last one: here the start is compared
with the size, and not the end. -/
theorem printString_of_le (hs : s.statics.size = n * wordSize) (hk : Instruction.address k ≤ n) :
    ∃ t, printString k s = .ok () t := by
  have hinside : ¬ s.statics.size < Instruction.address k * wordSize := by
    rw [hs, wordSize]
    omega
  exact ⟨_, printString_eq rfl hinside rfl⟩

theorem printString_of_lt (hs : s.statics.size = n * wordSize) (hk : n < Instruction.address k) :
    printString k s = .error (.fault (.staticAccess k.toInt)) s := by
  have houtside : s.statics.size < Instruction.address k * wordSize := by
    rw [hs, wordSize]
    omega
  exact if_pos houtside

/-- Nothing is printed after the last word. -/
theorem printString_of_eq (hs : s.statics.size = n * wordSize) (hk : Instruction.address k = n) :
    printString k s = .ok () s := by
  have hinside : ¬ s.statics.size < n * wordSize := Nat.not_lt.mpr (Nat.le_of_eq hs.symm)
  have hnothing : stringAt s.statics (n * wordSize) (s.statics.size - n * wordSize) = [] := by
    rw [hs, Nat.sub_self, stringAt]
  simpa using printString_eq hk hinside hnothing

end

/-! ### Instructions -/

/-- The instructions that address a word of the static segment. -/
inductive StaticAccess where
  /-- Pushes the word. -/
  | get
  /-- Pops a word and stores it there. -/
  | put
  /-- Prints the string that starts there. -/
  | print
  deriving DecidableEq, Repr

namespace StaticAccess

/-- The opcode of the instruction. -/
def opcode : StaticAccess → Opcode
  | get => .getstatic
  | put => .putstatic
  | print => .sprint

/-- The instruction with an operand. -/
def instruction (k : Int16) : StaticAccess → Instruction
  | get => .getStatic k
  | put => .putStatic k
  | print => .printString k

/-- What the instruction pops is on the stack. -/
def Ready (s : State) : StaticAccess → Prop
  | put => 0 < s.stack.size
  | get | print => True

/-- The addresses that the instruction faults at in a segment of `n` words.  The comparison for
strings is not the one for words. -/
def Misses (n w : Nat) : StaticAccess → Prop
  | get | put => n ≤ w
  | print => n < w

/-- The number that the fault names: the address, or for strings the operand with its sign. -/
def reported (k : Int16) : StaticAccess → Int
  | get | put => Instruction.address k
  | print => k.toInt

theorem bytes_instruction (a : StaticAccess) (high low : UInt8) :
    (a.instruction (Instruction.half high low)).bytes = [a.opcode.byte, high, low] := by
  cases a <;> exact congrArg (List.cons _) (Instruction.bytes_half high low)

theorem instruction_ne_last (a : StaticAccess) (k : Int16) : a.instruction k ≠ .last := by
  cases a <;> exact Instruction.noConfusion

/-- An address is missed if it lies outside, and is not that of a string at the end. -/
theorem misses_iff (a : StaticAccess) {n w : Nat} :
    a.Misses n w ↔ n ≤ w ∧ ¬ (a = .print ∧ w = n) := by
  cases a <;> simp only [Misses, reduceCtorEq, false_and, not_false_eq_true, and_true, true_and]
  omega

theorem reported_eq (a : StaticAccess) (k : Int16) :
    a.reported k = if a = .print ∧ 32768 ≤ Instruction.address k
      then (Instruction.address k : Int) - 65536 else Instruction.address k := by
  cases a with
  | get => rfl
  | put => rfl
  | print => simp only [reported, Instruction.toInt_eq_address, true_and]

variable {a : StaticAccess} {s : State} {n : Nat} {k : Int16}

/-- A word to be stored is popped. -/
theorem Ready.exists_push (h : put.Ready s) : ∃ below v, s.stack = Array.push below v := by
  obtain ⟨v, hv⟩ : ∃ v, s.stack.back? = some v := by
    rw [Array.back?_eq_getElem?]
    exact ⟨_, Array.getElem?_eq_getElem (Nat.sub_lt h Nat.one_pos)⟩
  obtain ⟨below, hbelow⟩ := Array.back?_eq_some_iff.mp hv
  exact ⟨below, v, hbelow⟩

theorem execute_of_misses (limits : Limits) (hready : a.Ready s)
    (hs : s.statics.size = n * wordSize) (h : a.Misses n (Instruction.address k)) :
    ∃ t, execute limits (a.instruction k) s
      = .error (.fault (.staticAccess (a.reported k))) t := by
  cases a with
  | get => exact ⟨s, Action.bind_eq_error.mpr (Or.inl (getStatic_of_le hs h))⟩
  | put =>
    obtain ⟨below, v, hstack⟩ := hready.exists_push
    refine ⟨{ s with stack := below }, ?_⟩
    rw [instruction, execute, Action.bind_of_ok (pop_push hstack)]
    exact Action.bind_eq_error.mpr (Or.inl (setStatic_of_le (by exact hs) h v))
  | print => exact ⟨s, Action.bind_eq_error.mpr (Or.inl (printString_of_lt hs h))⟩

theorem execute_of_hits (limits : Limits) (hready : a.Ready s)
    (hs : s.statics.size = n * wordSize) (h : ¬ a.Misses n (Instruction.address k)) :
    ∃ t, execute limits (a.instruction k) s = .ok true t := by
  cases a with
  | get =>
    obtain ⟨v, hv⟩ := getStatic_of_lt hs (Nat.lt_of_not_le h)
    rw [instruction, execute, Action.bind_of_ok hv]
    exact ⟨_, rfl⟩
  | put =>
    obtain ⟨below, v, hstack⟩ := hready.exists_push
    obtain ⟨t, ht⟩ := setStatic_of_lt (s := { s with stack := below }) hs (Nat.lt_of_not_le h) v
    rw [instruction, execute, Action.bind_of_ok (pop_push hstack), Action.bind_of_ok ht]
    exact ⟨_, rfl⟩
  | print =>
    obtain ⟨t, ht⟩ := printString_of_le hs (Nat.le_of_not_lt h)
    rw [instruction, execute, Action.bind_of_ok ht]
    exact ⟨_, rfl⟩

/-- An access fails with its fault exactly at the addresses that it misses.  Since it succeeds at
all others, no other fault has to be excluded. -/
theorem execute_fault_iff (limits : Limits) (hready : a.Ready s)
    (hs : s.statics.size = n * wordSize) (address : Int) :
    (∃ t, execute limits (a.instruction k) s = .error (.fault (.staticAccess address)) t) ↔
      a.Misses n (Instruction.address k) ∧ address = a.reported k := by
  by_cases h : a.Misses n (Instruction.address k)
  · obtain ⟨t, ht⟩ := execute_of_misses limits hready hs h
    rw [ht]
    constructor
    · rintro ⟨t', ht'⟩
      cases ht'
      exact ⟨h, rfl⟩
    · rintro ⟨-, rfl⟩
      exact ⟨t, rfl⟩
  · obtain ⟨t, ht⟩ := execute_of_hits limits hready hs h
    rw [ht]
    constructor
    · rintro ⟨t', ht'⟩
      cases ht'
    · rintro ⟨hmiss, -⟩
      exact absurd hmiss h

/-- A string at the end of the segment changes nothing. -/
theorem execute_print_of_eq (limits : Limits) (hs : s.statics.size = n * wordSize)
    (hk : Instruction.address k = n) :
    execute limits (print.instruction k) s = .ok true s := by
  rw [instruction, execute, Action.bind_of_ok (printString_of_eq hs hk)]
  rfl

/-- The instruction that stands in the code is executed. -/
theorem step_eq (a : StaticAccess) {high low : UInt8} {limits : Limits} {code : Array UInt8}
    (hcode : CodeAt code s.pc [a.opcode.byte, high, low])
    (hallow : limits.Allow (s.steps + 1) s.stack.size) :
    step limits code s = execute limits (a.instruction (Instruction.half high low))
      (s.fetched (a.instruction (Instruction.half high low))) := by
  rw [← a.bytes_instruction high low] at hcode
  have hfetch := fetch_of_codeAt hcode (a.instruction_ne_last _)
  exact step_of_fetch hfetch rfl (checkLimits_of_allow hallow)

end StaticAccess

/-- **Accesses to the static segment are judged alike, but for strings at its end.**  In a segment
of `n` words an access faults exactly if its address is not below `n`, and the fault names the
address; except that a string right after the last word is not a fault but prints nothing, and that
the fault of a string at an address of 32768 or more names that address less 65536. -/
theorem static_faults (a : StaticAccess) (high low : UInt8) {limits : Limits} {code : Array UInt8}
    {s : State} {n : Nat} (hcode : CodeAt code s.pc [a.opcode.byte, high, low])
    (hallow : limits.Allow (s.steps + 1) s.stack.size) (hready : a.Ready s)
    (hstatics : s.statics.size = n * wordSize) :
    let w := 256 * high.toNat + low.toNat
    (∀ address, (∃ t, step limits code s = .error (.fault (.staticAccess address)) t) ↔
      n ≤ w ∧ ¬ (a = .print ∧ w = n) ∧
        address = if a = .print ∧ 32768 ≤ w then (w : Int) - 65536 else w) ∧
    (w < n → ∃ t, step limits code s = .ok true t) ∧
    (a = .print → w = n → ∃ t, step limits code s = .ok true t ∧ t.output = s.output) := by
  intro w
  have hw : Instruction.address (Instruction.half high low) = w := Instruction.address_half high low
  have hmisses : a.Misses n (Instruction.address (Instruction.half high low))
      ↔ n ≤ w ∧ ¬ (a = .print ∧ w = n) := hw ▸ a.misses_iff
  have hreported := a.reported_eq (Instruction.half high low)
  rw [hw] at hreported
  rw [a.step_eq hcode hallow]
  refine ⟨fun address => ?_, fun hlt => ?_, ?_⟩
  · rw [← and_assoc, ← hmisses, ← hreported]
    exact StaticAccess.execute_fault_iff (s := s.fetched _) limits hready hstatics address
  · refine StaticAccess.execute_of_hits limits hready hstatics ?_
    rw [hmisses]
    omega
  · rintro rfl hend
    exact ⟨_, StaticAccess.execute_print_of_eq limits hstatics (hw.trans hend), rfl⟩

/-- A machine with one static word and nothing else. -/
def oneStatic : State where
  pc := 0
  steps := 0
  stack := #[]
  frames := #[]
  returns := #[]
  heap := #[0]
  statics := #[0, 0, 0, 0]
  input := []
  output := #[]

/-- The machine may go on. -/
theorem allow_oneStatic : Limits.standard.Allow (oneStatic.steps + 1) oneStatic.stack.size := by
  refine ⟨?_, by decide⟩
  intro max hmax
  cases hmax

/-- The string at 32769 is not there; the fault names -32767. -/
theorem static_faults_far_string :
    CodeAt #[55, 128, 1] oneStatic.pc [StaticAccess.print.opcode.byte, 128, 1] ∧
      Limits.standard.Allow (oneStatic.steps + 1) oneStatic.stack.size ∧
      oneStatic.statics.size = 1 * wordSize ∧
      ∃ t, step .standard #[55, 128, 1] oneStatic = .error (.fault (.staticAccess (-32767))) t := by
  have hcode : CodeAt #[55, 128, 1] oneStatic.pc [StaticAccess.print.opcode.byte, 128, 1] :=
    codeAt_toArray [] [55, 128, 1] []
  have hstatics : oneStatic.statics.size = 1 * wordSize := rfl
  refine ⟨hcode, allow_oneStatic, hstatics, ?_⟩
  obtain ⟨hfault, -⟩ := static_faults .print 128 1 hcode allow_oneStatic trivial hstatics
  exact (hfault (-32767)).mpr (by decide)

/-- A string after the last word is not a fault, although a word there is: it is not true that all
accesses fault at the same addresses. -/
theorem string_after_end_accepted :
    ¬ ∀ (a : StaticAccess) (high low : UInt8) (limits : Limits) (code : Array UInt8) (s : State)
        (n : Nat), CodeAt code s.pc [a.opcode.byte, high, low] →
      limits.Allow (s.steps + 1) s.stack.size → a.Ready s → s.statics.size = n * wordSize →
      ∀ address, (∃ t, step limits code s = .error (.fault (.staticAccess address)) t) ↔
        n ≤ 256 * high.toNat + low.toNat ∧ address = (256 * high.toNat + low.toNat : Nat) := by
  intro h
  have hcode : CodeAt #[55, 0, 1] oneStatic.pc [StaticAccess.print.opcode.byte, 0, 1] :=
    codeAt_toArray [] [55, 0, 1] []
  obtain ⟨t, ht⟩ := (h .print 0 1 .standard #[55, 0, 1] oneStatic 1 hcode
    allow_oneStatic trivial rfl 1).mpr (by decide)
  have hstep : step .standard #[55, 0, 1] oneStatic
      = .ok true { oneStatic with pc := 3, steps := 1 } := by decide +kernel
  rw [hstep] at ht
  cases ht

end Machine
end MJ
