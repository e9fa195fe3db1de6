import MJ.Proofs.Realization
import MJ.Proofs.Session

/-!
# Numbers in instructions

The number of a local, of a static word or of a field, the size of an object and the address of a
string are each put into the operand of one instruction.  The operand is read as an unsigned number
there.  A number that is not negative is accepted if it can be read back so, and is then the number
that the machine uses.  A negative one is accepted too if it can be read back as a signed number;
the machine uses the unsigned number with the same bytes.

## Main definitions

* `Assembler.Numbered` — the instructions with such a number.
* `Numbered.emit`, `Numbered.perform` — what the assembler is asked for, and what the machine is
  meant to do.

## Main results

* `Numbered.execute_instruction` — the machine uses the operand as an unsigned number.
* `Assembler.number_performed` — **the number that is accepted is the number that is used.**
* `Assembler.negative_accepted` — a negative number may be accepted.
-/

namespace MJ
namespace Assembler

open Machine (Exec)

/-- The instructions whose operand is a number of a word, or of words. -/
inductive Numbered where
  /-- Pushes a word of a region. -/
  | load (r : Region)
  /-- Stores into a word of a region. -/
  | store (r : Region)
  /-- Pushes the address of a new object of so many words. -/
  | new
  /-- Prints the string at a static word. -/
  | print
  deriving DecidableEq, Repr

namespace Numbered

/-! ### What is asked and what is done -/

/-- The least number that is accepted.  It is negative, because an operand may also be a signed
number. -/
def least : Numbered → Int
  | load .stack | store .stack => -128
  | _ => -32768

/-- How many numbers the machine can tell apart. -/
def reach : Numbered → Nat
  | load .stack | store .stack => 256
  | _ => 65536

/-- Asks the assembler for the instruction with a number. -/
def emit : Numbered → (v : Int) → Asm Unit
  | load r, v => loadWord r (Int32.ofInt v)
  | store r, v => storeWord r (Int32.ofInt v)
  | new, v => newObject v.toNat
  | print, v => printString v.toNat

/-- The numbers that can be asked for.  Offsets are words, and the others are not negative. -/
def Takes (v : Int) : Numbered → Prop
  | load _ | store _ => -2147483648 ≤ v ∧ v < 2147483648
  | new | print => 0 ≤ v ∧ v < 2147483648

/-- Prints the string at the static word `n`.  If there is no such word, the fault names the signed
number with the same bytes. -/
def printWord (n : Nat) : Exec Unit := fun s =>
  let start := n * wordSize
  if s.statics.size < start then .error (.fault (.staticAccess (Int16.ofNat n).toInt)) s
  else Machine.write (Machine.stringAt s.statics start (s.statics.size - start)) s

/-- What the machine is to do for the number `n`. -/
def perform (limits : Limits) (n : Nat) : Numbered → Exec Bool
  | load .stack => do
    Machine.push (← Machine.getLocal n)
    return true
  | load .static => do
    Machine.push (← Machine.getStatic n)
    return true
  | load .heap => do
    let base ← Machine.pop
    Machine.push (← Machine.getHeap (← Machine.heapIndex base (Int32.ofNat n)))
    return true
  | store .stack => do
    let v ← Machine.pop
    Machine.setLocal n v
    return true
  | store .static => do
    let v ← Machine.pop
    Machine.setStatic n v
    return true
  | store .heap => do
    let v ← Machine.pop
    let base ← Machine.pop
    Machine.setHeap (← Machine.heapIndex base (Int32.ofNat n)) v
    return true
  | new => do
    Machine.push (← Machine.allocate limits n)
    return true
  | print => do
    printWord n
    return true

/-! ### Instructions -/

/-- The opcode of the instruction. -/
def opcode : Numbered → Opcode
  | load r => r.loadOpcode
  | store r => r.storeOpcode
  | new => .new
  | print => .sprint

/-- The width of the operand of the instruction. -/
def width : Numbered → Width
  | load r | store r => r.offsetWidth
  | new | print => .s16

/-- The instruction with the number `m`, of which only the low bytes count. -/
def instruction (m : Nat) : Numbered → Instruction
  | load .stack => .load (UInt8.ofNat m)
  | load .static => .getStatic (Int16.ofNat m)
  | load .heap => .getField (Int16.ofNat m)
  | store .stack => .store (UInt8.ofNat m)
  | store .static => .putStatic (Int16.ofNat m)
  | store .heap => .putField (Int16.ofNat m)
  | new => .new (Int16.ofNat m)
  | print => .printString (Int16.ofNat m)

theorem operands_opcode (k : Numbered) : k.opcode.operands = [k.width] := by
  rcases k with (_ | _ | _) | (_ | _ | _) | _ | _ <;> rfl

theorem instruction_ne_last (m : Nat) (k : Numbered) : k.instruction m ≠ .last := by
  rcases k with (_ | _ | _) | (_ | _ | _) | _ | _ <;> exact Instruction.noConfusion

/-- The operand of the instruction has the bytes of the number.  The instructions differ in the
width and the meaning of the operand, and so each of them is a case. -/
theorem ofOperands_encode (m : Nat) (k : Numbered) :
    Instruction.ofOperands k.opcode (fun j => (k.width.encode (Int32.ofNat m)).getD j 0)
      = k.instruction m := by
  have hbytes : Width.s16.encode (Int32.ofNat m)
      = [UInt8.ofNat ((Int16.ofNat m).toUInt16.toNat / 256),
          UInt8.ofNat (Int16.ofNat m).toUInt16.toNat] := by
    rw [Width.encode_s16_ofNat, ← Instruction.bytes_ofNat, BigEndian.bytes_two]
  have hhalf := Instruction.half_bytes (Int16.ofNat m)
  rcases k with (_ | _ | _) | (_ | _ | _) | _ | _
  · rw [width, Region.offsetWidth, Width.encode_s8_ofNat]
    rfl
  · rw [width, Region.offsetWidth, hbytes]
    exact congrArg Instruction.getStatic hhalf
  · rw [width, Region.offsetWidth, hbytes]
    exact congrArg Instruction.getField hhalf
  · rw [width, Region.offsetWidth, Width.encode_s8_ofNat]
    rfl
  · rw [width, Region.offsetWidth, hbytes]
    exact congrArg Instruction.putStatic hhalf
  · rw [width, Region.offsetWidth, hbytes]
    exact congrArg Instruction.putField hhalf
  · rw [width, hbytes]
    exact congrArg Instruction.new hhalf
  · rw [width, hbytes]
    exact congrArg Instruction.printString hhalf

/-- Only the low bytes of an operand count. -/
theorem ofNat_mod (m : Nat) : Int16.ofNat (m % 65536) = Int16.ofNat m := by
  have hlow : (Int16.ofNat (m % 65536)).toUInt16 = (Int16.ofNat m).toUInt16 := by
    apply UInt16.toNat_inj.mp
    rw [Int16.toUInt16_ofNat', Int16.toUInt16_ofNat', UInt16.toNat_ofNat', UInt16.toNat_ofNat']
    exact Nat.mod_mod _ _
  rw [← Int16.toInt16_toUInt16 (Int16.ofNat (m % 65536)), hlow, Int16.toInt16_toUInt16]

theorem printString_eq_printWord (m : Nat) :
    Machine.printString (Int16.ofNat m) = printWord (m % 65536) := by
  funext s
  simp only [Machine.printString, printWord, Instruction.address_ofNat, ofNat_mod]

/-- The machine uses the operand as an unsigned number. -/
theorem execute_instruction (limits : Limits) (m : Nat) (k : Numbered) :
    Machine.execute limits (k.instruction m) = k.perform limits (m % k.reach) := by
  have hslot : (UInt8.ofNat m).toNat = m % 256 := UInt8.toNat_ofNat'
  have haddress : Instruction.address (Int16.ofNat m) = m % 65536 := Instruction.address_ofNat m
  have hunsigned : Machine.unsigned (Int16.ofNat m) = Int32.ofNat (m % 65536) := by
    rw [Machine.unsigned, haddress]
  rcases k with (_ | _ | _) | (_ | _ | _) | _ | _
  · simp only [instruction, Machine.execute, perform, reach, hslot]
  · simp only [instruction, Machine.execute, perform, reach, haddress]
  · simp only [instruction, Machine.execute, perform, reach, hunsigned]
  · simp only [instruction, Machine.execute, perform, reach, hslot]
  · simp only [instruction, Machine.execute, perform, reach, haddress]
  · simp only [instruction, Machine.execute, perform, reach, hunsigned]
  · simp only [instruction, Machine.execute, perform, reach, haddress]
  · simp only [instruction, Machine.execute, perform, reach, printString_eq_printWord]

/-! ### Acceptance -/

/-- All requests are for one instruction with a word as its operand. -/
theorem emit_eq_emitWith {k : Numbered} {v : Int} (hv : k.Takes v) :
    k.emit v = emitWith k.opcode k.width (Int32.ofInt v) := by
  have hnat (hpos : 0 ≤ v) : Int32.ofNat v.toNat = Int32.ofInt v := by
    rw [← Int32.ofInt_eq_ofNat, Int.toNat_of_nonneg hpos]
  rcases k with r | r | _ | _
  · rfl
  · rfl
  · rw [emit, newObject, hnat hv.1]
    rfl
  · rw [emit, printString, hnat hv.1]
    rfl

/-- The words that an operand holds are those from the least signed to the greatest unsigned number
of its width. -/
theorem holds_ofInt {k : Numbered} {v : Int} (hv : k.Takes v) :
    k.width.holds (Int32.ofInt v) = true ↔ k.least ≤ v ∧ v < k.reach := by
  -- the number is a word, so that the word that is tested stands for it
  have hrange : -2147483648 ≤ v ∧ v < 2147483648 := by
    rcases k with r | r | _ | _
    · exact hv
    · exact hv
    · exact ⟨Int.le_trans (by decide) hv.1, hv.2⟩
    · exact ⟨Int.le_trans (by decide) hv.1, hv.2⟩
  have hword : (Int32.ofInt v).toInt = v := Int32.toInt_ofInt_of_le hrange.1 hrange.2
  rw [Width.holds, hword, Bool.and_eq_true, decide_eq_true_eq, decide_eq_true_eq]
  rcases k with (_ | _ | _) | (_ | _ | _) | _ | _ <;>
    simp only [width, Region.offsetWidth, Width.min, Width.max, least, reach] <;> omega

theorem ofInt_eq_ofNat (v : Int) : Int32.ofInt v = Int32.ofNat (v % 4294967296).toNat := by
  apply Int32.toInt_inj.mp
  rw [Int32.toInt_ofInt, ← Int32.ofInt_eq_ofNat, Int32.toInt_ofInt, Int.toNat_of_nonneg (by omega)]
  exact (Int.emod_bmod v 4294967296).symm

/-- An accepted number is used as it is, or with the numbers that can be told apart added. -/
theorem used_eq {k : Numbered} {v : Int} (hleast : k.least ≤ v) (hreach : v < k.reach) :
    (0 ≤ v → (((v % 4294967296).toNat % k.reach : Nat) : Int) = v) ∧
      (v < 0 → (((v % 4294967296).toNat % k.reach : Nat) : Int) = v + k.reach) := by
  rcases k with (_ | _ | _) | (_ | _ | _) | _ | _ <;> simp only [least, reach] at * <;> omega

end Numbered

/-- **The number that is accepted is the number that is used.**  A request with a number is a misuse
exactly if the number can be read back neither as a signed nor as an unsigned operand.  Otherwise it
emits one instruction, which the machine finds at its address in each image that is made in the end,
and for which it does what is meant for that number.  Instead of a negative number it uses the one
that has the same bytes. -/
theorem number_performed (k : Numbered) (v : Int) (hv : k.Takes v) (a : Assembler) :
    ((∃ misuse b, k.emit v a = .error misuse b) ↔ v < k.least ∨ k.reach ≤ v) ∧
    ∀ b, k.emit v a = .ok () b → ∃ (i : Instruction) (n : Nat),
      (0 ≤ v → (n : Int) = v) ∧ (v < 0 → (n : Int) = v + k.reach) ∧
      (∀ limits, Machine.execute limits i = k.perform limits n) ∧
      ∀ later c image c', session later b = .ok () c → finish c = .ok (.ok image) c' →
        Machine.fetch image.code.toArray a.code.size = .ok i := by
  have hholds := Numbered.holds_ofInt hv
  rw [Numbered.emit_eq_emitWith hv]
  cases hfits : k.width.holds (Int32.ofInt v) with
  | false =>
    have hout : ¬ (k.least ≤ v ∧ v < k.reach) := fun hin => by simp [hholds.mpr hin] at hfits
    rw [emitWith_of_not_holds hfits]
    refine ⟨⟨fun _ => by omega, fun _ => ⟨_, _, rfl⟩⟩, fun b h => ?_⟩
    cases h
  | true =>
    obtain ⟨hleast, hreach⟩ := hholds.mp hfits
    obtain ⟨hsame, hadded⟩ := Numbered.used_eq hleast hreach
    rw [emitWith_eq k.operands_opcode hfits, Numbered.ofInt_eq_ofNat, k.ofOperands_encode]
    refine ⟨⟨?_, fun hout => by omega⟩, fun b h => ?_⟩
    · rintro ⟨misuse, b, h⟩
      cases h
    · cases h
      refine ⟨_, _, hsame, hadded, fun limits => k.execute_instruction limits _, ?_⟩
      intro later c image c' hlater hfinish
      -- the image is made at the end, and what it realizes is carried back to this request
      have hrealized :=
        RealizedBy.of_effects (effects_session hlater) (realizedBy_of_finish hfinish)
      have hcode := hrealized.codeAt
      rw [Code.ofInstructions_cons, Code.ofInstructions_nil, List.append_nil] at hcode
      exact Machine.fetch_of_codeAt hcode (k.instruction_ne_last _)

/-- A main procedure without parameters that has just begun. -/
def begun : Assembler where
  code := ⟨#[.known 48, .known 0, .hole]⟩
  statics := ⟨#[]⟩
  labels := ⟨[("main", 0)], []⟩
  procedure? := some ⟨"main", 0, 2, 0⟩
  main? := some "main"

/-- The procedure when it has loaded local 200 and ended. -/
def ended : Assembler where
  code := ⟨#[.known 48, .known 0, .known 0, .known 1, .known 200, .known 49, .known 47]⟩
  statics := ⟨#[]⟩
  labels := ⟨[("main_end", 5), ("main", 0)], []⟩
  procedure? := none
  main? := some "main"

/-- Local 200 is loaded at address 3 of the procedure, although 200 is no signed operand. -/
theorem number_performed_local : ∃ (b c : Assembler) (image : Image) (i : Instruction) (n : Nat),
    (Numbered.load .stack).emit 200 begun = .ok () b ∧ session [.exit "main_end"] b = .ok () c ∧
      finish c = .ok (.ok image) c ∧ Machine.fetch image.code.toArray 3 = .ok i ∧ (n : Int) = 200 ∧
      ∀ limits, Machine.execute limits i = (Numbered.load .stack).perform limits n := by
  have hemit : (Numbered.load .stack).emit 200 begun
      = .ok () { begun with code := ⟨#[.known 48, .known 0, .hole, .known 1, .known 200]⟩ } := rfl
  have hexit : session [.exit "main_end"]
      { begun with code := ⟨#[.known 48, .known 0, .hole, .known 1, .known 200]⟩ }
        = .ok () ended := rfl
  have hfinish : finish ended
      = .ok (.ok ⟨⟨7, 0, 0⟩, [48, 0, 0, 1, 200, 49, 47], []⟩) ended := rfl
  obtain ⟨-, hused⟩ := number_performed (.load .stack) 200 ⟨by decide, by decide⟩ begun
  obtain ⟨i, n, hn, -, hexecute, hfetch⟩ := hused _ hemit
  exact ⟨_, _, _, i, n, hemit, hexit, hfinish, hfetch _ _ _ _ hexit hfinish,
    hn (by decide), hexecute⟩

/-- A negative number is not always a misuse: -1 is accepted as the number of a local, and the
machine then uses local 255. -/
theorem negative_accepted : ¬ ∀ (k : Numbered) (v : Int) (a : Assembler), k.Takes v →
    ((∃ misuse b, k.emit v a = .error misuse b) ↔ v < 0 ∨ k.reach ≤ v) := by
  intro h
  obtain ⟨misuse, b, hpanic⟩ :=
    (h (.load .stack) (-1) .empty ⟨by decide, by decide⟩).mpr (Or.inl (by decide))
  cases hpanic

end Assembler
end MJ
