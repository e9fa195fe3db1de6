import MJ.Code

/-!
# Instructions and their bytes

The two ways to look at code: as a string of bytes and as a list of instructions.  An instruction
is determined by its bytes, and its bytes by the opcode and the operand bytes that follow it, so
code that was written one instruction after the other is read back as just these instructions.

## Main definitions

* `Code.ofInstructions` — the bytes of a list of instructions.
* `Code.locate` — a list of instructions, each at its address.

## Main results

* `Instruction.bytes_ofOperands`, `Instruction.ofOperands_operandBytes` — an instruction and its
  bytes determine each other.
* `Code.decodeFrom_ofInstructions` — decoding the bytes of instructions gives them back.
-/

namespace MJ

/-! ### Big-endian operands -/

namespace BigEndian

/-- Two bytes, written out.  The general definition goes by recursion on the number of bytes, while
instructions name theirs. -/
theorem bytes_two (n : Nat) : bytes 2 n = [UInt8.ofNat (n / 256), UInt8.ofNat n] := rfl

/-- Four bytes, written out. -/
theorem bytes_four (n : Nat) :
    bytes 4 n = [UInt8.ofNat (n / 256 / 256 / 256), UInt8.ofNat (n / 256 / 256),
      UInt8.ofNat (n / 256), UInt8.ofNat n] := rfl

/-- Bytes only depend on the number modulo their capacity: higher digits are dropped. -/
theorem bytes_mod (k n : Nat) : bytes k (n % capacity k) = bytes k n := by
  induction k generalizing n with
  | zero => rfl
  | succ k ih =>
    have hdiv : n % capacity (k + 1) / 256 = n / 256 % capacity k := by
      rw [capacity, Nat.mod_mul_right_div_self]
    have hlow : UInt8.ofNat (n % capacity (k + 1)) = UInt8.ofNat n := by
      apply UInt8.toNat_inj.mp
      rw [UInt8.toNat_ofNat', UInt8.toNat_ofNat', capacity]
      exact Nat.mod_mul_right_mod n 256 (capacity k)
    rw [bytes, bytes, hdiv, ih, hlow]

end BigEndian

namespace Width

@[simp] theorem length_encode (w : Width) (v : Word) : (w.encode v).length = w.size :=
  BigEndian.length_bytes _ _

/-- Two operand bytes keep a number modulo their capacity.  The number may have been cut down to a
word before, which does not touch its low bytes. -/
theorem encode_s16_ofNat (n : Nat) : s16.encode (Int32.ofNat n) = BigEndian.bytes 2 n := by
  have h : (Int32.ofNat n).toUInt32.toNat % 65536 = n % 65536 := by
    rw [Int32.toUInt32_ofNat', UInt32.toNat_ofNat']
    omega
  calc s16.encode (Int32.ofNat n)
      = BigEndian.bytes 2 ((Int32.ofNat n).toUInt32.toNat % 65536) :=
        (BigEndian.bytes_mod 2 _).symm
    _ = BigEndian.bytes 2 (n % 65536) := by rw [h]
    _ = BigEndian.bytes 2 n := BigEndian.bytes_mod 2 n

/-- One operand byte keeps a number modulo its capacity. -/
theorem encode_s8_ofNat (n : Nat) : s8.encode (Int32.ofNat n) = [UInt8.ofNat n] := by
  have h : (Int32.ofNat n).toUInt32.toNat % 256 = n % 256 := by
    rw [Int32.toUInt32_ofNat', UInt32.toNat_ofNat']
    omega
  calc s8.encode (Int32.ofNat n)
      = BigEndian.bytes 1 ((Int32.ofNat n).toUInt32.toNat % 256) := (BigEndian.bytes_mod 1 _).symm
    _ = BigEndian.bytes 1 (n % 256) := by rw [h]
    _ = BigEndian.bytes 1 n := BigEndian.bytes_mod 1 n

end Width

private theorem ofNat_eq_of_mod {n : Nat} {b : UInt8} (h : n % 256 = b.toNat) :
    UInt8.ofNat n = b := by
  apply UInt8.toNat_inj.mp
  rw [UInt8.toNat_ofNat']
  exact h

namespace Instruction

/-- A two-byte operand that was put together from two bytes has these bytes. -/
theorem bytes_half (a b : UInt8) : BigEndian.bytes 2 (half a b).toUInt16.toNat = [a, b] := by
  have ha := a.toNat_lt
  have hb := b.toNat_lt
  have hn : (half a b).toUInt16.toNat = a.toNat * 256 + b.toNat := by
    rw [half, Int16.toUInt16_ofNat', UInt16.toNat_ofNat']
    omega
  rw [hn, BigEndian.bytes_two, ofNat_eq_of_mod (b := a) (by omega),
    ofNat_eq_of_mod (b := b) (by omega)]

/-- A two-byte operand is made of its two bytes. -/
theorem half_bytes (n : Int16) :
    half (UInt8.ofNat (n.toUInt16.toNat / 256)) (UInt8.ofNat n.toUInt16.toNat) = n := by
  have hn := n.toUInt16.toNat_lt
  have h : half (UInt8.ofNat (n.toUInt16.toNat / 256)) (UInt8.ofNat n.toUInt16.toNat)
      = Int16.ofNat n.toUInt16.toNat := by
    rw [half, UInt8.toNat_ofNat', UInt8.toNat_ofNat']
    congr 1
    omega
  rw [h, ← UInt16.toInt16_ofNat', UInt16.ofNat_toNat, Int16.toInt16_toUInt16]

/-- The bytes of a two-byte operand made from a number are those of the number, however large it
is. -/
theorem bytes_ofNat (n : Nat) :
    BigEndian.bytes 2 (Int16.ofNat n).toUInt16.toNat = BigEndian.bytes 2 n := by
  rw [Int16.toUInt16_ofNat', UInt16.toNat_ofNat']
  exact BigEndian.bytes_mod 2 n

/-- The address that an operand made from a number stands for.  Operands are signed, but addresses
are read without a sign, so that all 65536 of them can be named. -/
@[simp] theorem address_ofNat (n : Nat) : address (Int16.ofNat n) = n % 65536 := by
  rw [address, Int16.toUInt16_ofNat', UInt16.toNat_ofNat']

/-- The four bytes of a word. -/
theorem bytes_ofBytes (a b c d : UInt8) :
    BigEndian.bytes 4 (Word.ofBytes a b c d).toUInt32.toNat = [a, b, c, d] := by
  have ha := a.toNat_lt
  have hb := b.toNat_lt
  have hc := c.toNat_lt
  have hd := d.toNat_lt
  have hn : (Word.ofBytes a b c d).toUInt32.toNat
      = ((a.toNat * 256 + b.toNat) * 256 + c.toNat) * 256 + d.toNat := by
    rw [Word.ofBytes, Int32.toUInt32_ofNat', UInt32.toNat_ofNat']
    omega
  rw [hn, BigEndian.bytes_four, ofNat_eq_of_mod (b := a) (by omega),
    ofNat_eq_of_mod (b := b) (by omega), ofNat_eq_of_mod (b := c) (by omega),
    ofNat_eq_of_mod (b := d) (by omega)]

/-- A word is made of its four bytes. -/
theorem ofBytes_bytes (v : Word) :
    Word.ofBytes (UInt8.ofNat (v.toUInt32.toNat / 256 / 256 / 256))
      (UInt8.ofNat (v.toUInt32.toNat / 256 / 256)) (UInt8.ofNat (v.toUInt32.toNat / 256))
      (UInt8.ofNat v.toUInt32.toNat) = v := by
  have hv := v.toUInt32.toNat_lt
  have h : ∀ n : Nat, n < UInt32.size →
      Word.ofBytes (UInt8.ofNat (n / 256 / 256 / 256)) (UInt8.ofNat (n / 256 / 256))
        (UInt8.ofNat (n / 256)) (UInt8.ofNat n) = Int32.ofNat n := by
    intro n hn
    simp only [Word.ofBytes, UInt8.toNat_ofNat']
    congr 1
    have hn : n < 4294967296 := hn
    omega
  rw [h _ hv, ← UInt32.toInt32_ofNat', UInt32.ofNat_toNat, Int32.toInt32_toUInt32]

/-! ### Opcode and operand bytes -/

/-- The operand bytes of an instruction are as many as its opcode announces.  This is what makes
code readable from front to back: the opcode says where the next instruction starts. -/
@[simp] theorem length_operandBytes (i : Instruction) :
    i.operandBytes.length = i.opcode.operandSize := by
  cases i with
  | loadShort slot => match slot with | 0 | 1 | 2 | 3 => rfl
  | storeShort slot => match slot with | 0 | 1 | 2 | 3 => rfl
  | constShort v => match v with | 0 | 1 | 2 | 3 | 4 | 5 => rfl
  | arithmetic op => cases op <;> rfl
  | branch test n => cases test <;> rfl
  | _ => rfl

@[simp] theorem length_bytes (i : Instruction) : i.bytes.length = i.size := by
  rw [bytes, List.length_cons, length_operandBytes, size, Opcode.size, Nat.add_comm]

/-- Every instruction takes at least its opcode. -/
theorem size_pos (i : Instruction) : 0 < i.size := by
  rw [size, Opcode.size]
  omega

/-- Operand bytes after the last are not looked at.  Instructions are put together from a function
on positions, which is total, so that what it gives further on has to be shown not to matter. -/
theorem ofOperands_congr {op : Opcode} {f g : Nat → UInt8}
    (h : ∀ k, k < op.operandSize → f k = g k) : ofOperands op f = ofOperands op g := by
  -- only a long constant has four operand bytes; all others have two, one or none
  cases op
  case const =>
    have h0 := h 0 (by decide)
    have h1 := h 1 (by decide)
    have h2 := h 2 (by decide)
    have h3 := h 3 (by decide)
    simp only [ofOperands, h0, h1, h2, h3]
  all_goals first
    | (have h0 := h 0 (by decide)
       have h1 := h 1 (by decide)
       simp only [ofOperands, h0, h1])
    | (have h0 := h 0 (by decide)
       simp only [ofOperands, h0])
    | rfl

/-- An instruction is determined by its opcode and its operand bytes. -/
theorem ofOperands_operandBytes (i : Instruction) :
    ofOperands i.opcode (fun k => i.operandBytes.getD k 0) = i := by
  cases i with
  | loadShort slot => match slot with | 0 | 1 | 2 | 3 => rfl
  | storeShort slot => match slot with | 0 | 1 | 2 | 3 => rfl
  | constShort v => match v with | 0 | 1 | 2 | 3 | 4 | 5 => rfl
  | arithmetic op => cases op <;> rfl
  | branch test n => cases test <;> exact congrArg (branch _) (half_bytes n)
  | getStatic n => exact congrArg getStatic (half_bytes n)
  | putStatic n => exact congrArg putStatic (half_bytes n)
  | getField n => exact congrArg getField (half_bytes n)
  | putField n => exact congrArg putField (half_bytes n)
  | new n => exact congrArg new (half_bytes n)
  | jump n => exact congrArg jump (half_bytes n)
  | call n => exact congrArg call (half_bytes n)
  | printString n => exact congrArg printString (half_bytes n)
  | const v => exact congrArg const (ofBytes_bytes v)
  | _ => rfl

@[simp] theorem opcode_ofOperands (op : Opcode) (f : Nat → UInt8) :
    (ofOperands op f).opcode = op := by
  cases op <;> rfl

/-- An instruction that was put together from operand bytes has just these operand bytes. -/
theorem operandBytes_ofOperands {op : Opcode} {bs : List UInt8}
    (h : bs.length = op.operandSize) :
    (ofOperands op fun k => bs.getD k 0).operandBytes = bs := by
  -- the list is split by its length first, so that the opcodes of each size share one argument
  have hsize : op.operandSize = 0 ∨ op.operandSize = 1 ∨ op.operandSize = 2 ∨
      op.operandSize = 4 := by
    cases op <;> decide
  rcases hsize with h0 | h1 | h2 | h4
  · have hbs : bs = [] := List.length_eq_zero_iff.mp (h.trans h0)
    subst hbs
    cases op <;> first | rfl | exact absurd h0 (by decide)
  · obtain ⟨a, rfl⟩ := List.length_eq_one_iff.mp (h.trans h1)
    cases op <;> first | rfl | exact absurd h1 (by decide)
  · match bs, h.trans h2 with
    | [a, b], _ =>
      cases op <;> first | rfl | exact bytes_half a b | exact absurd h2 (by decide)
  · match bs, h.trans h4 with
    | [a, b, c, d], _ =>
      cases op <;> first | exact bytes_ofBytes a b c d | exact absurd h4 (by decide)

theorem bytes_ofOperands {op : Opcode} {bs : List UInt8} (h : bs.length = op.operandSize) :
    (ofOperands op fun k => bs.getD k 0).bytes = op.byte :: bs := by
  rw [bytes, opcode_ofOperands, operandBytes_ofOperands h]

end Instruction

/-! ### Code as a list of instructions -/

namespace Code

/-- The bytes of instructions, one after the other. -/
def ofInstructions (is : List Instruction) : List UInt8 := is.flatMap Instruction.bytes

@[simp] theorem ofInstructions_nil : ofInstructions [] = [] := rfl

@[simp] theorem ofInstructions_cons (i : Instruction) (is : List Instruction) :
    ofInstructions (i :: is) = i.bytes ++ ofInstructions is := rfl

@[simp] theorem ofInstructions_append (is js : List Instruction) :
    ofInstructions (is ++ js) = ofInstructions is ++ ofInstructions js :=
  List.flatMap_append

/-- Instructions at their addresses, of which the first stands at `address`. -/
def locate (address : Nat) : List Instruction → List Located
  | [] => []
  | i :: is => ⟨address, i⟩ :: locate (address + i.size) is

/-- Decoding the bytes of an instruction gives it back, whatever follows.  What follows may be bytes
that are no code at all: then it is this rest that cannot be decoded. -/
theorem decodeFrom_bytes_append (i : Instruction) (rest : List UInt8) (address : Nat) :
    decodeFrom address (i.bytes ++ rest) = (do
      let following ← decodeFrom (address + i.size) rest
      .ok (⟨address, i⟩ :: following)) := by
  have htake : (i.operandBytes ++ rest).take i.opcode.operandSize = i.operandBytes := by
    rw [← Instruction.length_operandBytes, List.take_left]
  have hdrop : (i.operandBytes ++ rest).drop i.opcode.operandSize = rest := by
    rw [← Instruction.length_operandBytes, List.drop_left]
  have hlen : ¬ i.operandBytes.length < i.opcode.operandSize := by
    rw [Instruction.length_operandBytes]
    exact Nat.lt_irrefl _
  rw [Instruction.bytes, List.cons_append, decodeFrom]
  simp only [Opcode.ofByte?_byte, htake, hdrop, if_neg hlen, Instruction.ofOperands_operandBytes]
  rfl

/-- Decoding the bytes of instructions gives them back at their addresses, by induction on the
instructions from any address on. -/
theorem decodeFrom_ofInstructions (is : List Instruction) (address : Nat) :
    decodeFrom address (ofInstructions is) = .ok (locate address is) := by
  induction is generalizing address with
  | nil => rw [ofInstructions_nil, decodeFrom, locate]
  | cons i is ih =>
    rw [ofInstructions_cons, decodeFrom_bytes_append, ih, locate]
    rfl

end Code
end MJ
