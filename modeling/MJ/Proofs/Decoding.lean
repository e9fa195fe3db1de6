import MJ.Proofs.Encoding

/-!
# Decoding code

The decoder undoes the encoder and the encoder undoes the decoder.  The encoder here is the plain
one, which knows nothing of instructions: it writes an opcode and then each operand at its width.
An operand is read back if it is in the range in which the opcode reads its operands: frame
offsets and frame sizes are unsigned, all others are signed.

## Main definitions

* `Code.encodeOperands`, `Code.encode` — an opcode and operands as bytes.
* `Opcode.Reads`, `Opcode.Admits` — the operands that are read back as they were written.
* `Code.Fails` — why the code at an address cannot be decoded.
* `Code.totalSize` — the size of instructions that follow each other.

## Main results

* `Instruction.bytes_eq_encode`, `Opcode.Admits.exists_instruction` — instructions are the opcodes
  with operands that are read back.
* `Code.decodeFrom_eq_ok`, `Code.decodeFrom_eq_error` — what can be decoded and what cannot.
* `Code.decode_inverse` — **decoder and encoder are inverse over the whole code format.**
-/

namespace MJ

/-- A signed number and the unsigned one with the same bits differ by a multiple of the capacity, so
that they are the same modulo it. -/
theorem toInt_emod {k : Nat} (b : BitVec k) : b.toInt % (Nat.pow 2 k : Nat) = b.toNat := by
  rw [BitVec.toInt_eq_toNat_bmod]
  exact Int.bmod_emod.trans
    (Int.emod_eq_of_lt (Int.natCast_nonneg _) (Int.ofNat_lt.mpr b.isLt))

namespace Width

/-- The bytes of an operand are those of its value modulo their capacity. -/
theorem encode_ofInt (w : Width) (v : Int) :
    w.encode (Int32.ofInt v) = BigEndian.bytes w.size (v % w.modulus).toNat := by
  have hword : (Int32.ofInt v).toUInt32.toNat = (v % 4294967296).toNat := by
    rw [← Int32.toNat_toBitVec, Int32.toBitVec_ofInt, BitVec.toNat_ofInt]
    rfl
  rw [encode, hword, ← BigEndian.bytes_mod]
  congr 1
  cases w <;> simp only [modulus, size, BigEndian.capacity] <;> omega

/-- The unsigned number in the bytes of an operand. -/
theorem value_encode (w : Width) (v : Int) :
    BigEndian.value (w.encode (Int32.ofInt v)) = (v % w.modulus).toNat := by
  have hlt : (v % w.modulus).toNat < BigEndian.capacity w.size := by
    cases w <;> simp only [modulus, size, BigEndian.capacity] <;> omega
  rw [encode_ofInt, BigEndian.value_bytes, Nat.mod_eq_of_lt hlt]

end Width

namespace Opcode

/-! ### Operands that are read back -/

/-- Whether the operands of the opcode are read without a sign.  These count words of a frame, which
may have up to 255 of them. -/
def isUnsigned : Opcode → Bool
  | load | store | enter => true
  | _ => false

/-- The values that an operand of width `w` is read as.  Other values may be written as well, but
what is read from their bytes is something else. -/
def Reads (op : Opcode) (w : Width) (v : Int) : Prop :=
  if op.isUnsigned then 0 ≤ v ∧ v ≤ 255 else w.min ≤ v ∧ v ≤ w.max

/-- Values of operands of given widths. -/
def ReadsAll (op : Opcode) : List Width → List Int → Prop
  | [], [] => True
  | w :: ws, v :: vs => op.Reads w v ∧ ReadsAll op ws vs
  | _, _ => False

/-- Values that the operands of an instruction are read as. -/
def Admits (op : Opcode) (operands : List Int) : Prop := op.ReadsAll op.operands operands

/-- No two values of an operand have the same bytes.  Each range has as many values as there are
byte patterns, so that residues tell them apart. -/
theorem Reads.eq_of_encode {op : Opcode} {w : Width} {v v' : Int} (hw : w ∈ op.operands)
    (hv : op.Reads w v) (hv' : op.Reads w v')
    (h : w.encode (Int32.ofInt v) = w.encode (Int32.ofInt v')) : v = v' := by
  have hmod : (v % w.modulus).toNat = (v' % w.modulus).toNat := by
    rw [← Width.value_encode, ← Width.value_encode, h]
  unfold Reads at hv hv'
  split at hv
  · rename_i hunsigned
    -- the operands without a sign are all of one byte
    have hbyte : w = .s8 := by
      cases op <;> simp_all [isUnsigned, operands]
    subst hbyte
    rw [if_pos hunsigned] at hv'
    change (v % 256).toNat = (v' % 256).toNat at hmod
    omega
  · rename_i hsigned
    rw [if_neg hsigned] at hv'
    cases w with
    | s8 =>
      change (v % 256).toNat = (v' % 256).toNat at hmod
      simp only [Width.min, Width.max] at hv hv'
      omega
    | s16 =>
      change (v % 65536).toNat = (v' % 65536).toNat at hmod
      simp only [Width.min, Width.max] at hv hv'
      omega
    | s32 =>
      change (v % 4294967296).toNat = (v' % 4294967296).toNat at hmod
      simp only [Width.min, Width.max] at hv hv'
      omega

end Opcode

namespace Code

/-! ### The encoder -/

/-- Operands, each written at its width.  Operands that are missing or too many are left out, which
does not happen to operands that the opcode reads. -/
def encodeOperands : List Width → List Int → List UInt8
  | w :: ws, v :: vs => w.encode (Int32.ofInt v) ++ encodeOperands ws vs
  | _, _ => []

/-- An opcode and its operands. -/
def encode (op : Opcode) (operands : List Int) : List UInt8 :=
  op.byte :: encodeOperands op.operands operands

theorem encodeOperands_singleton (w : Width) (v : Int) :
    encodeOperands [w] [v] = w.encode (Int32.ofInt v) := List.append_nil _

theorem length_encodeOperands {op : Opcode} {ws : List Width} {vs : List Int}
    (h : op.ReadsAll ws vs) :
    (encodeOperands ws vs).length = ws.foldr (fun w n => w.size + n) 0 := by
  induction ws generalizing vs with
  | nil => rfl
  | cons w ws ih =>
    cases vs with
    | nil => exact absurd h id
    | cons v vs => simp [encodeOperands, ih h.2]

/-- Operands are told apart by their bytes, since the widths say where each of them ends. -/
theorem encodeOperands_inj {op : Opcode} {ws : List Width} {vs vs' : List Int}
    (hws : ∀ w ∈ ws, w ∈ op.operands) (hvs : op.ReadsAll ws vs) (hvs' : op.ReadsAll ws vs')
    (h : encodeOperands ws vs = encodeOperands ws vs') : vs = vs' := by
  induction ws generalizing vs vs' with
  | nil =>
    cases vs with
    | nil =>
      cases vs' with
      | nil => rfl
      | cons => exact absurd hvs' id
    | cons => exact absurd hvs id
  | cons w ws ih =>
    cases vs with
    | nil => exact absurd hvs id
    | cons v vs =>
      cases vs' with
      | nil => exact absurd hvs' id
      | cons v' vs' =>
        obtain ⟨hfirst, hrest⟩ := List.append_inj h (by simp)
        rw [hvs.1.eq_of_encode (hws w List.mem_cons_self) hvs'.1 hfirst,
          ih (fun u hu => hws u (List.mem_cons_of_mem w hu)) hvs.2 hvs'.2 hrest]

end Code

namespace Instruction

/-! ### Instructions as opcodes with operands -/

/-- Two operand bytes hold a number of sixteen bits. -/
theorem encode_s16_toInt (n : Int16) :
    Width.s16.encode (Int32.ofInt n.toInt) = BigEndian.bytes 2 n.toUInt16.toNat := by
  have hmod : n.toInt % 65536 = n.toUInt16.toNat := toInt_emod n.toBitVec
  rw [Width.encode_ofInt]
  exact congrArg (BigEndian.bytes 2) (by rw [← Int.toNat_natCast n.toUInt16.toNat, ← hmod]; rfl)

/-- One operand byte holds a number of eight bits. -/
theorem encode_s8_toInt (n : Int8) : Width.s8.encode (Int32.ofInt n.toInt) = [n.toUInt8] := by
  have hmod : n.toInt % 256 = n.toUInt8.toNat := toInt_emod n.toBitVec
  rw [Width.encode_ofInt]
  change [UInt8.ofNat (n.toInt % 256).toNat] = _
  rw [hmod, Int.toNat_natCast, UInt8.ofNat_toNat]

/-- One operand byte holds a byte. -/
theorem encode_s8_toNat (b : UInt8) : Width.s8.encode (Int32.ofInt b.toNat) = [b] :=
  (Width.encode_s8_ofNat b.toNat).trans (by rw [UInt8.ofNat_toNat])

/-- The bytes of an instruction are its opcode and its operands, each at its width.  The
instructions know their own bytes; here these are compared with what a plain encoder writes. -/
theorem bytes_eq_encode (i : Instruction) : i.bytes = Code.encode i.opcode i.operands := by
  -- almost all operands are of two bytes or of one, and the cases below share these two facts
  have hhalf : ∀ n : Int16, BigEndian.bytes 2 n.toUInt16.toNat
      = Code.encodeOperands [.s16] [n.toInt] := fun n => by
    rw [Code.encodeOperands_singleton, encode_s16_toInt]
  have hbyte : ∀ b : UInt8, [b] = Code.encodeOperands [.s8] [(b.toNat : Int)] := fun b => by
    rw [Code.encodeOperands_singleton, encode_s8_toNat]
  cases i with
  | loadShort slot => match slot with | 0 | 1 | 2 | 3 => rfl
  | storeShort slot => match slot with | 0 | 1 | 2 | 3 => rfl
  | constShort v => match v with | 0 | 1 | 2 | 3 | 4 | 5 => rfl
  | arithmetic op => cases op <;> rfl
  | branch test n => cases test <;> exact congrArg (List.cons _) (hhalf n)
  | load slot | store slot => exact congrArg (List.cons _) (hbyte slot)
  | enter params size =>
    have hpair : [params, size]
        = Code.encodeOperands [.s8, .s8] [(params.toNat : Int), size.toNat] := by
      rw [Code.encodeOperands, ← hbyte, encode_s8_toNat]
      rfl
    exact congrArg (List.cons _) hpair
  | newArray kind =>
    have hkind : [kind.toUInt8] = Code.encodeOperands [.s8] [kind.toInt] := by
      rw [Code.encodeOperands_singleton, encode_s8_toInt]
    exact congrArg (List.cons _) hkind
  | const v =>
    have hword : BigEndian.bytes 4 v.toUInt32.toNat = Code.encodeOperands [.s32] [v.toInt] := by
      rw [Code.encodeOperands_singleton, Int32.ofInt_toInt]
      rfl
    exact congrArg (List.cons _) hword
  | getStatic n | putStatic n | getField n | putField n | new n | printString n | jump n | call n =>
    exact congrArg (List.cons _) (hhalf n)
  | _ => rfl

/-- The operands of an instruction are in the range in which its opcode reads them, since their
types have just the values of this range. -/
theorem admits_operands (i : Instruction) : i.opcode.Admits i.operands := by
  have hhalf : ∀ n : Int16, -32768 ≤ n.toInt ∧ n.toInt ≤ 32767 := fun n =>
    ⟨n.le_toInt, Int.le_of_lt_add_one n.toInt_lt⟩
  have hbyte : ∀ b : UInt8, (0 : Int) ≤ b.toNat ∧ (b.toNat : Int) ≤ 255 := fun b => by
    have := b.toNat_lt
    omega
  cases i with
  | loadShort slot => match slot with | 0 | 1 | 2 | 3 => exact trivial
  | storeShort slot => match slot with | 0 | 1 | 2 | 3 => exact trivial
  | constShort v => match v with | 0 | 1 | 2 | 3 | 4 | 5 => exact trivial
  | arithmetic op => cases op <;> exact trivial
  | branch test n => cases test <;> exact ⟨hhalf n, trivial⟩
  | load slot | store slot => exact ⟨hbyte slot, trivial⟩
  | enter params size => exact ⟨hbyte params, hbyte size, trivial⟩
  | newArray kind => exact ⟨⟨kind.le_toInt, Int.le_of_lt_add_one kind.toInt_lt⟩, trivial⟩
  | const v => exact ⟨⟨v.le_toInt, Int.le_of_lt_add_one v.toInt_lt⟩, trivial⟩
  | getStatic n | putStatic n | getField n | putField n | new n | printString n | jump n | call n =>
    exact ⟨hhalf n, trivial⟩
  | _ => exact trivial

end Instruction

/-- Every opcode with operands that it reads is an instruction: the one that is put together from
the bytes of the operands. -/
theorem Opcode.Admits.exists_instruction {op : Opcode} {vs : List Int} (h : op.Admits vs) :
    ∃ i : Instruction, i.opcode = op ∧ i.operands = vs ∧ i.bytes = Code.encode op vs := by
  have hlength : (Code.encodeOperands op.operands vs).length = op.operandSize :=
    Code.length_encodeOperands h
  refine ⟨.ofOperands op fun k => (Code.encodeOperands op.operands vs).getD k 0, ?_, ?_, ?_⟩
  · exact Instruction.opcode_ofOperands op _
  · -- the operands that are read back have the same bytes
    generalize hi : Instruction.ofOperands op _ = i
    have hop : i.opcode = op := hi ▸ Instruction.opcode_ofOperands op _
    have hbytes : Code.encode op i.operands = Code.encode op vs := by
      rw [← hop, ← i.bytes_eq_encode, ← hi, Instruction.bytes_ofOperands hlength,
        Instruction.opcode_ofOperands]
      rfl
    exact Code.encodeOperands_inj (fun w hw => hw) (hop ▸ i.admits_operands) h
      (List.cons.inj hbytes).2
  · exact Instruction.bytes_ofOperands hlength

/-- A byte stands for at most one opcode. -/
theorem Opcode.byte_of_ofByte? {b : UInt8} {op : Opcode} (h : Opcode.ofByte? b = some op) :
    op.byte = b := by
  unfold Opcode.ofByte? at h
  split at h
  · cases h
  · rename_i hb
    have hindex : ∀ k : Fin 56, (Opcode.all[k.val]?).map Opcode.ctorIdx = some k.val := by decide
    have hlt : b.toNat - 1 < 56 := (Array.getElem?_eq_some_iff.mp h).1
    have hctor := hindex ⟨b.toNat - 1, hlt⟩
    rw [h] at hctor
    have hpos : b.toNat ≠ 0 := fun hzero => hb (UInt8.toNat_inj.mp hzero)
    rw [Opcode.byte, Option.some.inj hctor, Nat.sub_add_cancel (Nat.pos_of_ne_zero hpos),
      UInt8.ofNat_toNat]

namespace Code

/-! ### What can be decoded -/

/-- Why the bytes `rest`, which stand at `address`, do not begin with an instruction. -/
inductive Fails (address : Nat) (rest : List UInt8) : ImageError → Prop
  /-- The first byte is no opcode. -/
  | unknown (b : UInt8) (tail : List UInt8) (hrest : rest = b :: tail)
    (hop : Opcode.ofByte? b = none) : Fails address rest (.unknownOpcode address b)
  /-- The first byte is an opcode, and the instruction is longer than what is left. -/
  | short (op : Opcode) (tail : List UInt8) (hrest : rest = op.byte :: tail)
    (hsize : rest.length < op.size) :
    Fails address rest (.shortInstruction op address rest.length)

theorem Fails.decodeFrom_eq {address : Nat} {rest : List UInt8} {e : ImageError}
    (h : Fails address rest e) : decodeFrom address rest = .error e := by
  cases h with
  | unknown b tail hrest hop =>
    subst hrest
    rw [decodeFrom, hop]
  | short op tail hrest hsize =>
    subst hrest
    have hshort : (tail.take op.operandSize).length < op.operandSize := by
      rw [List.length_cons, Opcode.size] at hsize
      rw [List.length_take]
      omega
    rw [decodeFrom, Opcode.ofByte?_byte]
    simp only [if_pos hshort, List.length_cons]

/-- What bytes begin with: they are none, or begin with an instruction, or do not.  This is all that
one step of the decoder can meet. -/
theorem begins_or_fails (address : Nat) (bs : List UInt8) :
    bs = [] ∨ (∃ i rest, bs = Instruction.bytes i ++ rest) ∨ ∃ e, Fails address bs e := by
  cases bs with
  | nil => exact Or.inl rfl
  | cons b rest =>
    refine Or.inr ?_
    cases hop : Opcode.ofByte? b with
    | none => exact Or.inr ⟨_, .unknown b rest rfl hop⟩
    | some op =>
      obtain rfl := Opcode.byte_of_ofByte? hop
      by_cases hsize : (op.byte :: rest).length < op.size
      · exact Or.inr ⟨_, .short op rest rfl hsize⟩
      · -- any bytes of the right number are operands, since no value of them is excluded
        have hlength : (rest.take op.operandSize).length = op.operandSize := by
          rw [List.length_cons, Opcode.size] at hsize
          rw [List.length_take]
          omega
        refine Or.inl ⟨.ofOperands op fun k => (rest.take op.operandSize).getD k 0,
          rest.drop op.operandSize, ?_⟩
        rw [Instruction.bytes_ofOperands hlength, List.cons_append, List.take_append_drop]

/-- Bytes begin with instructions up to their end or to a place where none begins.  What can be
decoded and what cannot both follow from this. -/
theorem exists_instructions (address : Nat) (bs : List UInt8) :
    ∃ is rest, bs = ofInstructions is ++ rest ∧
      (rest = [] ∨ ∃ e, Fails (address + (ofInstructions is).length) rest e) := by
  -- every instruction that is split off leaves fewer bytes
  induction hn : bs.length using Nat.strongRecOn generalizing address bs with
  | ind n ih =>
    subst hn
    rcases begins_or_fails address bs with rfl | ⟨i, tail, rfl⟩ | hfails
    · exact ⟨[], [], rfl, Or.inl rfl⟩
    · have hlt : tail.length < (i.bytes ++ tail).length := by
        have := i.size_pos
        rw [List.length_append, i.length_bytes]
        omega
      obtain ⟨is, rest, rfl, hrest⟩ := ih _ hlt (address + i.size) tail rfl
      refine ⟨i :: is, rest, by simp, ?_⟩
      rw [ofInstructions_cons, List.length_append, i.length_bytes, ← Nat.add_assoc]
      exact hrest
    · exact ⟨[], bs, rfl, Or.inr hfails⟩

/-- Decoding goes on after instructions that have been decoded. -/
theorem decodeFrom_append (is : List Instruction) (rest : List UInt8) (address : Nat) :
    decodeFrom address (ofInstructions is ++ rest) = (do
      let following ← decodeFrom (address + (ofInstructions is).length) rest
      .ok (locate address is ++ following)) := by
  induction is generalizing address with
  | nil =>
    rw [ofInstructions_nil, List.nil_append, List.length_nil, Nat.add_zero]
    cases decodeFrom address rest <;> rfl
  | cons i is ih =>
    rw [ofInstructions_cons, List.append_assoc, decodeFrom_bytes_append, ih, List.length_append,
      i.length_bytes, ← Nat.add_assoc]
    cases decodeFrom (address + i.size + (ofInstructions is).length) rest <;> rfl

/-- Code can be decoded just if it is made of instructions, and it is decoded as these. -/
theorem decodeFrom_eq_ok {address : Nat} {bs : List UInt8} {ds : List Located} :
    decodeFrom address bs = .ok ds ↔ ∃ is, bs = ofInstructions is ∧ ds = locate address is := by
  constructor
  · intro h
    obtain ⟨is, rest, rfl, rfl | ⟨e, hfails⟩⟩ := exists_instructions address bs
    · rw [List.append_nil] at h ⊢
      rw [decodeFrom_ofInstructions] at h
      exact ⟨is, rfl, (Except.ok.inj h).symm⟩
    · rw [decodeFrom_append, hfails.decodeFrom_eq] at h
      cases h
  · rintro ⟨is, rfl, rfl⟩
    exact decodeFrom_ofInstructions is address

/-- Code cannot be decoded just if no instruction begins after some of its instructions.  The error
names the address where they end. -/
theorem decodeFrom_eq_error {address : Nat} {bs : List UInt8} {e : ImageError} :
    decodeFrom address bs = .error e ↔
      ∃ is rest, bs = ofInstructions is ++ rest ∧
        Fails (address + (ofInstructions is).length) rest e := by
  constructor
  · intro h
    obtain ⟨is, rest, rfl, rfl | ⟨e', hfails⟩⟩ := exists_instructions address bs
    · rw [List.append_nil, decodeFrom_ofInstructions] at h
      cases h
    · rw [decodeFrom_append, hfails.decodeFrom_eq] at h
      cases h
      exact ⟨is, rest, rfl, hfails⟩
  · rintro ⟨is, rest, rfl, hfails⟩
    rw [decodeFrom_append, hfails.decodeFrom_eq]
    rfl

/-! ### Addresses -/

/-- The size of instructions with the given opcodes together. -/
def totalSize : List Opcode → Nat
  | [] => 0
  | op :: ops => op.size + totalSize ops

theorem totalSize_append (ops ops' : List Opcode) :
    totalSize (ops ++ ops') = totalSize ops + totalSize ops' := by
  induction ops with
  | nil => simp [totalSize]
  | cons op ops ih => simp [totalSize, ih, Nat.add_assoc]

/-- Each instruction stands at the end of those before it.  Its address depends on their opcodes
alone. -/
theorem address_locate {is : List Instruction} {address k : Nat} {d : Located}
    (h : (locate address is)[k]? = some d) :
    d.address = address + totalSize ((is.take k).map Instruction.opcode) := by
  induction is generalizing address k with
  | nil => cases h
  | cons i is ih =>
    cases k with
    | zero =>
      cases h
      rfl
    | succ k =>
      rw [ih h, List.take_succ_cons, List.map_cons, totalSize, Nat.add_assoc]
      rfl

@[simp] theorem map_instruction_locate (is : List Instruction) (address : Nat) :
    (locate address is).map Located.instruction = is := by
  induction is generalizing address with
  | nil => rfl
  | cons i is ih => rw [locate, List.map_cons, ih]

theorem flatMap_encode_locate (is : List Instruction) (address : Nat) :
    (locate address is).flatMap (fun d => encode d.instruction.opcode d.instruction.operands)
      = ofInstructions is := by
  induction is generalizing address with
  | nil => rfl
  | cons i is ih => rw [locate, List.flatMap_cons, ih, ← i.bytes_eq_encode, ofInstructions_cons]

/-- Opcodes with operands that they read are the parts of instructions. -/
theorem exists_instructions_of_admits {ps : List (Opcode × List Int)}
    (h : ∀ p ∈ ps, p.1.Admits p.2) :
    ∃ is : List Instruction, is.map (fun i => (i.opcode, i.operands)) = ps ∧
      ofInstructions is = ps.flatMap fun p => encode p.1 p.2 := by
  induction ps with
  | nil => exact ⟨[], rfl, rfl⟩
  | cons p ps ih =>
    obtain ⟨i, hop, hoperands, hbytes⟩ := (h p List.mem_cons_self).exists_instruction
    obtain ⟨is, hparts, hcode⟩ := ih fun q hq => h q (List.mem_cons_of_mem p hq)
    refine ⟨i :: is, ?_, ?_⟩
    · rw [List.map_cons, hop, hoperands, hparts]
    · rw [ofInstructions_cons, hbytes, hcode, List.flatMap_cons]

/-- **Decoder and encoder are inverse over the whole code format.**  Code that is decoded is the
encoding of what it is decoded as, at addresses that begin with 0 and go on by the size of each
instruction.  Opcodes with operands that they read are decoded from their encoding, each at the sum
of the sizes before it.  And code cannot be decoded exactly if, after a part of it that can, the
next byte is no opcode or fewer bytes are left than the instruction has. -/
theorem decode_inverse :
    (∀ code ds, decode code = .ok ds →
      ds.flatMap (fun d => encode d.instruction.opcode d.instruction.operands) = code ∧
      (∀ d, ds[0]? = some d → d.address = 0) ∧
      ∀ k d d', ds[k]? = some d → ds[k + 1]? = some d' →
        d'.address = d.address + d.instruction.opcode.size) ∧
    (∀ ps : List (Opcode × List Int), (∀ p ∈ ps, p.1.Admits p.2) → ∃ ds,
      decode (ps.flatMap fun p => encode p.1 p.2) = .ok ds ∧
      ds.map (fun d => (d.instruction.opcode, d.instruction.operands)) = ps ∧
      ∀ k d, ds[k]? = some d → d.address = totalSize ((ps.take k).map Prod.fst)) ∧
    ∀ code e, decode code = .error e ↔
      ∃ before rest ds, code = before ++ rest ∧ decode before = .ok ds ∧
        Fails before.length rest e := by
  refine ⟨fun code ds h => ?_, fun ps hps => ?_, fun code e => ?_⟩
  · obtain ⟨is, rfl, rfl⟩ := decodeFrom_eq_ok.mp h
    refine ⟨flatMap_encode_locate is 0, fun d hd => address_locate hd, fun k d d' hd hd' => ?_⟩
    -- the address of the next instruction is a sum with one more summand
    have hk : is[k]? = some d.instruction := by
      rw [← map_instruction_locate is 0, List.getElem?_map, hd]
      rfl
    obtain ⟨hlt, hget⟩ := List.getElem?_eq_some_iff.mp hk
    rw [address_locate hd', address_locate hd, List.take_succ_eq_append_getElem hlt, hget,
      List.map_append, totalSize_append, ← Nat.add_assoc]
    rfl
  · obtain ⟨is, rfl, hcode⟩ := exists_instructions_of_admits hps
    refine ⟨locate 0 is, ?_, ?_, fun k d hd => ?_⟩
    · rw [← hcode]
      exact decodeFrom_ofInstructions is 0
    · have hparts := congrArg (List.map fun i : Instruction => (i.opcode, i.operands))
        (map_instruction_locate is 0)
      rw [List.map_map] at hparts
      exact hparts
    · rw [address_locate hd, Nat.zero_add, ← List.map_take, List.map_map]
      rfl
  · rw [decode, decodeFrom_eq_error]
    constructor
    · rintro ⟨is, rest, rfl, hfails⟩
      rw [Nat.zero_add] at hfails
      exact ⟨ofInstructions is, rest, _, rfl, decodeFrom_ofInstructions is 0, hfails⟩
    · rintro ⟨before, rest, ds, rfl, hbefore, hfails⟩
      obtain ⟨is, rfl, -⟩ := decodeFrom_eq_ok.mp hbefore
      rw [← Nat.zero_add (ofInstructions is).length] at hfails
      exact ⟨is, rest, rfl, hfails⟩

/-- The opening of a frame of 255 words, a local beyond 127, the greatest address as it is stored
and a negative constant. -/
def frameParts : List (Opcode × List Int) :=
  [(.enter, [0, 255]), (.load, [200]), (.jmp, [-1]), (.const, [-5])]

/-- They are decoded from their encoding at the addresses 0, 3, 5 and 8, and without the last byte
the code cannot be decoded. -/
theorem decode_inverse_frame :
    (∀ p ∈ frameParts, p.1.Admits p.2) ∧
      (∃ ds, decode (frameParts.flatMap fun p => encode p.1 p.2) = .ok ds ∧
        ds.map (fun d => (d.instruction.opcode, d.instruction.operands)) = frameParts ∧
        ∀ d, ds[3]? = some d → d.address = 8) ∧
      decode [48, 0, 255, 1, 200, 39, 255, 255, 22, 255, 255, 255]
        = .error (.shortInstruction .const 8 4) := by
  have hadmits : ∀ p ∈ frameParts, p.1.Admits p.2 := by
    intro p hp
    simp only [frameParts, List.mem_cons, List.not_mem_nil, or_false] at hp
    rcases hp with rfl | rfl | rfl | rfl
    · exact ⟨⟨by decide, by decide⟩, ⟨by decide, by decide⟩, trivial⟩
    · exact ⟨⟨by decide, by decide⟩, trivial⟩
    · exact ⟨⟨by decide, by decide⟩, trivial⟩
    · exact ⟨⟨by decide, by decide⟩, trivial⟩
  obtain ⟨-, hencoded, hfailing⟩ := decode_inverse
  obtain ⟨ds, hdecode, hparts, haddress⟩ := hencoded frameParts hadmits
  obtain ⟨ds', hbefore, -, -⟩ := hencoded (frameParts.take 3)
    fun p hp => hadmits p (List.mem_of_mem_take hp)
  refine ⟨hadmits, ⟨ds, hdecode, hparts, fun d hd => haddress 3 d hd⟩, ?_⟩
  exact (hfailing _ _).mpr ⟨[48, 0, 255, 1, 200, 39, 255, 255], [22, 255, 255, 255], ds', rfl,
    hbefore, .short .const [255, 255, 255] rfl (by decide)⟩

end Code
end MJ
