import Mathlib.Data.Int.ModEq
import MJ.Proofs.Decoding
import MJ.Proofs.ObjectFile

/-!
# The codec of operands

A word is cut down to the bytes of an operand and read back as a signed number.  Both directions are
given by arithmetic modulo the number of byte patterns: of the numbers with the same low bytes there
is just one in the signed range of the width, and that is the number that is read back.  Whether an
operand holds a word is decided by a range, which is the union of what its bytes are read as with
and without a sign.

## Main results

* `Width.toInt_truncate_eq_iff` — the word that survives is the only one of its residue in range.
* `Width.decode?_encode_append`, `Width.encode_signed` — decoding undoes encoding as far as that is
  possible, and encoding undoes decoding.
* `Width.holds_iff` — the range that is checked is that of the numbers that are read back.
* `Width.codec_laws` — **the laws of the operand codec.**
-/

namespace MJ
namespace Width

variable (w : Width)

/-! ### The signed range -/

/-- Byte patterns are counted in bits.  The number of them is written out in the code and given as a
power of two in the laws. -/
theorem modulus_eq_pow : w.modulus = 2 ^ (8 * w.size) := by
  cases w <;> rfl

theorem modulus_pos : 0 < w.modulus := by
  cases w <;> decide

/-- Half of the byte patterns stand for negative numbers. -/
theorem modulus_eq_max : (w.modulus : Int) = 2 * (w.max + 1) := by
  cases w <;> rfl

theorem min_eq_max : w.min = -(w.max + 1) := by
  cases w <;> rfl

/-- The signed range lies among the words. -/
theorem range_words : -2147483648 ≤ w.min ∧ w.max < 2147483648 := by
  cases w <;> decide

/-- The number of a residue that lies in the signed range.  The range has one number of each
residue, so that these three conditions determine it. -/
theorem bmod_eq_iff (x n : Int) :
    x.bmod w.modulus = n ↔ w.min ≤ n ∧ n ≤ w.max ∧ n ≡ x [ZMOD w.modulus] := by
  have hmodulus := w.modulus_eq_max
  have hmin := w.min_eq_max
  constructor
  · rintro rfl
    have hlow : -((w.modulus : Int) / 2) ≤ x.bmod w.modulus := Int.le_bmod w.modulus_pos
    have hhigh : x.bmod w.modulus < ((w.modulus : Int) + 1) / 2 := Int.bmod_lt w.modulus_pos
    exact ⟨by omega, by omega, Int.bmod_emod⟩
  · rintro ⟨hlow, hhigh, hmod⟩
    calc x.bmod w.modulus
        = (n % w.modulus).bmod w.modulus := by rw [hmod, Int.emod_bmod]
      _ = n.bmod w.modulus := Int.emod_bmod n w.modulus
      _ = n := Int.bmod_eq_of_le (by omega) (by omega)

/-- A number of the signed range is a word of its own, so that making a word of it loses nothing. -/
theorem toInt_ofInt_bmod (x : Int) :
    (Int32.ofInt (x.bmod w.modulus)).toInt = x.bmod w.modulus := by
  obtain ⟨hlow, hhigh, -⟩ := (w.bmod_eq_iff x _).mp rfl
  obtain ⟨hmin, hmax⟩ := w.range_words
  exact Int32.toInt_ofInt_of_le (Int.le_trans hmin hlow) (Int.lt_of_le_of_lt hhigh hmax)

@[simp] theorem toInt_signed (n : Nat) : (w.signed n).toInt = (n : Int).bmod w.modulus :=
  w.toInt_ofInt_bmod n

@[simp] theorem toInt_truncate (v : Word) : (w.truncate v).toInt = v.toInt.bmod w.modulus :=
  w.toInt_ofInt_bmod v.toInt

/-- The word that survives is the only number of its residue in the signed range. -/
theorem toInt_truncate_eq_iff (v : Word) (n : Int) : n = (w.truncate v).toInt ↔
    w.min ≤ n ∧ n ≤ w.max ∧ n ≡ v.toInt [ZMOD 2 ^ (8 * w.size)] := by
  have hpow : ((2 ^ (8 * w.size) : Nat) : Int) = 2 ^ (8 * w.size) := Nat.cast_pow 2 _
  rw [toInt_truncate, eq_comm, bmod_eq_iff, modulus_eq_pow, hpow]

/-! ### Encoding and decoding -/

/-- The unsigned number in the bytes of a word is its residue: a negative word is stored as if the
number of byte patterns had been added to it. -/
theorem value_encode_word (v : Word) :
    (BigEndian.value (w.encode v) : Int) = v.toInt % w.modulus := by
  have hpos : (w.modulus : Int) ≠ 0 := by
    have := w.modulus_pos
    omega
  rw [← Int32.ofInt_toInt v, value_encode, Int32.ofInt_toInt,
    Int.toNat_of_nonneg (Int.emod_nonneg _ hpos)]

/-- What is read from the front of bytes that are long enough. -/
theorem decode?_of_le {bs : List UInt8} (h : w.size ≤ bs.length) :
    w.decode? bs = some (w.signed (BigEndian.value (bs.take w.size))) :=
  if_neg (Nat.not_lt.mpr h)

/-- The word that survives is read back, whatever follows.  Bytes keep the residue, and reading
picks the number of this residue in the signed range, just as cutting down does. -/
theorem decode?_encode_append (v : Word) (rest : List UInt8) :
    w.decode? (w.encode v ++ rest) = some (w.truncate v) := by
  have hlength : w.size ≤ (w.encode v ++ rest).length := by simp
  rw [decode?_of_le w hlength, List.take_left' (w.length_encode v), Option.some_inj,
    ← Int32.toInt_inj, toInt_signed, toInt_truncate, value_encode_word, Int.emod_bmod]

/-- A word that was read from bytes is written as these bytes, since it has the residue that they
stand for. -/
theorem encode_signed {bs : List UInt8} (h : bs.length = w.size) :
    w.encode (w.signed (BigEndian.value bs)) = bs := by
  have hlt : BigEndian.value bs < w.modulus := BigEndian.value_lt h
  have hvalue : ((BigEndian.value bs : Int).bmod w.modulus % w.modulus).toNat
      = BigEndian.value bs := by
    rw [Int.bmod_emod, ← Int.natCast_emod, Int.toNat_natCast, Nat.mod_eq_of_lt hlt]
  rw [signed, encode_ofInt, hvalue, BigEndian.bytes_value h]

/-! ### Words that an operand holds -/

/-- A word is read back unchanged with a sign if it lies in the signed range. -/
theorem truncate_eq_self_iff (v : Word) :
    w.truncate v = v ↔ w.min ≤ v.toInt ∧ v.toInt ≤ w.max := by
  rw [← Int32.toInt_inj, toInt_truncate, bmod_eq_iff]
  constructor
  · rintro ⟨hlow, hhigh, -⟩
    exact ⟨hlow, hhigh⟩
  · rintro ⟨hlow, hhigh⟩
    exact ⟨hlow, hhigh, rfl⟩

/-- A word is read back unchanged without a sign if it is one of the byte patterns.  Addresses and
sizes are read so. -/
theorem value_encode_eq_self_iff (v : Word) :
    (BigEndian.value (w.encode v) : Int) = v.toInt ↔ 0 ≤ v.toInt ∧ v.toInt < w.modulus := by
  have hpos : (0 : Int) < w.modulus := Int.ofNat_lt.mpr w.modulus_pos
  rw [value_encode_word]
  constructor
  · intro h
    rw [← h]
    exact ⟨Int.emod_nonneg _ (Int.ne_of_gt hpos), Int.emod_lt_of_pos _ hpos⟩
  · rintro ⟨hlow, hhigh⟩
    exact Int.emod_eq_of_lt hlow hhigh

/-- An operand holds the words that are read back unchanged, with a sign or without.  The range that
is checked is one interval, because the two ranges overlap from 0 to the largest signed number. -/
theorem holds_iff (v : Word) : w.holds v = true ↔
    w.decode? (w.encode v) = some v ∨ (BigEndian.value (w.encode v) : Int) = v.toInt := by
  have hdecode : w.decode? (w.encode v) = some (w.truncate v) := by
    rw [← List.append_nil (w.encode v)]
    exact w.decode?_encode_append v []
  -- the upper end of the range that is checked is that of the unsigned numbers
  have hmodulus := w.modulus_eq_max
  have hmin := w.min_eq_max
  have hmax : 0 ≤ w.max := by cases w <;> decide
  rw [hdecode, Option.some_inj, truncate_eq_self_iff, value_encode_eq_self_iff, holds,
    Bool.and_eq_true, decide_eq_true_eq, decide_eq_true_eq]
  omega

/-- **The laws of the operand codec.**  A word that was written is read back cut down, whatever
follows it; bytes that were read are written back as they were; the word that is left when one is
cut down is the only number in the signed range that agrees with it modulo the number of byte
patterns; and an operand holds exactly the words that its bytes give back, read with a sign or
without. -/
theorem codec_laws (v : Word) :
    (∀ rest, w.decode? (w.encode v ++ rest) = some (w.truncate v)) ∧
    (∀ bs : List UInt8, w.size ≤ bs.length →
      (w.decode? bs).map w.encode = some (bs.take w.size)) ∧
    (∀ n : Int, n = (w.truncate v).toInt ↔
      w.min ≤ n ∧ n ≤ w.max ∧ n ≡ v.toInt [ZMOD 2 ^ (8 * w.size)]) ∧
    (w.holds v = true ↔
      w.decode? (w.encode v) = some v ∨ (BigEndian.value (w.encode v) : Int) = v.toInt) := by
  refine ⟨w.decode?_encode_append v, ?_, w.toInt_truncate_eq_iff v, w.holds_iff v⟩
  intro bs hbs
  have htaken : (bs.take w.size).length = w.size := List.length_take_of_le hbs
  rw [decode?_of_le w hbs, Option.map_some, encode_signed w htaken]

/-- The two bytes of 40000 are read as -25536, so an operand of two bytes holds it only without a
sign; three bytes are enough to be read from, and the third is not looked at. -/
theorem codec_laws_high_half :
    s16.encode 40000 = [156, 64] ∧ s16.decode? ([156, 64] ++ [7]) = some (-25536) ∧
      s16.size ≤ [156, 64, 7].length ∧
      (s16.decode? [156, 64, 7]).map s16.encode = some [156, 64] ∧
      (-25536 : Int) ≡ 40000 [ZMOD 2 ^ 16] ∧ s16.holds 40000 = true := by
  obtain ⟨hread, hwrite, hresidue, hholds⟩ := codec_laws s16 40000
  have hbytes : s16.encode 40000 = [156, 64] := by decide
  have htruncate : s16.truncate 40000 = -25536 := by decide
  refine ⟨hbytes, ?_, by decide, hwrite [156, 64, 7] (by decide), ?_, hholds.mpr (Or.inr ?_)⟩
  · rw [← hbytes, ← htruncate]
    exact hread [7]
  · exact ((hresidue (-25536)).mp (by decide)).2.2
  · decide

end Width
end MJ
