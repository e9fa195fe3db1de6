import MJ.Machine.Step

/-!
# Printed texts

What the machine prints for a number is the number in decimal, and the bytes of a text without
NUL characters contain no zero byte.

## Main results

* `Utf8.encode_eq_flatMap` — a text is encoded character by character.
* `Utf8.zero_notMem_encode` — only NUL is encoded with a zero byte.
* `Text.decimal_eq_toString` — the decimal text of a number.
* `Machine.stringAt_eq` — the machine prints a text up to the zero byte after it.
-/

namespace MJ

namespace Utf8

/-- A text is encoded character by character. -/
theorem encode_eq_flatMap (s : String) : encode s = s.toList.flatMap String.utf8EncodeChar := by
  rw [encode, String.toUTF8, ← String.utf8Encode_toList, List.utf8Encode]
  simp

/-- Only NUL is encoded with a zero byte.  Therefore a zero byte after a text is enough to find its
end. -/
theorem zero_notMem_utf8EncodeChar {c : Char} (hc : c ≠ Char.ofNat 0) :
    (0 : UInt8) ∉ String.utf8EncodeChar c := by
  have hpos : 0 < c.val.toNat := by
    refine Nat.pos_of_ne_zero fun hzero => hc (Char.ext ?_)
    exact UInt32.toNat_inj.mp hzero
  have hbyte : ∀ k : Nat, k % 256 ≠ 0 → (0 : UInt8) ≠ UInt8.ofNat k := by
    intro k hk h
    apply hk
    rw [← UInt8.toNat_ofNat', ← h]
    rfl
  rw [String.utf8EncodeChar]
  -- the bytes of longer characters have their highest bit set
  split
  · simp only [List.mem_cons, List.not_mem_nil, or_false]
    exact hbyte _ (by omega)
  · split
    · simp only [List.mem_cons, List.not_mem_nil, or_false, not_or]
      exact ⟨hbyte _ (by omega), hbyte _ (by omega)⟩
    · split
      · simp only [List.mem_cons, List.not_mem_nil, or_false, not_or]
        exact ⟨hbyte _ (by omega), hbyte _ (by omega), hbyte _ (by omega)⟩
      · simp only [List.mem_cons, List.not_mem_nil, or_false, not_or]
        exact ⟨hbyte _ (by omega), hbyte _ (by omega), hbyte _ (by omega), hbyte _ (by omega)⟩

theorem zero_notMem_encode {s : String} (h : Char.ofNat 0 ∉ s.toList) : 0 ∉ encode s := by
  rw [encode_eq_flatMap, List.mem_flatMap]
  rintro ⟨c, hc, hzero⟩
  exact zero_notMem_utf8EncodeChar (fun hnul => h (hnul ▸ hc)) hzero

end Utf8

namespace Text

/-- The decimal text of a number is the usual one, with a minus sign if the number is negative. -/
theorem decimal_eq_toString (n : Int) : decimal n = (toString n).toList := by
  cases n with
  | ofNat m =>
    have hnonneg : ¬ Int.ofNat m < 0 := Int.not_lt.mpr (Int.natCast_nonneg m)
    rw [decimal, if_neg hnonneg]
    show _ = (Nat.repr m).toList
    rw [Nat.repr, String.toList_ofList]
    rfl
  | negSucc m =>
    rw [decimal, if_pos (Int.negSucc_lt_zero m)]
    show _ = ("-" ++ Nat.repr (m + 1)).toList
    rw [String.toList_append, Nat.repr, String.toList_ofList, String.toList_ofList]
    rfl

/-- A field of no width is the text in it. -/
theorem padLeft_zero (cs : List Char) : padLeft 0 cs = cs := by
  rw [padLeft, Nat.zero_sub]
  rfl

end Text

namespace Machine

/-- What is printed for a number in a field of no width. -/
theorem writeField_decimal (v : Word) (s : State) :
    writeField 0 (Text.decimal v.toInt) s
      = .ok () { s with output := s.output ++ Utf8.encode (toString v.toInt) } := by
  rw [writeField, if_neg (by decide), show (0 : Word).toInt.toNat = 0 from rfl, Text.padLeft_zero,
    Text.decimal_eq_toString, ← Utf8.encode_eq_flatMap]
  rfl

/-- What is printed are the bytes up to the first zero byte.  By induction on them, with the start
moving along the data. -/
theorem stringAt_eq {data : Array UInt8} {start n : Nat} {bs : List UInt8} (hbs : 0 ∉ bs)
    (hdata : ∀ k, k ≤ bs.length → data[start + k]? = (bs ++ [0])[k]?) (hn : bs.length ≤ n) :
    stringAt data start n = bs := by
  induction bs generalizing start n with
  | nil =>
    have hend : data.getD start 0 = 0 := by
      rw [Array.getD_eq_getD_getElem?, ← Nat.add_zero start, hdata 0 (Nat.zero_le _)]
      rfl
    cases n with
    | zero => rfl
    | succ n => rw [stringAt, hend, if_pos rfl]
  | cons b bs ih =>
    obtain ⟨hb, hrest⟩ := not_or.mp fun h => hbs (List.mem_cons.mpr h)
    have hfirst : data.getD start 0 = b := by
      rw [Array.getD_eq_getD_getElem?, ← Nat.add_zero start, hdata 0 (Nat.zero_le _)]
      rfl
    have hnext : ∀ k, k ≤ bs.length → data[start + 1 + k]? = (bs ++ [0])[k]? := by
      intro k hk
      rw [Nat.add_assoc, Nat.add_comm 1 k, hdata (k + 1) (Nat.succ_le_succ hk)]
      rfl
    -- there is room for the first byte, and it is no zero byte
    cases n with
    | zero => cases hn
    | succ n =>
      rw [stringAt, hfirst, if_neg fun h => hb h.symm, ih hrest hnext (Nat.le_of_succ_le_succ hn)]

/-- The string at a static word is printed. -/
theorem printString_eq {n : Int16} {address : Nat} {bs : List UInt8} {s : State}
    (hn : Instruction.address n = address) (hsize : ¬ s.statics.size < address * wordSize)
    (hbs : stringAt s.statics (address * wordSize) (s.statics.size - address * wordSize) = bs) :
    printString n s = .ok () { s with output := s.output ++ bs } := by
  subst hn hbs
  exact if_neg hsize

end Machine
end MJ
