import Mathlib.Logic.Basic
import MJ.LabelMap

/-!
# Files of label maps

A label map is written as numbers of variable length, texts with their lengths before them, and a
list with its length before it.  Each part tells by itself where it ends.  What is written is
therefore read back whatever follows it, and without its last bytes it is not read at all.

A file counts labels and the bytes of a name in sixty-four bits, as memory does.  The reader refuses
a greater number.

## Main definitions

* `Reads` — what a reader makes of a form, and of the form without its last bytes.
* `Varint.capacity` — the numbers that a reader takes.
* `LabelMap.IsCounted` — the maps whose labels and names can be counted.

## Main results

* `Reads.andThen`, `Reads.stop` — readers one after the other.
* `Varint.reads_encode`, `LabelMap.reads_label`, `LabelMap.reads_labels` — numbers, labels and lists
  of labels.
* `LabelMap.file_selfDelimiting` — **a map is read back from its file, and from no part of it.**
-/

namespace MJ

/-! ### Readers and forms -/

/-- What a reader makes of a form that is followed by other bytes.  If the form has lost its last
bytes, the reader fails. -/
structure Reads {α : Type} (f : List UInt8 → Except ReadError α) (form : List UInt8)
    (outcome : List UInt8 → Except ReadError α) : Prop where
  whole : ∀ rest, f (form ++ rest) = outcome rest
  cut : ∀ front b tail, form = front ++ b :: tail → ∃ cause, f front = .error cause

namespace Reads

variable {α β : Type} {f : List UInt8 → Except ReadError (α × List UInt8)}
  {form form' : List UInt8}

/-- What is cut off a form of two parts leaves less than the first part, or the first part and less
than the second. -/
theorem cut_append {front tail : List UInt8} {b : UInt8} (h : form ++ form' = front ++ b :: tail) :
    (∃ tail', form = front ++ b :: tail') ∨
      ∃ front', front = form ++ front' ∧ form' = front' ++ b :: tail := by
  rcases List.append_eq_append_iff.mp h with ⟨front', hfront, hform⟩ | ⟨more, hform, hmore⟩
  · exact Or.inr ⟨front', hfront, hform⟩
  · cases more with
    | nil => exact Or.inr ⟨[], by rw [hform, List.append_nil, List.append_nil], hmore.symm⟩
    | cons b' tail' =>
      obtain ⟨rfl, -⟩ := List.cons.inj hmore
      exact Or.inl ⟨tail', hform⟩

/-- A reader goes on behind a form that it has read.  If bytes are missing, they are missing from
the one part or from the other. -/
theorem andThen {x : α} {g : α × List UInt8 → Except ReadError β}
    {outcome : List UInt8 → Except ReadError β} (hf : Reads f form fun rest => .ok (x, rest))
    (hg : Reads (fun bs => g (x, bs)) form' outcome) :
    Reads (fun bs => f bs >>= g) (form ++ form') outcome where
  whole rest := by
    rw [List.append_assoc, hf.whole]
    exact hg.whole rest
  cut front b tail h := by
    rcases cut_append h with ⟨tail', hcut⟩ | ⟨front', rfl, hcut⟩
    · obtain ⟨cause, hfails⟩ := hf.cut front b tail' hcut
      exact ⟨cause, by rw [hfails]; rfl⟩
    · rw [hf.whole]
      exact hg.cut front' b tail hcut

/-- A reader that fails at a form does not come to what is behind it. -/
theorem stop {cause : ReadError} (g : α × List UInt8 → Except ReadError β) (form' : List UInt8)
    (hf : Reads f form fun _ => .error cause) :
    Reads (fun bs => f bs >>= g) (form ++ form') fun _ => .error cause where
  whole rest := by
    rw [List.append_assoc, hf.whole]
    rfl
  cut front b tail h := by
    rcases cut_append h with ⟨tail', hcut⟩ | ⟨front', rfl, -⟩
    · obtain ⟨cause, hfails⟩ := hf.cut front b tail' hcut
      exact ⟨cause, by rw [hfails]; rfl⟩
    · exact ⟨cause, by rw [hf.whole]; rfl⟩

/-- A reader that takes a form under a condition, as that of a number takes only those that it can
hold. -/
theorem checked {x : α} {P : Prop} [Decidable P] {cause : ReadError}
    {g : α × List UInt8 → Except ReadError β} {outcome : List UInt8 → Except ReadError β}
    (hf : Reads f form fun rest => if P then .ok (x, rest) else .error cause)
    (hg : Reads (fun bs => g (x, bs)) form' outcome) :
    Reads (fun bs => f bs >>= g) (form ++ form') fun rest =>
      if P then outcome rest else .error cause := by
  by_cases hP : P
  · simp only [if_pos hP] at hf ⊢
    exact hf.andThen hg
  · simp only [if_neg hP] at hf ⊢
    exact hf.stop g form'

/-- A reader whose result is put to use. -/
theorem result {h : List UInt8 → Except ReadError α} {x : α} {P : Prop} [Decidable P]
    {cause : ReadError} (hh : Reads h form fun _ => if P then .ok x else .error cause) (g : α → β) :
    Reads (fun bs => h bs >>= fun x => .ok (g x)) form fun _ =>
      if P then .ok (g x) else .error cause where
  whole rest := by
    rw [hh.whole]
    split
    · rfl
    · rfl
  cut front b tail hcut := by
    obtain ⟨cause, hfails⟩ := hh.cut front b tail hcut
    exact ⟨cause, by rw [hfails]; rfl⟩

/-- A form that is empty has no last bytes. -/
theorem nil (f : List UInt8 → Except ReadError β) : Reads f [] f where
  whole _ := rfl
  cut front b tail h := by
    cases front <;> cases h

end Reads

/-! ### Numbers -/

namespace Varint

/-- How many numbers a reader takes: seven bits for each byte but the last. -/
def capacity (lastMax : Nat) : (room : Nat) → Nat
  | 0 => 0
  | 1 => lastMax + 1
  | room + 2 => 128 * capacity lastMax (room + 1)

theorem capacity_pos (lastMax room : Nat) : 0 < capacity lastMax (room + 1) := by
  induction room with
  | zero => exact Nat.succ_pos lastMax
  | succ room ih =>
    rw [capacity]
    omega

/-- A number with more than seven bits is within the capacity if its upper bits are within that of a
byte less. -/
theorem div_lt_capacity {lastMax n : Nat} (hlast : lastMax < 128) (hn : ¬ n < 128) (room : Nat) :
    n / 128 < capacity lastMax room ↔ n < capacity lastMax (room + 1) := by
  cases room with
  | zero =>
    simp only [capacity]
    omega
  | succ room =>
    rw [capacity]
    omega

theorem toNat_low {n : Nat} (h : n < 128) : (UInt8.ofNat n).toNat = n := by
  rw [UInt8.toNat_ofNat']
  omega

theorem toNat_more (n : Nat) : (UInt8.ofNat (n % 128 + 128)).toNat = n % 128 + 128 := by
  rw [UInt8.toNat_ofNat']
  omega

/-- The last byte of a number has its upper bit clear.  It is refused only as the last byte that the
reader takes, if it is too large there. -/
theorem read_low {n : Nat} (hn : n < 128) (lastMax room : Nat) (rest : List UInt8) :
    read lastMax (room + 1) (UInt8.ofNat n :: rest)
      = if n < capacity lastMax (room + 1) then .ok (n, rest) else .error .longNumber := by
  have hbyte : UInt8.ofNat n < 128 := by
    rw [UInt8.lt_iff_toNat_lt, toNat_low hn]
    exact hn
  -- only the last byte that the reader takes may be too large
  have hlarge : room = 0 ∧ lastMax < n ↔ ¬ n < capacity lastMax (room + 1) := by
    cases room with
    | zero =>
      simp only [capacity, true_and]
      omega
    | succ room =>
      have hpos := capacity_pos lastMax room
      rw [capacity]
      omega
  rw [read, if_pos hbyte, toNat_low hn]
  by_cases hfits : n < capacity lastMax (room + 1)
  · rw [if_pos hfits, if_neg fun h => hlarge.mp h hfits]
  · rw [if_neg hfits, if_pos (hlarge.mpr hfits)]

/-- A byte before the last one of a number has its upper bit set, and the rest is read with one byte
less. -/
theorem read_more (lastMax n room : Nat) (rest : List UInt8) :
    read lastMax (room + 1) (UInt8.ofNat (n % 128 + 128) :: rest) = (do
      let (high, rest) ← read lastMax room rest
      .ok (n % 128 + 128 * high, rest)) := by
  have hbyte : ¬ UInt8.ofNat (n % 128 + 128) < 128 := by
    rw [UInt8.lt_iff_toNat_lt, toNat_more]
    exact Nat.not_lt.mpr (Nat.le_add_left 128 _)
  rw [read, if_neg hbyte, toNat_more, Nat.add_sub_cancel]

/-- A number that is written is read back if it is within the capacity of the reader.  By induction
on how many bytes the reader takes, and so on the bytes of the number. -/
theorem reads_encode {lastMax : Nat} (hlast : lastMax < 128) (room n : Nat) :
    Reads (read lastMax room) (encode n)
      fun rest => if n < capacity lastMax room then .ok (n, rest) else .error .longNumber := by
  induction room generalizing n with
  | zero => exact ⟨fun rest => rfl, fun _ _ _ _ => ⟨_, rfl⟩⟩
  | succ room ih =>
    by_cases hn : n < 128
    · rw [encode, if_pos hn]
      refine ⟨read_low hn lastMax room, fun front b tail hcut => ?_⟩
      -- nothing is left of a single byte
      cases front with
      | nil => exact ⟨_, rfl⟩
      | cons => simp at hcut
    · rw [encode, if_neg hn]
      refine ⟨fun rest => ?_, fun front b tail hcut => ?_⟩
      · rw [List.cons_append, read_more, (ih (n / 128)).whole]
        by_cases hfits : n / 128 < capacity lastMax room
        · rw [if_pos hfits, if_pos ((div_lt_capacity hlast hn room).mp hfits)]
          exact congrArg (fun m => Except.ok (m, rest)) (Nat.mod_add_div n 128)
        · rw [if_neg hfits, if_neg fun h => hfits ((div_lt_capacity hlast hn room).mpr h)]
          rfl
      · cases front with
        | nil => exact ⟨_, rfl⟩
        | cons b' front =>
          obtain ⟨rfl, htail⟩ := List.cons.inj hcut
          obtain ⟨cause, hfails⟩ := (ih (n / 128)).cut front b tail htail
          exact ⟨cause, by rw [read_more, hfails]; rfl⟩

/-- Sixteen bits are read back. -/
theorem reads_encode16 (n : UInt16) :
    Reads read16 (encode n.toNat) fun rest => .ok (n.toNat, rest) := by
  have h := reads_encode (show 3 < 128 by decide) 3 n.toNat
  simp only [if_pos (show n.toNat < capacity 3 3 from n.toNat_lt)] at h
  exact h

/-- A number is read back if it has sixty-four bits. -/
theorem reads_encode64 (n : Nat) : Reads read64 (encode n)
    fun rest => if n < UInt64.size then .ok (n, rest) else .error .longNumber :=
  reads_encode (by decide) 10 n

end Varint

/-! ### Texts -/

/-- A text is read back from its bytes. -/
theorem Utf8.decode?_encode (s : String) : decode? (encode s) = some s := by
  have hbytes : (⟨(encode s).toArray⟩ : ByteArray) = s.toUTF8 := rfl
  rw [decode?, hbytes, String.fromUTF8?, String.toUTF8_eq_toByteArray, dif_pos s.isValidUTF8]
  rfl

/-! ### Labels -/

namespace LabelMap

/-- Reads what follows the length of a name: the name, which has to be text, and the address. -/
def readNamed (length : Nat) (bs : List UInt8) :
    Except ReadError ((String × UInt16) × List UInt8) :=
  if bs.length < length then .error .endOfInput
  else
    match Utf8.decode? (bs.take length) with
    | none => .error .badText
    | some name => do
      let (address, bs) ← Varint.read16 (bs.drop length)
      .ok ((name, UInt16.ofNat address), bs)

/-- The bytes of a text are taken as its name, and what follows them is left for the address. -/
theorem readNamed_encode (name : String) (bs : List UInt8) :
    readNamed (Utf8.encode name).length (Utf8.encode name ++ bs) = (do
      let (address, bs) ← Varint.read16 bs
      .ok ((name, UInt16.ofNat address), bs)) := by
  have hlong : ¬ (Utf8.encode name ++ bs).length < (Utf8.encode name).length := by
    rw [List.length_append]
    omega
  rw [readNamed, if_neg hlong, List.take_left, Utf8.decode?_encode, List.drop_left]

theorem reads_named (label : String × UInt16) :
    Reads (readNamed (Utf8.encode label.1).length)
      (Utf8.encode label.1 ++ Varint.encode label.2.toNat) fun rest => .ok (label, rest) where
  whole rest := by
    rw [List.append_assoc, readNamed_encode, (Varint.reads_encode16 label.2).whole]
    exact congrArg (fun address => Except.ok ((label.1, address), rest)) UInt16.ofNat_toNat
  cut front b tail h := by
    rcases Reads.cut_append h with ⟨tail', hcut⟩ | ⟨front', rfl, hcut⟩
    · -- a name is missed before it is looked at
      have hshort : front.length < (Utf8.encode label.1).length := by
        rw [hcut, List.length_append, List.length_cons]
        omega
      exact ⟨_, if_pos hshort⟩
    · obtain ⟨cause, hfails⟩ := (Varint.reads_encode16 label.2).cut front' b tail hcut
      exact ⟨cause, by rw [readNamed_encode, hfails]; rfl⟩

/-- A label is read back if the length of its name has sixty-four bits. -/
theorem reads_label (label : String × UInt16) : Reads readLabel (labelBytes label)
    fun rest => if (Utf8.encode label.1).length < UInt64.size then .ok (label, rest)
      else .error .longNumber := by
  rw [labelBytes, List.append_assoc]
  exact (Varint.reads_encode64 (Utf8.encode label.1).length).checked (reads_named label)

/-- Labels are read back if this goes for each of them.  By induction on the labels, of which the
reader knows the number. -/
theorem reads_labels (labels : List (String × UInt16)) :
    Reads (readLabels labels.length) (labels.flatMap labelBytes) fun _ =>
      if ∀ label ∈ labels, (Utf8.encode label.1).length < UInt64.size then .ok labels
      else .error .longNumber := by
  induction labels with
  | nil =>
    simp only [List.not_mem_nil, false_implies, implies_true, if_true]
    exact .nil _
  | cons label labels ih =>
    rw [List.flatMap_cons, List.length_cons]
    simp only [List.forall_mem_cons, ite_and]
    exact (reads_label label).checked (ih.result fun labels => label :: labels)

/-! ### Maps -/

/-- The number of labels and the length of each name have sixty-four bits.  No map in the memory of
a machine has more. -/
def IsCounted (m : LabelMap) : Prop :=
  m.labels.length < UInt64.size ∧
    ∀ label ∈ m.labels, (Utf8.encode label.1).length < UInt64.size

instance (m : LabelMap) : Decidable m.IsCounted := instDecidableAnd

theorem reads_bytes (m : LabelMap) : Reads read m.bytes fun _ =>
    if m.IsCounted then .ok m else .error .longNumber := by
  have hlabels := (reads_labels m.labels).result fun labels => (⟨m.entry, labels⟩ : LabelMap)
  rw [bytes, List.append_assoc]
  refine (Varint.reads_encode16 m.entry).andThen ?_
  show Reads (fun bs => Varint.read64 bs >>= fun r => readLabels r.1 r.2 >>= fun labels =>
    .ok (⟨UInt16.ofNat m.entry.toNat, labels⟩ : LabelMap)) _ _
  rw [UInt16.ofNat_toNat]
  simp only [IsCounted, ite_and]
  exact (Varint.reads_encode64 m.labels.length).checked hlabels

/-- **A map is read back from its file, and from no part of it.**  Bytes that follow the map are
ignored.  Only a map with a number that does not have sixty-four bits is refused; there is no room
for one in memory.  And a file that ends before the map does is refused, wherever it ends. -/
theorem file_selfDelimiting (m : LabelMap) :
    (∀ rest, parse (m.bytes ++ rest)
      = if m.IsCounted then .ok m else .error (.labelMap .longNumber)) ∧
    ∀ front, front <+: m.bytes → front ≠ m.bytes →
      ∃ cause, parse front = .error (.labelMap cause) := by
  have hreads := reads_bytes m
  refine ⟨fun rest => ?_, fun front hfront hne => ?_⟩
  · rw [parse, hreads.whole]
    by_cases hcounted : m.IsCounted
    · rw [if_pos hcounted, if_pos hcounted]
    · rw [if_neg hcounted, if_neg hcounted]
  · obtain ⟨tail, htail⟩ := hfront
    cases tail with
    | nil => exact absurd (by rw [← htail, List.append_nil]) hne
    | cons b tail =>
      obtain ⟨cause, hfails⟩ := hreads.cut front b tail htail.symm
      exact ⟨cause, by rw [parse, hfails]⟩

/-- A map with an accented name and the greatest address. -/
def accented : LabelMap := ⟨300, [("é", 0), ("$main", 65535)]⟩

theorem bytes_accented : accented.bytes
    = [172, 2, 2, 2, 195, 169, 0, 5, 36, 109, 97, 105, 110, 255, 255, 3] := by
  simp only [accented, bytes, labelBytes, List.flatMap_cons, List.flatMap_nil]
  have hname : Utf8.encode "é" = [195, 169] := by decide
  have hmain : Utf8.encode "$main" = [36, 109, 97, 105, 110] := by decide
  simp [hname, hmain, Varint.encode]

/-- It is read back with a byte behind it.  Cut inside the accented letter or before its last byte
it is refused. -/
theorem file_selfDelimiting_accented :
    parse [172, 2, 2, 2, 195, 169, 0, 5, 36, 109, 97, 105, 110, 255, 255, 3, 7] = .ok accented ∧
    (∃ cause, parse [172, 2, 2, 2, 195] = .error (.labelMap cause)) ∧
    ∃ cause, parse [172, 2, 2, 2, 195, 169, 0, 5, 36, 109, 97, 105, 110, 255, 255]
      = .error (.labelMap cause) := by
  obtain ⟨hwhole, hcut⟩ := file_selfDelimiting accented
  rw [bytes_accented] at hwhole hcut
  refine ⟨(hwhole [7]).trans (if_pos ?_),
    hcut _ ⟨[169, 0, 5, 36, 109, 97, 105, 110, 255, 255, 3], rfl⟩ (by decide),
    hcut _ ⟨[3], rfl⟩ (by decide)⟩
  decide

end LabelMap
end MJ
