import MJ.Assembler.Draft
import MJ.Proofs.Encoding

/-!
# Drafts as lists of slots

What the ways to change a draft do to its slots.  Code is appended at the end, and filling changes
holes to known bytes and nothing else.

## Main definitions

* `Draft.holesIn`, `Draft.holes` — the addresses of the bytes that are not known yet.
* `Draft.Refuses` — why a byte cannot be filled in.

## Main results

* `Draft.fillBytes_split` — filling succeeds on a run of holes.
* `Draft.fillBytes_spec` — filling changes holes to the bytes and leaves all else alone.
* `Draft.fill_eq_error_iff` — a word can be filled in exactly where there are holes.
* `Draft.slots_of_bytesFrom`, `Draft.bytes_eq_error_iff` — finished code is a draft without holes.
-/

namespace MJ
namespace Draft

/-! ### Growth at the end -/

theorem toList_append (d : Draft) (bs : List UInt8) :
    (d.append bs).slots.toList = d.slots.toList ++ bs.map Slot.known := by
  induction bs generalizing d with
  | nil => rw [append, List.map_nil, List.append_nil]
  | cons b bs ih =>
    rw [append, ih, Array.toList_push, List.map_cons, List.append_assoc, List.singleton_append]

theorem toList_emitHoles (d : Draft) (n : Nat) :
    (d.emitHoles n).slots.toList = d.slots.toList ++ List.replicate n Slot.hole := by
  induction n generalizing d with
  | zero => rw [emitHoles, List.replicate_zero, List.append_nil]
  | succ n ih =>
    rw [emitHoles, ih, Array.toList_push, List.append_assoc, List.replicate_succ,
      List.singleton_append]

/-- Two drafts with the same slots are the same.  Arrays are compared as lists, for which there are
more lemmas. -/
theorem ext_toList {d e : Draft} (h : d.slots.toList = e.slots.toList) : d = e := by
  cases d
  cases e
  exact congrArg Draft.mk (Array.toList_inj.mp h)

theorem size_eq_length (d : Draft) : d.size = d.slots.toList.length := by
  rw [size, Array.length_toList]

@[simp] theorem size_append (d : Draft) (bs : List UInt8) :
    (d.append bs).size = d.size + bs.length := by
  rw [size_eq_length, toList_append, List.length_append, List.length_map, ← size_eq_length]

@[simp] theorem size_emitHoles (d : Draft) (n : Nat) : (d.emitHoles n).size = d.size + n := by
  rw [size_eq_length, toList_emitHoles, List.length_append, List.length_replicate,
    ← size_eq_length]

@[simp] theorem append_nil (d : Draft) : d.append [] = d := rfl

@[simp] theorem emitHoles_zero (d : Draft) : d.emitHoles 0 = d := rfl

@[simp] theorem append_append (d : Draft) (bs cs : List UInt8) :
    (d.append bs).append cs = d.append (bs ++ cs) := by
  apply ext_toList
  rw [toList_append, toList_append, toList_append, List.map_append, List.append_assoc]

/-- Emitting an opcode and then an operand appends their bytes. -/
theorem emitOperand_emit (d : Draft) (op : Opcode) (v : Word) (w : Width) :
    (d.emit op).emitOperand v w = d.append (op.byte :: w.encode v) := by
  rw [emit, emitOperand, append_append, List.singleton_append]

/-! ### Holes -/

/-- The positions of the holes in a list of slots. -/
def holesIn (slots : List Slot) : List Nat :=
  (List.range slots.length).filter fun i => slots[i]? = some .hole

/-- The addresses of the bytes that are not known yet, in order.  A program can be finished just if
there are none. -/
def holes (d : Draft) : List Nat := holesIn d.slots.toList

theorem mem_holes {d : Draft} {i : Nat} : i ∈ d.holes ↔ d.slots[i]? = some .hole := by
  rw [holes, holesIn, List.mem_filter, List.mem_range, decide_eq_true_eq, Array.getElem?_toList,
    Array.length_toList]
  constructor
  · rintro ⟨-, h⟩
    exact h
  · intro h
    exact ⟨(Array.getElem?_eq_some_iff.mp h).1, h⟩

theorem nodup_holes (d : Draft) : d.holes.Nodup :=
  List.nodup_range.filter _

theorem holesIn_append (slots slots' : List Slot) :
    holesIn (slots ++ slots') = holesIn slots ++ (holesIn slots').map (slots.length + ·) := by
  rw [holesIn, List.length_append, List.range_add, List.filter_append, List.filter_map]
  congr 1
  · apply List.filter_congr
    intro i hi
    rw [List.getElem?_append_left (List.mem_range.mp hi)]
  · refine congrArg _ (List.filter_congr fun i _ => ?_)
    simp only [Function.comp_apply]
    rw [List.getElem?_append_right (Nat.le_add_right _ _), Nat.add_sub_cancel_left]

theorem holesIn_known (bs : List UInt8) : holesIn (bs.map Slot.known) = [] := by
  rw [holesIn, List.filter_eq_nil_iff]
  intro i _ hhole
  rw [decide_eq_true_eq, List.getElem?_map] at hhole
  obtain ⟨b, -, hb⟩ := Option.map_eq_some_iff.mp hhole
  cases hb

/-! ### Filling holes -/

/-- Filling replaces a run of holes by bytes.  The induction goes along the bytes, and each of them
moves one slot from the holes to the part before them. -/
theorem fillBytes_split {d : Draft} {before after : List Slot} {bs : List UInt8}
    (h : d.slots.toList = before ++ List.replicate bs.length Slot.hole ++ after) :
    ∃ d', d.fillBytes before.length bs = .ok d' ∧
      d'.slots.toList = before ++ bs.map Slot.known ++ after := by
  induction bs generalizing d before with
  | nil => exact ⟨d, rfl, h⟩
  | cons b bs ih =>
    rw [List.length_cons, List.replicate_succ, List.append_assoc, List.cons_append] at h
    have hslot : d.slots[before.length]? = some Slot.hole := by
      rw [← Array.getElem?_toList, h, List.getElem?_append_right (Nat.le_refl _), Nat.sub_self]
      rfl
    -- the slot that was filled joins the part before, and the other holes are left to `ih`
    have hset : (d.slots.setIfInBounds before.length (.known b)).toList
        = (before ++ [Slot.known b]) ++ List.replicate bs.length Slot.hole ++ after := by
      rw [Array.toList_setIfInBounds, h, List.set_append_right _ _ (Nat.le_refl _), Nat.sub_self,
        List.set_cons_zero]
      simp
    obtain ⟨d', hfill, hd'⟩ := ih (d := ⟨d.slots.setIfInBounds before.length (.known b)⟩) hset
    rw [List.length_append, List.length_singleton] at hfill
    refine ⟨d', ?_, ?_⟩
    · rw [fillBytes, hslot]
      exact hfill
    · rw [hd', List.map_cons, List.append_assoc before, List.singleton_append]

/-- Filling holes later amounts to appending the bytes in the first place, whatever has been emitted
in the meantime.  So code with targets that were open for a while can be given as instructions. -/
theorem fillBytes_later (d : Draft) (bs cs : List UInt8) (n : Nat) :
    (((d.emitHoles bs.length).append cs).emitHoles n).fillBytes d.size bs
      = .ok (((d.append bs).append cs).emitHoles n) := by
  have hsplit : (((d.emitHoles bs.length).append cs).emitHoles n).slots.toList
      = d.slots.toList ++ List.replicate bs.length Slot.hole ++
        (cs.map Slot.known ++ List.replicate n Slot.hole) := by
    simp only [toList_emitHoles, toList_append, List.append_assoc]
  obtain ⟨d', hfill, hd'⟩ := fillBytes_split hsplit
  rw [← size_eq_length] at hfill
  rw [hfill]
  refine congrArg Except.ok (ext_toList ?_)
  simp only [hd', toList_emitHoles, toList_append, List.append_assoc]

/-- Filling changes holes to the bytes and leaves all else alone.  It succeeds only where there are
holes, which is why no byte is ever written twice. -/
theorem fillBytes_spec {d d' : Draft} {address : Nat} {bs : List UInt8}
    (h : d.fillBytes address bs = .ok d') :
    d'.size = d.size ∧
      (∀ i, i < address ∨ address + bs.length ≤ i → d'.slots[i]? = d.slots[i]?) ∧
      ∀ k, k < bs.length → d.slots[address + k]? = some .hole ∧
        d'.slots[address + k]? = bs[k]?.map Slot.known := by
  induction bs generalizing d address with
  | nil =>
    rw [fillBytes] at h
    cases h
    exact ⟨rfl, fun _ _ => rfl, fun k hk => absurd hk (Nat.not_lt_zero k)⟩
  | cons b bs ih =>
    rw [fillBytes] at h
    cases hslot : d.slots[address]? with
    | none => rw [hslot] at h; cases h
    | some slot =>
      rw [hslot] at h
      cases slot with
      | known c => cases h
      | hole =>
        obtain ⟨hsize, hrest, hfilled⟩ := ih h
        have hlt : address < d.slots.size := (Array.getElem?_eq_some_iff.mp hslot).1
        have hother : ∀ i, i ≠ address →
            (d.slots.setIfInBounds address (.known b))[i]? = d.slots[i]? := by
          intro i hi
          rw [Array.getElem?_setIfInBounds_ne (Ne.symm hi)]
        refine ⟨?_, ?_, ?_⟩
        · rw [hsize, size, size, Array.size_setIfInBounds]
        · intro i hi
          rw [List.length_cons] at hi
          rw [hrest i (by omega), hother i (by omega)]
        · intro k hk
          rw [List.length_cons] at hk
          cases k with
          | zero =>
            -- the later bytes do not touch the first one
            refine ⟨hslot, ?_⟩
            rw [Nat.add_zero, hrest address (Or.inl (Nat.lt_succ_self address)),
              Array.getElem?_setIfInBounds_self_of_lt hlt]
            rfl
          | succ k =>
            obtain ⟨hhole, hbyte⟩ := hfilled k (by omega)
            rw [hother (address + 1 + k) (by omega)] at hhole
            rw [← Nat.add_assoc, Nat.add_right_comm]
            exact ⟨hhole, hbyte⟩

/-- The byte at an address cannot be filled in, since it is known or lies after the end.  The two
reasons are told apart by the misuse. -/
def Refuses (d : Draft) (k : Nat) (misuse : Misuse) : Prop :=
  (∃ b, d.slots[k]? = some (.known b) ∧ misuse = .noHole k) ∨
    (d.size ≤ k ∧ misuse = .pastEnd k d.size)

/-- The misuse names the first byte that is not a hole.  The bytes before it have been filled in,
but only in a copy: the draft that is kept is the one from before. -/
theorem refuses_of_fillBytes {d : Draft} {address : Nat} {bs : List UInt8} {misuse : Misuse}
    (h : d.fillBytes address bs = .error misuse) :
    ∃ i, i < bs.length ∧ (∀ j, j < i → d.slots[address + j]? = some .hole) ∧
      d.Refuses (address + i) misuse := by
  induction bs generalizing d address with
  | nil => cases h
  | cons b bs ih =>
    rw [fillBytes] at h
    rcases hslot : d.slots[address]? with _ | _ | _
    · rw [hslot] at h
      cases h
      exact ⟨0, by simp, by simp, Or.inr ⟨Array.getElem?_eq_none_iff.mp hslot, rfl⟩⟩
    · rw [hslot] at h
      cases h
      exact ⟨0, by simp, by simp, Or.inl ⟨_, hslot, rfl⟩⟩
    · rw [hslot] at h
      obtain ⟨i, hi, hholes, hrefuses⟩ := ih h
      -- the byte filled in first is none of the others
      have hother : ∀ j, (d.slots.setIfInBounds address (.known b))[address + 1 + j]?
          = d.slots[address + (j + 1)]? := by
        intro j
        rw [Array.getElem?_setIfInBounds_ne (by omega), Nat.add_right_comm, Nat.add_assoc]
      refine ⟨i + 1, by simpa using hi, ?_, ?_⟩
      · rintro (_ | j) hj
        · exact hslot
        · rw [← hother j]
          exact hholes j (by omega)
      · simp only [Refuses, hother, size, Array.size_setIfInBounds] at hrefuses
        rwa [Nat.add_right_comm, Nat.add_assoc] at hrefuses

/-- A word can be filled in exactly where there are holes: one byte that is known, or missing, is
enough for a misuse. -/
theorem fill_eq_error_iff {d : Draft} {address : Nat} {v : Word} {w : Width} :
    (∃ misuse, d.fill address v w = .error misuse) ↔
      ∃ k, address ≤ k ∧ k < address + w.size ∧
        ((∃ b, d.slots[k]? = some (.known b)) ∨ d.size ≤ k) := by
  constructor
  · rintro ⟨misuse, h⟩
    obtain ⟨i, hi, -, hrefuses⟩ := refuses_of_fillBytes h
    rw [Width.length_encode] at hi
    refine ⟨address + i, by omega, by omega, ?_⟩
    rcases hrefuses with ⟨b, hb, -⟩ | ⟨hsize, -⟩
    · exact Or.inl ⟨b, hb⟩
    · exact Or.inr hsize
  · rintro ⟨k, hk, hlt, hrefused⟩
    cases h : d.fill address v w with
    | error misuse => exact ⟨misuse, rfl⟩
    | ok d' =>
      -- otherwise all bytes of the word were holes, this one too
      obtain ⟨i, rfl⟩ : ∃ i, k = address + i := ⟨k - address, by omega⟩
      have hhole := ((fillBytes_spec h).2.2 i (by rw [Width.length_encode]; omega)).1
      rcases hrefused with ⟨b, hb⟩ | hsize
      · cases hb.symm.trans hhole
      · cases (Array.getElem?_eq_none_iff.mpr hsize).symm.trans hhole

/-! ### Finished code -/

/-- Slots without holes are their bytes. -/
theorem bytesFrom_known (address : Nat) (bs : List UInt8) :
    bytesFrom address (bs.map Slot.known) = .ok bs := by
  induction bs generalizing address with
  | nil => rfl
  | cons b bs ih =>
    rw [List.map_cons, bytesFrom, ih]
    rfl

/-- Finished code is a draft without holes, and it has the bytes of the draft in their order. -/
theorem slots_of_bytesFrom {slots : List Slot} {address : Nat} {bs : List UInt8}
    (h : bytesFrom address slots = .ok bs) : slots = bs.map Slot.known := by
  induction slots generalizing address bs with
  | nil =>
    cases h
    rfl
  | cons slot slots ih =>
    cases slot with
    | hole => cases h
    | known b =>
      rw [bytesFrom] at h
      cases hrest : bytesFrom (address + 1) slots with
      | error e => rw [hrest] at h; cases h
      | ok cs =>
        rw [hrest] at h
        cases h
        rw [List.map_cons, ← ih hrest]

/-- The first hole is the one that is reported, since bytes are gone through from the front. -/
theorem bytesFrom_eq_error {slots : List Slot} {address : Nat} {cause : ImageError}
    (h : bytesFrom address slots = .error cause) :
    ∃ i, cause = .unfilledHole (address + i) ∧ slots[i]? = some .hole ∧
      ∀ j, slots[j]? = some .hole → i ≤ j := by
  induction slots generalizing address with
  | nil => cases h
  | cons slot slots ih =>
    cases slot with
    | hole =>
      cases h
      exact ⟨0, rfl, rfl, fun _ _ => Nat.zero_le _⟩
    | known b =>
      rw [bytesFrom] at h
      cases hrest : bytesFrom (address + 1) slots with
      | ok bs =>
        rw [hrest] at h
        cases h
      | error e =>
        rw [hrest] at h
        cases h
        -- a known byte in front moves the first hole by one
        obtain ⟨i, hcause, hhole, hfirst⟩ := ih hrest
        refine ⟨i + 1, by rw [hcause, Nat.add_right_comm, Nat.add_assoc], by simpa using hhole, ?_⟩
        rintro (_ | j) hj
        · cases hj
        · exact Nat.succ_le_succ (hfirst j (by simpa using hj))

/-- Code cannot be finished exactly if it has a hole. -/
theorem bytes_eq_error_iff {d : Draft} :
    (∃ cause, d.bytes = .error cause) ↔ ∃ k : Nat, d.slots[k]? = some .hole := by
  constructor
  · rintro ⟨cause, h⟩
    obtain ⟨k, -, hhole, -⟩ := bytesFrom_eq_error h
    exact ⟨k, by rwa [Array.getElem?_toList] at hhole⟩
  · rintro ⟨k, hhole⟩
    cases h : d.bytes with
    | error cause => exact ⟨cause, rfl⟩
    | ok bs =>
      have hknown := slots_of_bytesFrom h
      rw [← Array.getElem?_toList, hknown, List.getElem?_map] at hhole
      obtain ⟨b, -, hb⟩ := Option.map_eq_some_iff.mp hhole
      cases hb

end Draft
end MJ
