import MJ.Proofs.Misuses

/-!
# The layout of code under construction

The code of every program that can be written is a sequence of items without gaps: whole
instructions, instructions that wait for a label, and at most one `enter` that waits for the size
of its frame.  So all holes are accounted for, and filling them never fails.

## Main definitions

* `Item` — a piece of code under construction.
* `Item.waits`, `Item.openings` — what the items of a program wait for.
* `Assembler.LaidOut` — the code of a program is a sequence of items.
* `Assembler.Verdict` — what the end of a program should be.

## Main results

* `Assembler.LaidOut.effect` — every effect keeps the code laid out.
* `Assembler.holes_accounted` — **every hole is waited for once, and finishing a program has
  exactly the outcome that it should have.**
-/

namespace MJ

/-- A piece of code under construction.  Unlike slots, items know which holes belong together and
what they wait for. -/
inductive Item where
  /-- An instruction of which all bytes are known. -/
  | whole (i : Instruction)
  /-- An instruction that waits for the address of a label. -/
  | waiting (t : Transfer) (label : String)
  /-- The start of a procedure that waits for the size of its frame. -/
  | opening (params : UInt8)
  deriving DecidableEq, Repr

namespace Item

/-! ### Items and their slots -/

/-- The slots of an item. -/
def slots : Item → List Slot
  | whole i => i.bytes.map .known
  | waiting t _ => [.known t.opcode.byte, .hole, .hole]
  | opening params => [.known Opcode.enter.byte, .known params, .hole]

/-- The number of bytes that an item takes. -/
def size (item : Item) : Nat := item.slots.length

/-- The slots of a sequence of items. -/
def slotsOf (items : List Item) : List Slot := items.flatMap slots

/-- The number of bytes that a sequence of items takes. -/
def extent (items : List Item) : Nat := (slotsOf items).length

@[simp] theorem slotsOf_nil : slotsOf [] = [] := rfl

@[simp] theorem slotsOf_cons (item : Item) (items : List Item) :
    slotsOf (item :: items) = item.slots ++ slotsOf items := rfl

@[simp] theorem slotsOf_append (items items' : List Item) :
    slotsOf (items ++ items') = slotsOf items ++ slotsOf items' := List.flatMap_append

@[simp] theorem extent_nil : extent [] = 0 := rfl

@[simp] theorem extent_cons (item : Item) (items : List Item) :
    extent (item :: items) = item.size + extent items := by
  rw [extent, slotsOf_cons, List.length_append, size, extent]

@[simp] theorem extent_append (items items' : List Item) :
    extent (items ++ items') = extent items + extent items' := by
  rw [extent, slotsOf_append, List.length_append, extent, extent]

@[simp] theorem size_whole (i : Instruction) : (whole i).size = i.size := by
  rw [size, slots, List.length_map, Instruction.length_bytes]

@[simp] theorem size_waiting (t : Transfer) (label : String) : (waiting t label).size = 3 := rfl

@[simp] theorem size_opening (params : UInt8) : (opening params).size = 3 := rfl

/-- Whole instructions have the bytes of their code. -/
theorem slotsOf_whole (is : List Instruction) :
    slotsOf (is.map whole) = (Code.ofInstructions is).map .known := by
  induction is with
  | nil => rfl
  | cons i is ih =>
    rw [List.map_cons, slotsOf_cons, ih, Code.ofInstructions_cons, List.map_append, slots]

theorem extent_whole (is : List Instruction) :
    extent (is.map whole) = (Code.ofInstructions is).length := by
  rw [extent, slotsOf_whole, List.length_map]

/-! ### What items wait for -/

/-- The references of items of which the first stands at `base`.  They are in the order of the code,
which is the reverse of the order in which the assembler keeps them. -/
def waits (base : Nat) : List Item → List (String × Nat)
  | [] => []
  | waiting _ label :: items => (label, base + 1) :: waits (base + 3) items
  | item :: items => waits (base + item.size) items

/-- The addresses of the frame sizes that items wait for, the first item at `base`. -/
def openings (base : Nat) : List Item → List Nat
  | [] => []
  | opening _ :: items => (base + 2) :: openings (base + 3) items
  | item :: items => openings (base + item.size) items

theorem waits_append (base : Nat) (items items' : List Item) :
    waits base (items ++ items') = waits base items ++ waits (base + extent items) items' := by
  induction items generalizing base with
  | nil => rfl
  | cons item items ih =>
    cases item <;>
      simp only [List.cons_append, waits, ih, extent_cons, size_waiting, Nat.add_assoc]

theorem openings_append (base : Nat) (items items' : List Item) :
    openings base (items ++ items')
      = openings base items ++ openings (base + extent items) items' := by
  induction items generalizing base with
  | nil => rfl
  | cons item items ih =>
    cases item <;>
      simp only [List.cons_append, openings, ih, extent_cons, size_opening, Nat.add_assoc]

@[simp] theorem waits_whole (base : Nat) (is : List Instruction) :
    waits base (is.map whole) = [] := by
  induction is generalizing base with
  | nil => rfl
  | cons i is ih => exact ih _

@[simp] theorem openings_whole (base : Nat) (is : List Instruction) :
    openings base (is.map whole) = [] := by
  induction is generalizing base with
  | nil => rfl
  | cons i is ih => exact ih _

/-- The holes of a sequence of items are the bytes that it waits for.  The order is not the same, as
the holes of labels and those of frames are listed apart. -/
theorem holesIn_slotsOf (base : Nat) (items : List Item) :
    ((Draft.holesIn (slotsOf items)).map (base + ·)).Perm
      ((waits base items).flatMap (fun r => [r.2, r.2 + 1]) ++ openings base items) := by
  induction items generalizing base with
  | nil => exact .refl _
  | cons item items ih =>
    have hshift : ((Draft.holesIn (slotsOf items)).map (item.size + ·)).map (base + ·)
        = (Draft.holesIn (slotsOf items)).map (base + item.size + ·) := by
      rw [List.map_map]
      exact List.map_congr_left fun i _ => (Nat.add_assoc base item.size i).symm
    rw [slotsOf_cons, Draft.holesIn_append, List.map_append, ← size, hshift]
    cases item with
    | whole i =>
      rw [slots, Draft.holesIn_known]
      exact ih (base + (whole i).size)
    | waiting t label => exact ((ih (base + 3)).cons _).cons _
    | opening params => exact ((ih (base + 3)).cons _).trans List.perm_middle.symm

/-- Items that wait for nothing are whole instructions. -/
theorem eq_whole_of_waits_nil {base : Nat} {items : List Item} (hwaits : waits base items = [])
    (hopenings : openings base items = []) : ∃ is : List Instruction, items = is.map whole := by
  induction items generalizing base with
  | nil => exact ⟨[], rfl⟩
  | cons item items ih =>
    cases item with
    | whole i =>
      obtain ⟨is, rfl⟩ := ih hwaits hopenings
      exact ⟨i :: is, rfl⟩
    | waiting t label => cases hwaits
    | opening params => cases hopenings

/-! ### Boundaries -/

/-- Whether an address is that of an item, or the end of the items.  A label at the end is where the
next item will stand. -/
def Boundary (items : List Item) (n : Nat) : Prop :=
  ∃ items₁ items₂, items = items₁ ++ items₂ ∧ n = extent items₁

/-- Whether an item is the start of a procedure. -/
def isEnter : Item → Bool
  | whole (.enter _ _) | opening _ => true
  | _ => false

/-- Whether a procedure starts at an address. -/
def EnterAt (items : List Item) (n : Nat) : Prop :=
  ∃ items₁ item items₂, items = items₁ ++ item :: items₂ ∧ n = extent items₁ ∧ item.isEnter = true

theorem boundary_zero (items : List Item) : Boundary items 0 := ⟨[], items, rfl, rfl⟩

theorem boundary_extent (items : List Item) : Boundary items (extent items) :=
  ⟨items, [], (List.append_nil items).symm, rfl⟩

theorem Boundary.append {items : List Item} {n : Nat} (h : Boundary items n)
    (more : List Item) : Boundary (items ++ more) n := by
  obtain ⟨items₁, items₂, rfl, rfl⟩ := h
  exact ⟨items₁, items₂ ++ more, List.append_assoc items₁ items₂ more, rfl⟩

theorem EnterAt.append {items : List Item} {n : Nat} (h : EnterAt items n)
    (more : List Item) : EnterAt (items ++ more) n := by
  obtain ⟨items₁, item, items₂, rfl, rfl, henter⟩ := h
  exact ⟨items₁, item, items₂ ++ more, by rw [List.append_assoc, List.cons_append], rfl, henter⟩

/-! ### Filling items in -/

/-- The item with the size of its frame filled in. -/
def close (frame : UInt8) : Item → Item
  | opening params => whole (.enter params frame)
  | item => item

/-- The item with the address of its label filled in. -/
def resolve (t : Labels) : Item → Item
  | waiting transfer label => whole (transfer.instruction ((t.address? label).getD 0))
  | item => item

/-- A change of items that keeps their places.  Both ways to fill items in are of this kind, and for
what is said of addresses nothing else about them matters. -/
structure InPlace (f : Item → Item) : Prop where
  size : ∀ item, (f item).size = item.size
  isEnter : ∀ item, item.isEnter = true → (f item).isEnter = true

theorem inPlace_close (frame : UInt8) : InPlace (close frame) where
  size item := by
    cases item with
    | opening params => rfl
    | whole i => rfl
    | waiting t label => rfl
  isEnter item h := by
    cases item with
    | opening params => rfl
    | whole i => exact h
    | waiting t label => cases h

theorem inPlace_resolve (t : Labels) : InPlace (resolve t) where
  size item := by
    cases item with
    | opening params => rfl
    | whole i => rfl
    | waiting transfer label => rw [resolve, size_whole, Transfer.size_instruction, size_waiting]
  isEnter item h := by
    cases item with
    | opening params => rfl
    | whole i => exact h
    | waiting transfer label => cases h

theorem InPlace.extent_map {f : Item → Item} (hf : InPlace f) (items : List Item) :
    extent (items.map f) = extent items := by
  induction items with
  | nil => rfl
  | cons item items ih => rw [List.map_cons, extent_cons, extent_cons, hf.size, ih]

theorem InPlace.boundary {f : Item → Item} (hf : InPlace f) {items : List Item} {n : Nat}
    (h : Boundary items n) : Boundary (items.map f) n := by
  obtain ⟨items₁, items₂, rfl, rfl⟩ := h
  exact ⟨items₁.map f, items₂.map f, List.map_append, (hf.extent_map items₁).symm⟩

theorem InPlace.enterAt {f : Item → Item} (hf : InPlace f) {items : List Item} {n : Nat}
    (h : EnterAt items n) : EnterAt (items.map f) n := by
  obtain ⟨items₁, item, items₂, rfl, rfl, henter⟩ := h
  exact ⟨items₁.map f, f item, items₂.map f, by rw [List.map_append, List.map_cons],
    (hf.extent_map items₁).symm, hf.isEnter item henter⟩

/-- Items that wait for no frame size are not changed by one. -/
theorem map_close_of_openings_nil {base : Nat} {items : List Item} (frame : UInt8)
    (h : openings base items = []) : items.map (close frame) = items := by
  induction items generalizing base with
  | nil => rfl
  | cons item items ih =>
    cases item with
    | opening params => cases h
    | whole i => exact congrArg (whole i :: ·) (ih h)
    | waiting t label => exact congrArg (waiting t label :: ·) (ih h)

/-- The one item that waits for a frame size, found from the address of the size.  The items around
it wait for none, so that filling all sizes in changes this one only. -/
theorem split_of_openings_singleton {base k : Nat} {items : List Item}
    (h : openings base items = [k]) : ∃ items₁ params items₂,
      items = items₁ ++ opening params :: items₂ ∧ k = base + extent items₁ + 2 ∧
      openings base items₁ = [] ∧ openings (base + extent items₁ + 3) items₂ = [] := by
  induction items generalizing base with
  | nil => cases h
  | cons item items ih =>
    -- the first item either is the one, or it stays in front of it
    have hskip : ∀ n, openings (base + n) items = [k] → ∃ items₁ params items₂,
        items = items₁ ++ opening params :: items₂ ∧ k = base + (n + extent items₁) + 2 ∧
        openings (base + n) items₁ = [] ∧
        openings (base + (n + extent items₁) + 3) items₂ = [] := by
      intro n hn
      obtain ⟨items₁, params, items₂, hsplit, hk, hbefore, hafter⟩ := ih hn
      rw [Nat.add_assoc base n] at hk hafter
      exact ⟨items₁, params, items₂, hsplit, hk, hbefore, hafter⟩
    cases item with
    | opening params =>
      obtain ⟨rfl, hrest⟩ := List.cons.inj h
      exact ⟨[], params, items, rfl, rfl, rfl, hrest⟩
    | whole i =>
      obtain ⟨items₁, params, items₂, rfl, hk, hbefore, hafter⟩ := hskip _ h
      exact ⟨whole i :: items₁, params, items₂, rfl, by rw [extent_cons, hk], hbefore,
        by rw [extent_cons]; exact hafter⟩
    | waiting t label =>
      obtain ⟨items₁, params, items₂, rfl, hk, hbefore, hafter⟩ := hskip _ h
      exact ⟨waiting t label :: items₁, params, items₂, rfl, by rw [extent_cons, hk], hbefore,
        by rw [extent_cons]; exact hafter⟩

theorem waits_map_close (base : Nat) (frame : UInt8) (items : List Item) :
    waits base (items.map (close frame)) = waits base items := by
  induction items generalizing base with
  | nil => rfl
  | cons item items ih =>
    cases item with
    | opening params => exact ih (base + 3)
    | whole i => exact ih (base + (whole i).size)
    | waiting t label => exact congrArg ((label, base + 1) :: ·) (ih (base + 3))

theorem openings_map_close (base : Nat) (frame : UInt8) (items : List Item) :
    openings base (items.map (close frame)) = [] := by
  induction items generalizing base with
  | nil => rfl
  | cons item items ih => cases item <;> exact ih _

theorem waits_map_resolve (base : Nat) (t : Labels) (items : List Item) :
    waits base (items.map (resolve t)) = [] := by
  induction items generalizing base with
  | nil => rfl
  | cons item items ih => cases item <;> exact ih _

theorem openings_map_resolve (base : Nat) (t : Labels) (items : List Item) :
    openings base (items.map (resolve t)) = openings base items := by
  induction items generalizing base with
  | nil => rfl
  | cons item items ih =>
    cases item with
    | opening params => exact congrArg ((base + 2) :: ·) (ih (base + 3))
    | whole i => exact ih (base + (whole i).size)
    | waiting transfer label =>
      have hsize := (inPlace_resolve t).size (waiting transfer label)
      show openings (base + (resolve t (waiting transfer label)).size) _ = _
      rw [hsize]
      exact ih (base + 3)

/-- Filling the size of the frame in closes the item that waits for it. -/
theorem fillBytes_slotsOf {d : Draft} {items : List Item} {k : Nat} (frame : UInt8)
    (hslots : d.slots.toList = slotsOf items) (hopenings : openings 0 items = [k]) :
    ∃ d', d.fillBytes k [frame] = .ok d' ∧
      d'.slots.toList = slotsOf (items.map (close frame)) := by
  obtain ⟨items₁, params, items₂, rfl, rfl, hbefore, hafter⟩ :=
    split_of_openings_singleton hopenings
  have hsplit : d.slots.toList
      = (slotsOf items₁ ++ [.known Opcode.enter.byte, .known params]) ++
        List.replicate [frame].length Slot.hole ++ slotsOf items₂ := by
    rw [hslots, slotsOf_append, slotsOf_cons, slots]
    simp
  -- no other item is open, so that closing leaves both sides as they are
  have hclosed : (items₁ ++ opening params :: items₂).map (close frame)
      = items₁ ++ whole (.enter params frame) :: items₂ := by
    rw [List.map_append, List.map_cons, map_close_of_openings_nil frame hbefore,
      map_close_of_openings_nil frame hafter, close]
  obtain ⟨d', hfill, hd'⟩ := Draft.fillBytes_split hsplit
  rw [List.length_append, ← extent, List.length_cons, List.length_singleton] at hfill
  refine ⟨d', by rw [Nat.zero_add]; exact hfill, ?_⟩
  rw [hd', hclosed, slotsOf_append, slotsOf_cons, slots]
  simp [Instruction.bytes, Instruction.opcode, Instruction.operandBytes]

/-- Filling the addresses of all labels in resolves every item; `before` are the slots in front of
the items.  By induction on the items, which join these slots one after the other. -/
theorem fillAll_slotsOf (t : Labels) {d : Draft} {before : List Slot} {items : List Item}
    (hslots : d.slots.toList = before ++ slotsOf items) :
    ∃ d', t.fillAll d (waits before.length items) = .ok d' ∧
      d'.slots.toList = before ++ slotsOf (items.map (resolve t)) := by
  induction items generalizing d before with
  | nil => exact ⟨d, rfl, hslots⟩
  | cons item items ih =>
    -- an item without an address joins the slots in front
    have hkeep : ∀ item : Item, item.resolve t = item →
        d.slots.toList = before ++ slotsOf (item :: items) →
        ∃ d', t.fillAll d (waits (before.length + item.size) items) = .ok d' ∧
          d'.slots.toList = before ++ slotsOf ((item :: items).map (resolve t)) := by
      intro item hitem hslots
      rw [slotsOf_cons, ← List.append_assoc] at hslots
      obtain ⟨d', hfill, hd'⟩ := ih hslots
      rw [List.length_append] at hfill
      refine ⟨d', hfill, ?_⟩
      rw [hd', List.map_cons, hitem, slotsOf_cons, List.append_assoc]
    cases item with
    | whole i => exact hkeep (whole i) rfl hslots
    | opening params => exact hkeep (opening params) rfl hslots
    | waiting transfer label =>
      have hsplit : d.slots.toList = (before ++ [.known transfer.opcode.byte]) ++
          List.replicate (BigEndian.bytes 2 ((t.address? label).getD 0)).length Slot.hole ++
          slotsOf items := by
        rw [hslots, slotsOf_cons, slots, BigEndian.length_bytes]
        simp [List.replicate]
      -- once it is filled in, the item joins the slots in front too
      obtain ⟨d₁, hfirst, hd₁⟩ := Draft.fillBytes_split hsplit
      rw [List.length_append, List.length_singleton] at hfirst
      obtain ⟨d', hrest, hd'⟩ := ih hd₁
      rw [List.length_append, List.length_append, List.length_map, BigEndian.length_bytes,
        List.length_singleton] at hrest
      refine ⟨d', ?_, ?_⟩
      · rw [← Width.encode_s16_ofNat] at hfirst
        exact Labels.fillAll_cons_eq_ok.mpr ⟨d₁, hfirst, hrest⟩
      · rw [hd', List.map_cons, resolve, slotsOf_cons, slots, Transfer.bytes_instruction]
        simp

end Item

namespace Assembler

open Item

/-! ### Programs that are laid out -/

/-- The code of a program is a sequence of items, which wait for what the program knows to be open.
This is the invariant of all programs that can be written. -/
structure LaidOut (a : Assembler) (items : List Item) : Prop where
  /-- The items make up the code. -/
  slots : a.code.slots.toList = slotsOf items
  /-- The references are those of the items. -/
  references : a.labels.references.reverse = waits 0 items
  /-- The open procedure is the one whose frame has no size. -/
  procedure : a.procedure?.toList.map Procedure.sizeSlot = openings 0 items
  /-- Labels stand between items. -/
  labels : ∀ label n, a.labels.address? label = some n → Boundary items n
  /-- Control goes to places between items. -/
  targets : ∀ i, .whole i ∈ items → ∀ n, i.target? = some n → ∃ m, n = m % 65536 ∧ Boundary items m
  /-- The end marker is no instruction. -/
  noLast : .whole .last ∉ items
  /-- The main procedure has begun. -/
  main : ∀ main, a.main? = some main → ∃ n, a.labels.address? main = some n ∧ EnterAt items n

namespace LaidOut

variable {a : Assembler} {items : List Item}

theorem size_eq (h : a.LaidOut items) : a.code.size = extent items := by
  rw [Draft.size_eq_length, h.slots, extent]

theorem empty : Assembler.empty.LaidOut [] where
  slots := rfl
  references := rfl
  procedure := rfl
  labels _ _ h := nomatch h
  targets _ h := nomatch h
  noLast h := nomatch h
  main _ h := nomatch h

theorem frame (h : a.LaidOut items) {p : Procedure} (words : Nat)
    (hopen : a.procedure? = some p) :
    LaidOut { a with procedure? := some { p with size := p.size + words } } items := by
  have hprocedure := h.procedure
  rw [hopen] at hprocedure
  exact { h with procedure := hprocedure }

theorem label (h : a.LaidOut items) {label : String} (hnew : a.labels.address? label = none) :
    (a.withLabel label).LaidOut items := by
  refine { h with labels := ?_, main := ?_ }
  · intro l n hl
    rw [address?_withLabel] at hl
    split at hl
    · rw [← Option.some.inj hl, h.size_eq]
      exact boundary_extent items
    · exact h.labels l n hl
  · intro main hmain
    obtain ⟨n, haddress, henter⟩ := h.main main hmain
    refine ⟨n, ?_, henter⟩
    -- the label of the main procedure is not new
    have hne : main ≠ label := by
      rintro rfl
      rw [hnew] at haddress
      cases haddress
    rw [address?_withLabel, if_neg hne, haddress]

/-- Instructions are added as whole items.  Their targets are places between items by what they had
to satisfy. -/
theorem code (h : a.LaidOut items) {is : List Instruction} (haccepts : a.Accepts is) :
    (a.append is).LaidOut (items ++ is.map .whole) where
  slots := by
    rw [code_append, Draft.toList_append, h.slots, slotsOf_append, slotsOf_whole]
  references := by
    rw [labels_append, h.references, waits_append, waits_whole, List.append_nil]
  procedure := by
    rw [procedure?_append, h.procedure, openings_append, openings_whole, List.append_nil]
  labels label n hlabel := (h.labels label n hlabel).append _
  targets i hi n htarget := by
    rcases List.mem_append.mp hi with hi | hi
    · obtain ⟨m, hm, hboundary⟩ := h.targets i hi n htarget
      exact ⟨m, hm, hboundary.append _⟩
    · obtain ⟨j, hj, hji⟩ := List.mem_map.mp hi
      obtain rfl := Item.whole.inj hji
      obtain ⟨m, hm, hknown⟩ := haccepts.target j hj n htarget
      refine ⟨m, hm, ?_⟩
      -- a target is the address of a label, or a place in the new code itself
      rcases hknown with ⟨label, hlabel⟩ | ⟨js, ks, rfl, rfl⟩
      · exact (h.labels label m hlabel).append _
      · rw [List.map_append, ← List.append_assoc, h.size_eq, ← extent_whole, ← extent_append]
        exact (boundary_extent _).append _
  noLast hlast := by
    rcases List.mem_append.mp hlast with hlast | hlast
    · exact h.noLast hlast
    · obtain ⟨j, hj, hji⟩ := List.mem_map.mp hlast
      obtain rfl := Item.whole.inj hji
      exact haccepts.noLast hj
  main main hmain := by
    obtain ⟨n, haddress, henter⟩ := h.main main hmain
    exact ⟨n, haddress, henter.append _⟩

/-- An item that is not whole adds neither targets nor an end marker. -/
theorem open_item (h : a.LaidOut items) {item : Item} (hitem : ∀ i, item ≠ .whole i) :
    (∀ i, .whole i ∈ items ++ [item] → ∀ n, i.target? = some n →
      ∃ m, n = m % 65536 ∧ Boundary (items ++ [item]) m) ∧
      .whole .last ∉ items ++ [item] := by
  have hold : ∀ i, .whole i ∈ items ++ [item] → .whole i ∈ items := by
    intro i hi
    rcases List.mem_append.mp hi with hi | hi
    · exact hi
    · exact absurd (List.mem_singleton.mp hi).symm (hitem i)
  refine ⟨?_, fun hlast => h.noLast (hold _ hlast)⟩
  intro i hi n htarget
  obtain ⟨m, hm, hboundary⟩ := h.targets i (hold i hi) n htarget
  exact ⟨m, hm, hboundary.append _⟩

theorem await (h : a.LaidOut items) (t : Transfer) (label : String) :
    (a.await t label).LaidOut (items ++ [.waiting t label]) where
  slots := by
    rw [Assembler.await, Draft.toList_emitHoles, Draft.toList_append, h.slots, slotsOf_append,
      List.append_assoc]
    rfl
  references := by
    rw [Assembler.await, Labels.refer, List.reverse_cons, h.references, waits_append, h.size_eq,
      Nat.zero_add]
    rfl
  procedure := by
    rw [openings_append]
    exact h.procedure.trans (List.append_nil _).symm
  labels l n hlabel := (h.labels l n hlabel).append _
  targets := (h.open_item fun _ => Item.noConfusion).1
  noLast := (h.open_item fun _ => Item.noConfusion).2
  main main hmain := by
    obtain ⟨n, haddress, henter⟩ := h.main main hmain
    exact ⟨n, haddress, henter.append _⟩

theorem opening (h : a.LaidOut items) {label : String} (params : Nat) (isMain : Bool)
    (hclosed : a.procedure? = none) (hlabel : a.labels.address? label = some a.code.size) :
    (a.opened label params isMain).LaidOut (items ++ [.opening (UInt8.ofNat params)]) where
  slots := by
    rw [opened, Draft.toList_emitHoles, Draft.toList_append, h.slots, slotsOf_append,
      List.append_assoc]
    rfl
  references := by
    rw [waits_append]
    exact h.references.trans (List.append_nil _).symm
  procedure := by
    have hnone := h.procedure
    rw [hclosed] at hnone
    rw [openings_append, ← hnone, opened, h.size_eq, Nat.zero_add]
    rfl
  labels l n hlabel := (h.labels l n hlabel).append _
  targets := (h.open_item fun _ => Item.noConfusion).1
  noLast := (h.open_item fun _ => Item.noConfusion).2
  main main hmain := by
    cases isMain with
    | true =>
      -- the new item is the start of the main procedure
      obtain rfl := Option.some.inj hmain
      rw [h.size_eq] at hlabel
      exact ⟨_, hlabel, items, _, [], rfl, rfl, rfl⟩
    | false =>
      obtain ⟨n, haddress, henter⟩ := h.main main hmain
      exact ⟨n, haddress, henter.append _⟩

/-- Items may change in place, if what becomes whole has a target between items.  Closing and
resolving share this; they differ in what becomes whole. -/
theorem inPlace (h : a.LaidOut items) {f : Item → Item} (hplaces : InPlace f) {b : Assembler}
    (hwhole : ∀ i, .whole i ∈ items.map f → .whole i ∈ items ∨
      i ≠ .last ∧ ∀ n, i.target? = some n → ∃ m, n = m % 65536 ∧ Boundary items m)
    (hslots : b.code.slots.toList = slotsOf (items.map f))
    (hreferences : b.labels.references.reverse = waits 0 (items.map f))
    (hprocedure : b.procedure?.toList.map Procedure.sizeSlot = openings 0 (items.map f))
    (hlabels : b.labels.address? = a.labels.address?) (hmain : b.main? = a.main?) :
    b.LaidOut (items.map f) where
  slots := hslots
  references := hreferences
  procedure := hprocedure
  labels label n hlabel := hplaces.boundary (h.labels label n (hlabels ▸ hlabel))
  targets i hi n htarget := by
    have hold : ∃ m, n = m % 65536 ∧ Boundary items m := by
      rcases hwhole i hi with hi | ⟨-, hnew⟩
      · exact h.targets i hi n htarget
      · exact hnew n htarget
    obtain ⟨m, hm, hboundary⟩ := hold
    exact ⟨m, hm, hplaces.boundary hboundary⟩
  noLast hlast := by
    rcases hwhole _ hlast with hlast | ⟨hne, -⟩
    · exact h.noLast hlast
    · exact hne rfl
  main main hb := by
    obtain ⟨n, haddress, henter⟩ := h.main main (hmain ▸ hb)
    exact ⟨n, hlabels ▸ haddress, hplaces.enterAt henter⟩

/-- Filling the size of the open frame in succeeds, since the item that waits for it is still there.
-/
theorem closing (h : a.LaidOut items) {p : Procedure} (hopen : a.procedure? = some p)
    (frame : UInt8) : ∃ code, a.code.fillBytes p.sizeSlot [frame] = .ok code ∧
      LaidOut { a with code := code, procedure? := none } (items.map (Item.close frame)) := by
  have hopenings := h.procedure
  rw [hopen] at hopenings
  obtain ⟨code, hfill, hcode⟩ := fillBytes_slotsOf frame h.slots hopenings.symm
  refine ⟨code, hfill, h.inPlace (inPlace_close frame) ?_ hcode ?_ ?_ rfl rfl⟩
  · -- the only new instruction is the `enter` of the procedure, which has no target
    intro i hi
    obtain ⟨item, hitem, hclose⟩ := List.mem_map.mp hi
    cases item with
    | whole j =>
      rw [← hclose]
      exact Or.inl hitem
    | waiting t label => cases hclose
    | opening params =>
      obtain rfl := Item.whole.inj hclose
      refine Or.inr ⟨Instruction.noConfusion, fun n htarget => ?_⟩
      cases htarget
  · rw [waits_map_close]
    exact h.references
  · exact (openings_map_close 0 frame items).symm

/-- Filling the addresses of all labels in succeeds, even if labels are missing: this is asked
before. -/
theorem resolving (h : a.LaidOut items) :
    ∃ code, a.labels.fillAll a.code a.labels.references.reverse = .ok code ∧
      (a.resolved code).LaidOut (items.map (resolve a.labels)) := by
  obtain ⟨code, hfill, hcode⟩ := fillAll_slotsOf a.labels (h.slots.trans (List.nil_append _).symm)
  rw [List.length_nil, ← h.references] at hfill
  rw [List.nil_append] at hcode
  refine ⟨code, hfill, h.inPlace (inPlace_resolve a.labels) ?_ hcode ?_ ?_ rfl rfl⟩
  · intro i hi
    obtain ⟨item, hitem, hresolve⟩ := List.mem_map.mp hi
    cases item with
    | whole j =>
      rw [← hresolve]
      exact Or.inl hitem
    | waiting t label =>
      obtain rfl := Item.whole.inj hresolve
      refine Or.inr ⟨?_, fun n htarget => ?_⟩
      · cases t <;> exact Instruction.noConfusion
      · -- an undefined label counts as the start of the code
        rw [Transfer.target?_instruction] at htarget
        refine ⟨_, (Option.some.inj htarget).symm, ?_⟩
        cases haddress : a.labels.address? label with
        | some m => exact h.labels label m haddress
        | none => exact boundary_zero items
    | opening params => cases hresolve
  · rw [waits_map_resolve]
    rfl
  · rw [openings_map_resolve]
    exact h.procedure

/-- **Every effect keeps the code laid out.**  The items change with the effect, and so it is enough
that there are some. -/
theorem effect (h : a.LaidOut items) {b : Assembler} (heffect : Effect a b) :
    ∃ items', b.LaidOut items' := by
  cases heffect with
  | data bs hwords => exact ⟨items, { h with }⟩
  | frame p words hopen => exact ⟨items, h.frame words hopen⟩
  | label label hnew => exact ⟨items, h.label hnew⟩
  | code is haccepts => exact ⟨_, h.code haccepts⟩
  | await t label hnew => exact ⟨_, h.await t label⟩
  | opening label params isMain hclosed hmain hlabel =>
    exact ⟨_, h.opening params isMain hclosed hlabel⟩
  | closing p code hopen hsize hfill =>
    -- filling is a function, so that the code is the one that is known to be laid out
    obtain ⟨code', hfill', h'⟩ := h.closing hopen (UInt8.ofNat p.size)
    obtain rfl := Except.ok.inj (hfill.symm.trans hfill')
    exact ⟨_, h'⟩
  | resolving code hdefined hfill =>
    obtain ⟨code', hfill', h'⟩ := h.resolving
    obtain rfl := Except.ok.inj (hfill.symm.trans hfill')
    exact ⟨_, h'⟩

end LaidOut

/-- The code of every program that effects lead to is laid out. -/
theorem laidOut_of_effects {a : Assembler} (h : Effects .empty a) : ∃ items, a.LaidOut items := by
  induction h with
  | refl => exact ⟨[], .empty⟩
  | tail _ heffect ih =>
    obtain ⟨items, hitems⟩ := ih
    exact hitems.effect heffect

/-- The code of every program that can be written is laid out. -/
theorem laidOut_of_session {commands : List Command} {a : Assembler}
    (h : session commands .empty = .ok () a) : ∃ items, a.LaidOut items :=
  laidOut_of_effects (effects_session h)

/-! ### The end of a program -/

/-- Code that waits for nothing is the code of instructions, and so a program without open ends has
all its bytes. -/
theorem LaidOut.bytes_eq {a : Assembler} {items : List Item} (h : a.LaidOut items)
    (hreferences : a.labels.references = []) (hclosed : a.procedure? = none) :
    ∃ is : List Instruction, items = is.map .whole ∧
      a.code.bytes = .ok (Code.ofInstructions is) := by
  have hwaits := h.references
  have hopenings := h.procedure
  rw [hreferences] at hwaits
  rw [hclosed] at hopenings
  obtain ⟨is, rfl⟩ := eq_whole_of_waits_nil hwaits.symm hopenings.symm
  refine ⟨is, rfl, ?_⟩
  rw [Draft.bytes, h.slots, slotsOf_whole, Draft.bytesFrom_known]

/-- What the end of a program should be.  The cases exclude each other, and the first thing that is
wrong is the one that is reported. -/
inductive Verdict (a : Assembler) : Except ImageError Image → Prop
  /-- A procedure has no end. -/
  | openProcedure (p : Procedure) (hopen : a.procedure? = some p) :
    Verdict a (.error (.openProcedure p.label))
  /-- No procedure is the main one. -/
  | noMainProcedure (hclosed : a.procedure? = none) (hmain : a.main? = none) :
    Verdict a (.error .noMainProcedure)
  /-- Of the labels that are used and not defined, the least is named. -/
  | undefinedLabel (main label : String) (hclosed : a.procedure? = none)
    (hmain : a.main? = some main) (hlacks : a.labels.Lacks label)
    (hleast : ∀ other, a.labels.Lacks other → label ≤ other) :
    Verdict a (.error (.undefinedLabel label))
  /-- The code has more bytes than sixteen bits can address. -/
  | codeTooLarge (main : String) (hclosed : a.procedure? = none) (hmain : a.main? = some main)
    (hdefined : ∀ label, ¬ a.labels.Lacks label) (hsize : 65536 < a.code.size) :
    Verdict a (.error (.codeTooLarge a.code.size))
  /-- Nothing is wrong. -/
  | image (main : String) (image : Image) (hclosed : a.procedure? = none)
    (hmain : a.main? = some main) (hdefined : ∀ label, ¬ a.labels.Lacks label)
    (hsize : a.code.size ≤ 65536) (hcode : image.code.length = a.code.size) :
    Verdict a (.ok image)

/-- A program that is laid out can be finished, and the outcome is what it should be.  There is no
case for a misuse, because filling the labels in succeeds. -/
theorem LaidOut.finish {a : Assembler} {items : List Item} (h : a.LaidOut items) :
    ∃ result b, Assembler.finish a = .ok result b ∧ a.Verdict result := by
  cases hopen : a.procedure? with
  | some p =>
    refine ⟨_, a, ?_, .openProcedure p hopen⟩
    rw [Assembler.finish, hopen]
  | none =>
    cases hmain : a.main? with
    | none =>
      refine ⟨_, a, ?_, .noMainProcedure hopen hmain⟩
      rw [Assembler.finish, hopen, hmain]
    | some main =>
      -- the label of the main procedure is defined, so it is never the one that is missing
      obtain ⟨startPc, haddress, -⟩ := h.main main hmain
      cases hundefined : a.labels.undefined? with
      | some label =>
        obtain ⟨hlacks, hleast⟩ := Labels.undefined?_eq_some_iff.mp hundefined
        refine ⟨_, a, ?_, .undefinedLabel main label hopen hmain hlacks hleast⟩
        rw [Assembler.finish, hopen, hmain]
        simp only [haddress, Labels.resolve, hundefined]
        rw [← hopen, ← hmain]
      | none =>
        have hdefined := Labels.not_lacks_of_undefined? hundefined
        obtain ⟨code, hfill, hlaid⟩ := h.resolving
        obtain ⟨is, -, hbytes⟩ := hlaid.bytes_eq rfl hopen
        have hsize : (a.resolved code).code.size = a.code.size := by
          rw [hlaid.size_eq, (inPlace_resolve a.labels).extent_map, h.size_eq]
        have hlength : (Code.ofInstructions is).length = a.code.size := by
          rw [← hsize, Draft.size_eq_length, Draft.slots_of_bytesFrom hbytes, List.length_map]
        refine ⟨_, _, finish_eq hopen hmain haddress hundefined hfill, ?_⟩
        by_cases hlarge : maxCode < a.code.size
        · rw [Assembler.image, hsize, if_pos hlarge]
          exact .codeTooLarge main hopen hmain hdefined hlarge
        · rw [Assembler.image, hsize, if_neg hlarge, hbytes]
          exact .image main _ hopen hmain hdefined (Nat.le_of_not_lt hlarge) hlength

end Assembler

/-! ### Filling never fails -/

namespace Assembler

open Item

/-- Leaving a procedure fills a hole.  It may be a misuse for other reasons, such as a frame that is
too large. -/
theorem LaidOut.exit {a : Assembler} {items : List Item} (h : a.LaidOut items) {label : String}
    {misuse : Misuse} {b : Assembler} (herror : Assembler.exit label a = .error misuse b) :
    misuse.isFilling = false := by
  rcases Action.bind_eq_error.mp herror with herror | ⟨⟨p, size⟩, c, hclose, herror⟩
  · exact (Asm.NeverClashes.close label herror).2
  · obtain ⟨hopen, -, rfl, rfl⟩ := close_eq_ok hclose
    rcases Action.bind_eq_error.mp herror with herror | ⟨_, c, -, herror⟩
    · -- the slot of the open procedure is a hole
      obtain ⟨code, hfill, -⟩ := h.closing hopen (UInt8.ofNat (UInt8.ofNat p.size).toNat)
      rw [fill, Draft.fill, Width.encode_s8_ofNat, hfill] at herror
      cases herror
    · rcases Action.bind_eq_error.mp herror with herror | ⟨_, c, -, herror⟩
      · obtain ⟨n, -, rfl⟩ := taken_of_define herror
        rfl
      · exact (Asm.NeverClashes.bind (.emit .exit) (fun _ => .emit .ret) herror).2

/-- No command fails because it fills what is no hole.  Only the ends of procedures and of programs
fill anything. -/
theorem LaidOut.run {a : Assembler} {items : List Item} (h : a.LaidOut items) {command : Command}
    {misuse : Misuse} {b : Assembler} (herror : command.run a = .error misuse b) :
    misuse.isFilling = false := by
  cases command with
  | exit label => exact h.exit herror
  | finish =>
    obtain ⟨result, c, hfinish, -⟩ := h.finish
    rcases Action.bind_eq_error.mp herror with herror | ⟨_, c, -, herror⟩
    · rw [hfinish] at herror
      cases herror
    · cases herror
  | _ =>
    -- all other commands fill nothing
    exact Bool.eq_false_iff.mpr fun hfilling =>
      absurd ((Command.misuse_of_run herror).2 hfilling) Bool.false_ne_true

/-- The holes of a program are the two bytes of each reference and the size of the open frame. -/
theorem LaidOut.holes_perm {a : Assembler} {items : List Item} (h : a.LaidOut items) :
    a.code.holes.Perm (a.labels.references.flatMap (fun r => [r.2, r.2 + 1]) ++
      a.procedure?.toList.map Procedure.sizeSlot) := by
  have hholes := holesIn_slotsOf 0 items
  simp only [Nat.zero_add, List.map_id'] at hholes
  rw [← h.slots, ← h.references, ← h.procedure] at hholes
  exact hholes.trans ((a.labels.references.reverse_perm.flatMap_right _).append_right _)

/-- **Every hole is accounted for.**  In every program that can be written, each hole is one of
the two bytes of one reference or the size of the open frame.  So filling holes never fails, and
finishing a program has exactly the outcome that it should have. -/
theorem holes_accounted {commands : List Command} {a : Assembler}
    (h : session commands .empty = .ok () a) :
    a.code.holes.Nodup ∧
      a.code.holes.Perm (a.labels.references.flatMap (fun r => [r.2, r.2 + 1]) ++
        a.procedure?.toList.map Procedure.sizeSlot) ∧
      (∀ (command : Command) (misuse : Misuse) (b : Assembler),
        command.run a = .error misuse b → misuse.isFilling = false) ∧
      ∃ result b, finish a = .ok result b ∧ a.Verdict result := by
  obtain ⟨items, hitems⟩ := laidOut_of_session h
  exact ⟨Draft.nodup_holes a.code, hitems.holes_perm, fun _ _ _ => hitems.run, hitems.finish⟩

/-- A procedure with two locals is open, and a jump out of it waits for its label. -/
theorem holes_accounted_forward_jump : ∃ a : Assembler,
    session [.enter "main" 0 true, .allocLocal 2, .jump "end", .compare .lt] .empty = .ok () a ∧
      a.code.holes.Perm [4, 5, 2] ∧ ∃ result b, finish a = .ok result b ∧ a.Verdict result := by
  have hsession : session [.enter "main" 0 true, .allocLocal 2, .jump "end", .compare .lt] .empty
      = .ok () {
          code := ⟨#[.known 48, .known 0, .hole, .known 39, .hole, .hole, .known 42, .known 0,
            .known 13, .known 15, .known 39, .known 0, .known 14, .known 16]⟩
          statics := .empty
          labels := ⟨[("main", 0)], [("end", 4)]⟩
          procedure? := some ⟨"main", 0, 2, 2⟩
          main? := some "main" } := by
    decide +kernel
  obtain ⟨-, hholes, -, hfinish⟩ := holes_accounted hsession
  exact ⟨_, hsession, hholes, hfinish⟩

end Assembler
end MJ
