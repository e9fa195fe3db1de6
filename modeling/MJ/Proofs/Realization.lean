import MJ.Proofs.Execution
import MJ.Proofs.Session

/-!
# What a finished image keeps of a program

Code that has been written does not change any more: whatever commands follow, a finished image
has all its bytes, the labels keep their addresses, and what was left open is filled in with the
addresses and sizes that turn out to be right.

## Main definitions

* `Draft.Extends` — a draft has all known bytes of another.
* `Assembler.RealizedBy` — an image is what a program under construction can become.

## Main results

* `Assembler.RealizedBy.of_effects` — what realizes a program also realizes it as it was before.
* `Assembler.realizedBy_of_finish` — a finished image realizes the program it was made from.
* `Assembler.RealizedBy.codeAt` — the code of the image at the place of the instructions that
  were emitted.
-/

namespace MJ

namespace Draft

/-! ### Drafts that grow -/

/-- A draft has all known bytes of another one, and is at least as long.  Holes may have been
filled. -/
def Extends (d d' : Draft) : Prop :=
  d.size ≤ d'.size ∧ ∀ (k : Nat) (b : UInt8),
    d.slots[k]? = some (.known b) → d'.slots[k]? = some (.known b)

theorem Extends.refl (d : Draft) : d.Extends d := ⟨Nat.le_refl _, fun _ _ h => h⟩

theorem Extends.trans {d d' d'' : Draft} (h : d.Extends d') (h' : d'.Extends d'') :
    d.Extends d'' :=
  ⟨Nat.le_trans h.1 h'.1, fun k b hb => h'.2 k b (h.2 k b hb)⟩

theorem extends_of_toList {d d' : Draft} {slots : List Slot}
    (h : d'.slots.toList = d.slots.toList ++ slots) : d.Extends d' := by
  constructor
  · rw [size_eq_length, size_eq_length, h, List.length_append]
    exact Nat.le_add_right _ _
  · intro k b hb
    rw [← Array.getElem?_toList] at hb ⊢
    have hk := (List.getElem?_eq_some_iff.mp hb).1
    rw [h, List.getElem?_append_left hk, hb]

theorem extends_append (d : Draft) (bs : List UInt8) : d.Extends (d.append bs) :=
  extends_of_toList (toList_append d bs)

theorem extends_emitHoles (d : Draft) (n : Nat) : d.Extends (d.emitHoles n) :=
  extends_of_toList (toList_emitHoles d n)

/-- Bytes that are filled in were not known, so that nothing known is overwritten. -/
theorem extends_fillBytes {d d' : Draft} {address : Nat} {bs : List UInt8}
    (h : d.fillBytes address bs = .ok d') : d.Extends d' := by
  obtain ⟨hsize, houtside, hinside⟩ := fillBytes_spec h
  refine ⟨Nat.le_of_eq hsize.symm, fun k b hb => ?_⟩
  by_cases hk : k < address ∨ address + bs.length ≤ k
  · rw [houtside k hk, hb]
  · -- a byte inside was a hole
    have hhole := (hinside (k - address) (by omega)).1
    rw [show address + (k - address) = k by omega, hb] at hhole
    cases hhole

theorem known_of_fillBytes {d d' : Draft} {address : Nat} {bs : List UInt8}
    (h : d.fillBytes address bs = .ok d') {k : Nat} (hk : k < bs.length) :
    d'.slots[address + k]? = bs[k]?.map Slot.known :=
  ((fillBytes_spec h).2.2 k hk).2

end Draft

namespace Labels

/-- Filling references in extends the code, and afterwards each has the address of its label.  By
induction on the references: what is filled in for one is known, and later ones keep it. -/
theorem fillAll_spec {t : Labels} {d d' : Draft} {references : List (String × Nat)}
    (h : t.fillAll d references = .ok d') :
    d.Extends d' ∧ ∀ r ∈ references, ∀ k, k < 2 → d'.slots[r.2 + k]?
      = (BigEndian.bytes 2 ((t.address? r.1).getD 0))[k]?.map Slot.known := by
  induction references generalizing d with
  | nil =>
    cases h
    exact ⟨.refl _, fun _ hr => nomatch hr⟩
  | cons r references ih =>
    obtain ⟨d₁, hfill, hothers⟩ := fillAll_cons_eq_ok.mp h
    rw [Width.encode_s16_ofNat] at hfill
    obtain ⟨hextends, hrest⟩ := ih hothers
    refine ⟨(Draft.extends_fillBytes hfill).trans hextends, ?_⟩
    intro r' hr k hk
    rcases List.mem_cons.mp hr with rfl | hr
    · have hlength : k < (BigEndian.bytes 2 ((t.address? r'.1).getD 0)).length := by
        rw [BigEndian.length_bytes]
        exact hk
      have hknown := Draft.known_of_fillBytes hfill hlength
      rw [List.getElem?_eq_getElem hlength] at hknown ⊢
      exact hextends.2 _ _ hknown
    · exact hrest r' hr k hk

end Labels

namespace Assembler

/-! ### Images that realize a program -/

/-- An image is what a program under construction can become, with the addresses of labels as in
`table`.  The conditions are about what is settled already, and so they hold at all earlier times if
they hold at the end. -/
structure RealizedBy (a : Assembler) (image : Image) (table : String → Option Nat) : Prop where
  /-- The image has all known bytes. -/
  code : ∀ (k : Nat) (b : UInt8),
    a.code.slots[k]? = some (.known b) → image.code[k]? = some b
  /-- The code of the image is at least as long. -/
  size : a.code.size ≤ image.code.length
  /-- The labels have their addresses. -/
  labels : ∀ label n, a.labels.address? label = some n → table label = some n
  /-- The references are filled in with the addresses of their labels. -/
  references : ∀ r ∈ a.labels.references, ∃ n, table r.1 = some n ∧
    Machine.CodeAt image.code.toArray r.2 (BigEndian.bytes 2 n)
  /-- The image has all data. -/
  statics : a.statics.bytes.toList <+: image.data
  /-- The frame of the open procedure is large enough. -/
  frame : ∀ p, a.procedure? = some p → ∃ b, image.code[p.sizeSlot]? = some b ∧ p.size ≤ b.toNat

namespace RealizedBy

variable {a b : Assembler} {image : Image} {table : String → Option Nat}

/-- The bytes of known slots stand in the image. -/
theorem codeAt_of_known (h : a.RealizedBy image table) {address : Nat} {bs : List UInt8}
    (hknown : ∀ k, k < bs.length → a.code.slots[address + k]? = bs[k]?.map Slot.known) :
    Machine.CodeAt image.code.toArray address bs := by
  intro k hk
  have hbyte := hknown k hk
  rw [List.getElem?_eq_getElem hk] at hbyte ⊢
  rw [List.getElem?_toArray]
  exact h.code _ _ hbyte

/-- Code that is extended is realized by what realizes the extension.  All effects on the code alone
are of this kind. -/
theorem of_extends (h : b.RealizedBy image table) (hcode : a.code.Extends b.code)
    (hlabels : ∀ label n, a.labels.address? label = some n → b.labels.address? label = some n)
    (hreferences : ∀ r ∈ a.labels.references, r ∈ b.labels.references)
    (hstatics : a.statics = b.statics) (hprocedure : a.procedure? = b.procedure?) :
    a.RealizedBy image table where
  code k byte hk := h.code k byte (hcode.2 k byte hk)
  size := Nat.le_trans hcode.1 h.size
  labels label n hlabel := h.labels label n (hlabels label n hlabel)
  references r hr := h.references r (hreferences r hr)
  statics := hstatics ▸ h.statics
  frame p hp := h.frame p (hprocedure ▸ hp)

/-- What realizes a program after an effect also realizes it as it was before.  One case for each
effect: two of them settle what was open, the size of a frame and the addresses of labels. -/
theorem of_effect (heffect : Effect a b) (h : b.RealizedBy image table) :
    a.RealizedBy image table := by
  cases heffect with
  | data bs hwords =>
    refine { h with statics := List.IsPrefix.trans ?_ h.statics }
    simp
  | frame p words hopen =>
    refine { h with frame := ?_ }
    intro q hq
    obtain rfl := Option.some.inj (hopen.symm.trans hq)
    obtain ⟨byte, hbyte, hle⟩ := h.frame _ rfl
    exact ⟨byte, hbyte, Nat.le_trans (Nat.le_add_right _ _) hle⟩
  | label label hnew =>
    refine h.of_extends (.refl _) ?_ (fun _ hr => hr) rfl rfl
    intro l n hl
    have hne : l ≠ label := by
      rintro rfl
      rw [hnew] at hl
      cases hl
    rw [address?_withLabel, if_neg hne, hl]
  | code is haccepts =>
    exact h.of_extends (Draft.extends_append _ _) (fun _ _ hl => hl) (fun _ hr => hr) rfl rfl
  | await t label hnew =>
    exact h.of_extends ((Draft.extends_append _ _).trans (Draft.extends_emitHoles _ _))
      (fun _ _ hl => hl) (fun _ hr => List.mem_cons_of_mem _ hr) rfl rfl
  | opening label params isMain hclosed hmain hlabel =>
    -- no procedure was open before, so nothing is said about a frame
    have hextends : a.code.Extends (a.opened label params isMain).code :=
      (Draft.extends_append _ _).trans (Draft.extends_emitHoles _ _)
    exact ⟨fun k byte hk => h.code k byte (hextends.2 k byte hk),
      Nat.le_trans hextends.1 h.size, h.labels, h.references, h.statics,
      fun p hp => nomatch hclosed.symm.trans hp⟩
  | closing p code hopen hsize hfill =>
    have hextends := Draft.extends_fillBytes hfill
    refine ⟨fun k byte hk => h.code k byte (hextends.2 k byte hk),
      Nat.le_trans hextends.1 h.size, h.labels, h.references, h.statics, ?_⟩
    intro q hq
    obtain rfl := Option.some.inj (hopen.symm.trans hq)
    -- the byte that is filled in is the size that the frame has now
    have hknown := Draft.known_of_fillBytes hfill (k := 0) Nat.one_pos
    have hbyte : (UInt8.ofNat p.size).toNat = p.size := by
      rw [UInt8.toNat_ofNat', Nat.mod_eq_of_lt (Nat.lt_succ_of_le hsize)]
    exact ⟨_, h.code _ _ hknown, Nat.le_of_eq hbyte.symm⟩
  | resolving code hdefined hfill =>
    obtain ⟨hextends, hfilled⟩ := Labels.fillAll_spec hfill
    refine ⟨fun k byte hk => h.code k byte (hextends.2 k byte hk),
      Nat.le_trans hextends.1 h.size, h.labels, ?_, h.statics, h.frame⟩
    -- references are only dropped when all of them are filled in
    intro r hr
    obtain ⟨n, hn⟩ : ∃ n, a.labels.address? r.1 = some n := by
      refine Option.ne_none_iff_exists'.mp fun hnone => ?_
      exact Labels.not_lacks_of_undefined? hdefined r.1 ⟨List.mem_map_of_mem hr, hnone⟩
    have hbytes := hfilled r (List.mem_reverse.mpr hr)
    rw [hn] at hbytes
    refine ⟨n, h.labels _ _ hn, h.codeAt_of_known ?_⟩
    intro k hk
    rw [BigEndian.length_bytes] at hk
    exact hbytes k hk

/-- **What realizes a program also realizes it as it was before**, by induction on the effects in
between. -/
theorem of_effects (heffects : Effects a b) (h : b.RealizedBy image table) :
    a.RealizedBy image table := by
  induction heffects with
  | refl => exact h
  | tail _ heffect ih => exact ih (of_effect heffect h)

/-- The slots at the end of a draft are those of the bytes that were appended. -/
theorem known_of_append (d : Draft) (bs : List UInt8) (k : Nat) :
    (d.append bs).slots[d.size + k]? = bs[k]?.map Slot.known := by
  rw [← Array.getElem?_toList, Draft.toList_append, Draft.size_eq_length,
    List.getElem?_append_right (Nat.le_add_right _ _), Nat.add_sub_cancel_left, List.getElem?_map]

/-- Instructions that were emitted stand in the image, at the address where the code ended then. -/
theorem codeAt {is : List Instruction} (h : (a.append is).RealizedBy image table) :
    Machine.CodeAt image.code.toArray a.code.size (Code.ofInstructions is) :=
  h.codeAt_of_known fun k _ => known_of_append a.code _ k

/-- An instruction that waits for a label stands in the image with the address of the label. -/
theorem codeAt_await {t : Transfer} {label : String}
    (h : (a.await t label).RealizedBy image table) : ∃ n, table label = some n ∧
      Machine.CodeAt image.code.toArray a.code.size (t.instruction n).bytes := by
  obtain ⟨n, htable, haddress⟩ := h.references (label, a.code.size + 1) List.mem_cons_self
  refine ⟨n, htable, ?_⟩
  rw [Transfer.bytes_instruction, ← List.singleton_append, Machine.codeAt_append]
  refine ⟨h.codeAt_of_known fun k hk => ?_, haddress⟩
  have hknown := known_of_append a.code [t.opcode.byte] k
  rw [List.getElem?_eq_getElem hk] at hknown ⊢
  exact (Draft.extends_emitHoles _ 2).2 _ _ hknown

/-- The start of a procedure stands in the image with the size of the frame.  This byte was a hole
at first; what it is in the image is a hypothesis here. -/
theorem codeAt_opened {label : String} {params : Nat} {isMain : Bool} {size : UInt8}
    (h : (a.opened label params isMain).RealizedBy image table)
    (hsize : image.code[a.code.size + 2]? = some size) :
    Machine.CodeAt image.code.toArray a.code.size
      (Instruction.enter (UInt8.ofNat params) size).bytes := by
  have hbytes : (Instruction.enter (UInt8.ofNat params) size).bytes
      = [Opcode.enter.byte, UInt8.ofNat params] ++ [size] := rfl
  rw [hbytes, Machine.codeAt_append]
  refine ⟨h.codeAt_of_known fun k hk => ?_, fun k hk => ?_⟩
  · have hknown := known_of_append a.code [Opcode.enter.byte, UInt8.ofNat params] k
    rw [List.getElem?_eq_getElem hk] at hknown ⊢
    exact (Draft.extends_emitHoles _ 1).2 _ _ hknown
  · obtain rfl : k = 0 := Nat.lt_one_iff.mp hk
    rw [List.getElem?_toArray]
    exact hsize

/-- An instruction with a label stands in the image with the address of the label, whether the
label was defined before or not. -/
theorem codeAt_emitLabel {t : Transfer} {label : String}
    (hemit : emitLabel t.opcode label a = .ok () b) (h : b.RealizedBy image table) :
    ∃ n, table label = some n ∧
      Machine.CodeAt image.code.toArray a.code.size (t.instruction n).bytes ∧
      b.code.size = a.code.size + 3 := by
  cases hlabel : a.labels.address? label with
  | some n =>
    obtain rfl := emitLabel_of_address t hlabel hemit
    have hcode := h.codeAt
    have hsize := size_append a [t.instruction n]
    rw [Code.ofInstructions_cons, Code.ofInstructions_nil, List.append_nil] at hcode hsize
    rw [Instruction.length_bytes, Transfer.size_instruction] at hsize
    exact ⟨n, h.labels label n hlabel, hcode, hsize⟩
  | none =>
    -- the address is not known here; that the image has it there is what `RealizedBy` says
    rw [emitLabel_of_none t hlabel] at hemit
    obtain ⟨-, rfl⟩ := EStateM.Result.ok.inj hemit
    obtain ⟨n, htable, hcode⟩ := h.codeAt_await
    refine ⟨n, htable, hcode, ?_⟩
    rw [await, Draft.size_emitHoles, Draft.size_append]
    rfl

end RealizedBy

/-- **A finished image realizes the program it was made from.**  By the lemma on effects, this need
only be seen of the program in which all labels are filled in. -/
theorem realizedBy_of_finish {a b : Assembler} {image : Image}
    (h : finish a = .ok (.ok image) b) : a.RealizedBy image b.labels.address? := by
  refine RealizedBy.of_effects (Command.finish.regular_answering rfl h) ?_
  obtain ⟨main, startPc, code, hclosed, -, -, -, rfl, himage⟩ := finish_eq_ok h
  obtain ⟨-, bs, hbytes, rfl⟩ := image_eq_ok himage
  have hslots := Draft.slots_of_bytesFrom hbytes
  -- nothing is open any more, so that the image only has to have the bytes of the code
  refine ⟨?_, ?_, fun _ _ hlabel => hlabel, ?_, List.prefix_rfl, ?_⟩
  · intro k byte hk
    rw [← Array.getElem?_toList, hslots, List.getElem?_map] at hk
    obtain ⟨c, hc, hbyte⟩ := Option.map_eq_some_iff.mp hk
    rw [← Slot.known.inj hbyte]
    exact hc
  · rw [Draft.size_eq_length, hslots, List.length_map]
    exact Nat.le_refl _
  · intro r hr
    cases hr
  · intro p hp
    cases hclosed.symm.trans hp

end Assembler
end MJ
