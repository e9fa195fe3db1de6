import MJ.Proofs.References

/-!
# Drafts are written once

A caller appends code, fills holes and has labels filled in, in any order.  Whatever the order,
what has been written stays as it is: a draft only grows, a byte that is known is known for good,
and a hole becomes the byte of the one patch that covers it.

## Main definitions

* `Patch`, `Patch.bytesAt` — bytes that are filled in, and what they put at an address.
* `Workbench`, `Edit` — a draft with its labels, and what a caller does with them.
* `Draft.Written` — a draft is a list of slots with patches in it, at most one at an address.

## Main results

* `Draft.Written.trans` — patches that follow each other do not overlap.
* `Edit.written_run`, `Edit.written_runAll` — what an edit emits and patches, and what a sequence of
  edits does.
* `Edit.draft_written_once` — **code is appended and written once.**
-/

namespace MJ

/-! ### Patches -/

/-- Bytes that are filled in, one after the other from an address on. -/
structure Patch where
  /-- Where the first byte goes. -/
  address : Nat
  /-- The bytes. -/
  bytes : List UInt8
  deriving DecidableEq, Repr

namespace Patch

/-- The byte that a patch puts at an address, if it covers the address. -/
def byte? (p : Patch) (k : Nat) : Option UInt8 :=
  if k < p.address then none else p.bytes[k - p.address]?

/-- The bytes that patches put at an address, one for each patch that covers it.  That there is at
most one is what writing once means. -/
def bytesAt (patches : List Patch) (k : Nat) : List UInt8 := patches.filterMap (·.byte? k)

@[simp] theorem bytesAt_nil (k : Nat) : bytesAt [] k = [] := rfl

@[simp] theorem bytesAt_append (ps qs : List Patch) (k : Nat) :
    bytesAt (ps ++ qs) k = bytesAt ps k ++ bytesAt qs k :=
  List.filterMap_append

theorem bytesAt_singleton (p : Patch) (k : Nat) : bytesAt [p] k = (p.byte? k).toList := by
  cases h : p.byte? k <;> simp [bytesAt, h]

theorem byte?_add (p : Patch) (i : Nat) : p.byte? (p.address + i) = p.bytes[i]? := by
  rw [byte?, if_neg (by omega), Nat.add_sub_cancel_left]

/-- A patch covers as many addresses as it has bytes. -/
theorem byte?_eq_none_iff {p : Patch} {k : Nat} :
    p.byte? k = none ↔ k < p.address ∨ p.address + p.bytes.length ≤ k := by
  by_cases hk : k < p.address
  · simp [byte?, hk]
  · rw [byte?, if_neg hk, List.getElem?_eq_none_iff]
    omega

end Patch

/-! ### Edits -/

/-- A draft and the labels that it is written with.  The labels of several drafts may be in use in
turn, and so they are not tied to the draft. -/
structure Workbench where
  /-- The code. -/
  code : Draft
  /-- The table of labels at hand. -/
  labels : Labels
  deriving DecidableEq, Repr

/-- What a caller does with a draft and with labels.  The addresses need not be sensible: filling
what is no hole is an edit that fails. -/
inductive Edit where
  /-- Appends an opcode. -/
  | emit (op : Opcode)
  /-- Appends the operand bytes of a word. -/
  | emitOperand (v : Word) (w : Width)
  /-- Appends holes. -/
  | emitHoles (n : Nat)
  /-- Fills holes with the operand bytes of a word. -/
  | fill (address : Nat) (v : Word) (w : Width)
  /-- Defines a label. -/
  | define (label : String) (address : Nat)
  /-- Notes that two bytes wait for a label. -/
  | refer (label : String) (address : Nat)
  /-- Goes on with another table of labels. -/
  | turnTo (table : Labels)
  /-- Fills in all labels that are waited for. -/
  | resolve
  deriving DecidableEq, Repr

namespace Workbench

/-- The workbench without anything on it. -/
def empty : Workbench := ⟨.empty, .empty⟩

/-- Takes `n` slots more into use, if they can be addressed. -/
def grow (s : Workbench) (n : Nat) (code : Draft) : Except Misuse Workbench :=
  if s.code.hasRoom n then .ok { s with code := code } else .error .sizeOverflow

/-- Fills in all labels that are waited for. -/
def resolve (s : Workbench) : Except Misuse (Except ImageError Unit × Workbench) := do
  let (result, labels, code) ← s.labels.resolve s.code
  .ok (result, ⟨code, labels⟩)

end Workbench

/-- What is filled in for a reference: the address of the label in two bytes. -/
def Labels.patch (t : Labels) (reference : String × Nat) : Patch :=
  ⟨reference.2, Width.s16.encode (Int32.ofNat ((t.address? reference.1).getD 0))⟩

namespace Edit

/-- Carries an edit out; its answer, if any, does not matter to the workbench. -/
def run : Edit → Workbench → Except Misuse Workbench
  | emit op, s => s.grow 1 (s.code.emit op)
  | emitOperand v w, s => s.grow w.size (s.code.emitOperand v w)
  | emitHoles n, s => s.grow n (s.code.emitHoles n)
  | fill address v w, s => do
    let code ← s.code.fill address v w
    .ok { s with code := code }
  | define label address, s => do
    let labels ← s.labels.define label address
    .ok { s with labels := labels }
  | refer label address, s => .ok { s with labels := s.labels.refer label address }
  | turnTo table, s => .ok { s with labels := table }
  | resolve, s => do
    let result ← s.resolve
    .ok result.2

/-- The slots that an edit appends. -/
def emitted : Edit → List Slot
  | emit op => [.known op.byte]
  | emitOperand v w => (w.encode v).map .known
  | emitHoles n => List.replicate n .hole
  | _ => []

/-- The patches that an edit makes.  A request for all labels makes one for each reference, or none
if a label is missing. -/
def patches : Edit → Workbench → List Patch
  | fill address v w, _ => [⟨address, w.encode v⟩]
  | resolve, s =>
    if s.labels.undefined?.isNone then s.labels.references.reverse.map s.labels.patch else []
  | _, _ => []

/-- Carries out one edit after the other, and tells the patches that they make. -/
def runAll : List Edit → Workbench → Except Misuse (List Patch × Workbench)
  | [], s => .ok ([], s)
  | edit :: edits, s => do
    let s₁ ← edit.run s
    let rest ← runAll edits s₁
    .ok (edit.patches s ++ rest.1, rest.2)

end Edit

/-- The slots of a workbench and those that edits append, all as they were emitted. -/
def Workbench.emitted (s : Workbench) (edits : List Edit) : List Slot :=
  s.code.slots.toList ++ edits.flatMap Edit.emitted

/-! ### Drafts with patches -/

namespace Draft

/-- A draft is a list of slots with patches in it: at most one patch covers an address, and what it
covers was a hole. -/
def Written (slots : List Slot) (patches : List Patch) (d : Draft) : Prop :=
  ∀ k : Nat, (Patch.bytesAt patches k = [] ∧ d.slots[k]? = slots[k]?) ∨
    ∃ b, Patch.bytesAt patches k = [b] ∧ slots[k]? = some .hole ∧ d.slots[k]? = some (.known b)

namespace Written

variable {slots more : List Slot} {ps qs : List Patch} {d d' : Draft}

theorem of_toList (h : d.slots.toList = slots) : d.Written slots [] := by
  intro k
  rw [← h]
  simp

/-- Patches add no slots, as there is a slot before at each address that has one after. -/
theorem size_eq (h : d.Written slots ps) : d.size = slots.length := by
  have hnone : ∀ k : Nat, d.size ≤ k ↔ slots.length ≤ k := by
    intro k
    rw [size, ← Array.getElem?_eq_none_iff, ← List.getElem?_eq_none_iff]
    rcases h k with ⟨-, hsame⟩ | ⟨b, -, hhole, hknown⟩
    · rw [hsame]
    · simp [hhole, hknown]
  exact Nat.le_antisymm ((hnone _).mpr (Nat.le_refl _)) ((hnone _).mp (Nat.le_refl _))

/-- A draft that is patched, extended and patched again: what the first patches wrote is not
covered by the second ones.  This is the step of the induction on edits. -/
theorem trans (h : d.Written slots ps) (h' : d'.Written (d.slots.toList ++ more) qs) :
    d'.Written (slots ++ more) (ps ++ qs) := by
  have hlength : d.slots.toList.length = slots.length := by
    rw [← size_eq_length, h.size_eq]
  intro k
  rw [Patch.bytesAt_append]
  rcases h k with ⟨hps, hsame⟩ | ⟨b, hps, hhole, hknown⟩
  · have hbefore : (d.slots.toList ++ more)[k]? = (slots ++ more)[k]? := by
      rw [List.getElem?_append, List.getElem?_append, hlength, Array.getElem?_toList, hsame]
    rw [← hbefore, hps]
    exact h' k
  · -- the slot is known after the first patches, so that none of the second ones covers it
    have hlt : k < slots.length := (List.getElem?_eq_some_iff.mp hhole).1
    have hbefore : (d.slots.toList ++ more)[k]? = some (.known b) := by
      rw [List.getElem?_append_left (by omega), Array.getElem?_toList, hknown]
    rcases h' k with ⟨hqs, hsame⟩ | ⟨c, -, hhole', -⟩
    · refine Or.inr ⟨b, ?_, ?_, hsame.trans hbefore⟩
      · rw [hps, hqs, List.append_nil]
      · rw [List.getElem?_append_left hlt, hhole]
    · rw [hbefore] at hhole'
      cases hhole'

theorem patched (h : d.Written slots ps) (h' : d'.Written d.slots.toList qs) :
    d'.Written slots (ps ++ qs) := by
  rw [← List.append_nil d.slots.toList] at h'
  rw [← List.append_nil slots]
  exact h.trans h'

/-- Filling holes makes one patch: the bytes it covers were holes, and all others are the same. -/
theorem of_fillBytes {address : Nat} {bs : List UInt8} (h : d.fillBytes address bs = .ok d') :
    d'.Written d.slots.toList [⟨address, bs⟩] := by
  obtain ⟨-, houtside, hinside⟩ := fillBytes_spec h
  intro k
  rw [Patch.bytesAt_singleton, Array.getElem?_toList]
  by_cases hk : k < address ∨ address + bs.length ≤ k
  · rw [Patch.byte?_eq_none_iff.mpr hk]
    exact Or.inl ⟨rfl, houtside k hk⟩
  · obtain ⟨i, rfl⟩ : ∃ i, k = address + i := ⟨k - address, by omega⟩
    have hi : i < bs.length := by omega
    obtain ⟨hhole, hknown⟩ := hinside i hi
    rw [Patch.byte?_add ⟨address, bs⟩ i, List.getElem?_eq_getElem hi]
    rw [List.getElem?_eq_getElem hi] at hknown
    exact Or.inr ⟨_, rfl, hhole, hknown⟩

/-- Filling references in makes a patch for each of them, in the order in which they are filled in.
-/
theorem of_fillAll {t : Labels} {references : List (String × Nat)}
    (h : t.fillAll d references = .ok d') :
    d'.Written d.slots.toList (references.map t.patch) := by
  induction references generalizing d with
  | nil =>
    cases h
    exact .of_toList rfl
  | cons r references ih =>
    obtain ⟨d₁, hfill, hrest⟩ := Labels.fillAll_cons_eq_ok.mp h
    exact (of_fillBytes hfill).patched (ih hrest)

end Written

end Draft

namespace Workbench

/-- A request for all labels that fails changes nothing; one that succeeds leaves no references. -/
theorem resolve_eq_ok_iff {s s' : Workbench} {result : Except ImageError Unit} :
    s.resolve = .ok (result, s') ↔
      (∃ label, s.labels.undefined? = some label ∧ result = .error (.undefinedLabel label) ∧
        s' = s) ∨
      (s.labels.undefined? = none ∧ ∃ code,
        s.labels.fillAll s.code s.labels.references.reverse = .ok code ∧ result = .ok () ∧
        s' = ⟨code, { s.labels with references := [] }⟩) := by
  constructor
  · intro h
    obtain ⟨⟨r, labels, code⟩, hresolve, hanswer⟩ := Action.except_bind_eq_ok.mp h
    cases hanswer
    rcases Labels.resolve_eq_ok_iff.mp hresolve with
      ⟨label, hlabel, rfl, rfl, rfl⟩ | ⟨hnone, hfill, rfl, rfl⟩
    · exact Or.inl ⟨label, hlabel, rfl, rfl⟩
    · exact Or.inr ⟨hnone, code, hfill, rfl, rfl⟩
  · rintro (⟨label, hlabel, rfl, rfl⟩ | ⟨hnone, code, hfill, rfl, rfl⟩)
    · refine Action.except_bind_eq_ok.mpr ⟨(_, s'.labels, s'.code), ?_, rfl⟩
      exact Labels.resolve_eq_ok_iff.mpr (Or.inl ⟨label, hlabel, rfl, rfl, rfl⟩)
    · refine Action.except_bind_eq_ok.mpr ⟨(_, { s.labels with references := [] }, code), ?_, rfl⟩
      exact Labels.resolve_eq_ok_iff.mpr (Or.inr ⟨hnone, hfill, rfl, rfl⟩)

theorem grow_eq_ok {s s' : Workbench} {n : Nat} {code : Draft} (h : s.grow n code = .ok s') :
    s' = { s with code := code } := by
  rw [grow] at h
  split at h
  · exact (Except.ok.inj h).symm
  · cases h

end Workbench

namespace Edit

/-! ### What edits do to a draft -/

/-- An edit appends what it emits, and then makes its patches.  No edit does both, so the order is a
matter of the statement only. -/
theorem written_run (edit : Edit) {s s' : Workbench} (h : edit.run s = .ok s') :
    s'.code.Written (s.code.slots.toList ++ edit.emitted) (edit.patches s) := by
  cases edit with
  | emit op =>
    rw [Workbench.grow_eq_ok h]
    exact .of_toList (Draft.toList_append _ _)
  | emitOperand v w =>
    rw [Workbench.grow_eq_ok h]
    exact .of_toList (Draft.toList_append _ _)
  | emitHoles n =>
    rw [Workbench.grow_eq_ok h]
    exact .of_toList (Draft.toList_emitHoles _ _)
  | fill address v w =>
    obtain ⟨code, hfill, hs⟩ := Action.except_bind_eq_ok.mp h
    cases hs
    show code.Written (s.code.slots.toList ++ []) _
    rw [List.append_nil]
    exact .of_fillBytes hfill
  | define label address =>
    obtain ⟨labels, -, hs⟩ := Action.except_bind_eq_ok.mp h
    cases hs
    exact .of_toList (List.append_nil _).symm
  | refer label address =>
    cases h
    exact .of_toList (List.append_nil _).symm
  | turnTo table =>
    cases h
    exact .of_toList (List.append_nil _).symm
  | resolve =>
    obtain ⟨⟨result, s₁⟩, hresolve, hs⟩ := Action.except_bind_eq_ok.mp h
    cases hs
    show s₁.code.Written (s.code.slots.toList ++ []) (patches .resolve s)
    rw [List.append_nil, patches]
    -- a request for all labels makes no patch if one is missing
    rcases Workbench.resolve_eq_ok_iff.mp hresolve with ⟨label, hlabel, -, rfl⟩ |
      ⟨hnone, code, hfill, -, rfl⟩
    · rw [hlabel]
      exact .of_toList rfl
    · rw [hnone]
      exact .of_fillAll hfill

/-- Edits append what they emit and make their patches, and no patch covers what another wrote.  By
induction on the edits. -/
theorem written_runAll {edits : List Edit} {s s' : Workbench} {patches : List Patch}
    (h : runAll edits s = .ok (patches, s')) : s'.code.Written (s.emitted edits) patches := by
  induction edits generalizing s patches with
  | nil =>
    cases h
    exact .of_toList (List.append_nil _).symm
  | cons edit edits ih =>
    obtain ⟨s₁, hrun, hrest⟩ := Action.except_bind_eq_ok.mp h
    obtain ⟨⟨later, s₂⟩, hlater, hs⟩ := Action.except_bind_eq_ok.mp hrest
    cases hs
    rw [Workbench.emitted, List.flatMap_cons, ← List.append_assoc]
    exact (written_run edit hrun).trans (ih hlater)

/-- **Code is appended and written once.**  After any edits the code has the slots that were there
and those that were emitted since.  A byte that was known is what it was and no patch covers it, and
a hole is a hole still or the byte of the one patch that covers it.  A word can be filled in unless
one of its bytes is known or lies after the end, and the first such byte is named.  When labels are
missing, the least of them is named and nothing changes; otherwise the order of the references does
not matter.  Code can be finished unless there is a hole, and the first one is named. -/
theorem draft_written_once {edits : List Edit} {s s' : Workbench} {patches : List Patch}
    (h : runAll edits s = .ok (patches, s')) :
    s'.code.size = s.code.size + (edits.flatMap emitted).length ∧
    (∀ (k : Nat) (b : UInt8), (s.emitted edits)[k]? = some (.known b) →
      Patch.bytesAt patches k = [] ∧ s'.code.slots[k]? = some (.known b)) ∧
    (∀ k : Nat, (s.emitted edits)[k]? = some .hole →
      (Patch.bytesAt patches k = [] ∧ s'.code.slots[k]? = some .hole) ∨
      ∃ b, Patch.bytesAt patches k = [b] ∧ s'.code.slots[k]? = some (.known b)) ∧
    (∀ address v w,
      ((∃ misuse, s'.code.fill address v w = .error misuse) ↔
        ∃ k, address ≤ k ∧ k < address + w.size ∧
          ((∃ b, s'.code.slots[k]? = some (.known b)) ∨ s'.code.size ≤ k)) ∧
      ∀ misuse, s'.code.fill address v w = .error misuse →
        ∃ i, i < w.size ∧ (∀ j, j < i → s'.code.slots[address + j]? = some .hole) ∧
          s'.code.Refuses (address + i) misuse) ∧
    (∀ cause s'', s'.resolve = .ok (.error cause, s'') ↔
      s'' = s' ∧ ∃ label, cause = .undefinedLabel label ∧ s'.labels.Lacks label ∧
        ∀ other, s'.labels.Lacks other → label ≤ other) ∧
    (∀ table result t d, Labels.Reorders table s'.labels →
      ((∃ t', t'.Reorders t ∧ table.resolve s'.code = .ok (result, t', d)) ↔
        ∃ t', t'.Reorders t ∧ s'.labels.resolve s'.code = .ok (result, t', d))) ∧
    ((∃ cause, s'.code.bytes = .error cause) ↔ ∃ k : Nat, s'.code.slots[k]? = some .hole) ∧
    (∀ cause, s'.code.bytes = .error cause →
      ∃ k : Nat, cause = .unfilledHole k ∧ s'.code.slots[k]? = some .hole ∧
        ∀ j : Nat, s'.code.slots[j]? = some .hole → k ≤ j) ∧
    ∀ bs, s'.code.bytes = .ok bs → s'.code.slots.toList = bs.map Slot.known := by
  -- the first three parts are what was written, and the others hold of any workbench
  have hwritten := written_runAll h
  refine ⟨?_, ?_, ?_, ?_, ?_, ?_, Draft.bytes_eq_error_iff, ?_, fun _ => Draft.slots_of_bytesFrom⟩
  · rw [hwritten.size_eq, Workbench.emitted, List.length_append, ← Draft.size_eq_length]
  · intro k b hknown
    rcases hwritten k with ⟨hnone, hsame⟩ | ⟨c, -, hhole, -⟩
    · exact ⟨hnone, hsame.trans hknown⟩
    · cases hknown.symm.trans hhole
  · intro k hhole
    rcases hwritten k with ⟨hnone, hsame⟩ | ⟨b, hone, -, hknown⟩
    · exact Or.inl ⟨hnone, hsame.trans hhole⟩
    · exact Or.inr ⟨b, hone, hknown⟩
  · intro address v w
    refine ⟨Draft.fill_eq_error_iff, ?_⟩
    intro misuse hfill
    obtain ⟨i, hi, hfirst⟩ := Draft.refuses_of_fillBytes hfill
    rw [Width.length_encode] at hi
    exact ⟨i, hi, hfirst⟩
  · intro cause s''
    rw [Workbench.resolve_eq_ok_iff]
    constructor
    · rintro (⟨label, hlabel, hcause, rfl⟩ | ⟨-, -, -, hcause, -⟩)
      · exact ⟨rfl, label, Except.error.inj hcause, Labels.undefined?_eq_some_iff.mp hlabel⟩
      · cases hcause
    · rintro ⟨rfl, label, rfl, hlabel⟩
      exact Or.inl ⟨label, Labels.undefined?_eq_some_iff.mpr hlabel, rfl, rfl⟩
  · intro table result t d htable
    exact htable.resolve_iff
  · intro cause hbytes
    obtain ⟨k, hcause, hhole, hfirst⟩ := Draft.bytesFrom_eq_error hbytes
    simp only [Nat.zero_add, Array.getElem?_toList] at hcause hhole hfirst
    exact ⟨k, hcause, hhole, hfirst⟩

/-- A jump whose target is missing at first, two bytes that are filled in beside it, and two labels
that are never defined. -/
def jumpEdits : List Edit :=
  [.emit .jmp, .emitHoles 2, .refer "end" 1, .emitHoles 3, .fill 3 258 .s16, .resolve, .emit .ret,
    .define "end" 6, .resolve, .refer "late" 5, .refer "again" 5]

/-- What these edits lead to. -/
def jumpBench : Workbench where
  code := ⟨#[.known 39, .known 0, .known 6, .known 1, .known 2, .hole, .known 47]⟩
  labels := ⟨[("end", 6)], [("again", 5), ("late", 5)]⟩

/-- The bytes of the jump are those of the second request for labels, the byte at 4 cannot be filled
in again, and the hole at 5 is in the way of a finished code. -/
theorem draft_written_once_jump :
    runAll jumpEdits .empty = .ok ([⟨3, [1, 2]⟩, ⟨1, [0, 6]⟩], jumpBench) ∧
    jumpBench.code.size = 7 ∧
    (∃ b, Patch.bytesAt [⟨3, [1, 2]⟩, ⟨1, [0, 6]⟩] 2 = [b] ∧
      jumpBench.code.slots[2]? = some (.known b)) ∧
    (∃ misuse, jumpBench.code.fill 4 0 .s16 = .error misuse) ∧
    jumpBench.resolve = .ok (.error (.undefinedLabel "again"), jumpBench) ∧
    ∃ cause, jumpBench.code.bytes = .error cause := by
  have hrun : runAll jumpEdits .empty = .ok ([⟨3, [1, 2]⟩, ⟨1, [0, 6]⟩], jumpBench) := by rfl
  obtain ⟨hsize, -, hholes, hfill, hresolve, -, hbytes, -⟩ := draft_written_once hrun
  refine ⟨hrun, hsize, (hholes 2 rfl).resolve_left (by decide),
    (hfill 4 0 .s16).1.mpr ⟨4, by decide, by decide, Or.inl ⟨2, rfl⟩⟩,
    (hresolve _ _).mpr ⟨rfl, "again", rfl, ?_, ?_⟩, hbytes.mpr ⟨5, rfl⟩⟩
  · exact ⟨by decide, rfl⟩
  · rintro other ⟨hother, -⟩
    simp only [jumpBench, List.map_cons, List.map_nil, List.mem_cons, List.not_mem_nil,
      or_false] at hother
    rcases hother with rfl | rfl
    · exact String.le_refl _
    · decide

end Edit
end MJ
