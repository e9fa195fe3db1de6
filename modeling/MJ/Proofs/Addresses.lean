import MJ.Proofs.NameTable
import MJ.Proofs.Resolution

/-!
# Addresses in sixteen bits

Finished code has at most 65536 bytes, so the address of every byte fits sixteen bits.  A label or
the end of a comparison may stand after the last byte, though: in code of 65536 bytes its address
is stored as 0.  That is the only address that is not stored as it is.

## Main definitions

* `Image.StoresAs` — how an address is stored.
* `Assembler.Command.compares` — the commands that turn a comparison into a word.

## Main results

* `Assembler.addresses_stored` — **every address in a finished image and in its label map is
  exact, but for the end of 65536 bytes of code.**
* `Assembler.end_of_code_wraps` — a label at that end is listed with the address 0.
-/

namespace MJ

/-- The number that stands for a code address: the address itself, unless it is the end of code
that takes up all addresses. -/
def Image.StoresAs (image : Image) (address stored : Nat) : Prop :=
  stored = address ∨ (address = 65536 ∧ image.code.length = 65536 ∧ stored = 0)

/-- Sixteen bits hold the addresses of all bytes, and all but one end of the code. -/
theorem Image.storesAs_mod {image : Image} (hsize : image.code.length ≤ 65536) {address : Nat}
    (haddress : address ≤ image.code.length) : image.StoresAs address (address % 65536) := by
  unfold StoresAs
  omega

/-- Two bytes of code and the address that was stored there.  The bytes keep the address up to
multiples of 65536. -/
theorem Image.storesAs_of_codeAt {image : Image} (hsize : image.code.length ≤ 65536)
    {slot address : Nat} (haddress : address ≤ image.code.length)
    (h : Machine.CodeAt image.code.toArray slot (BigEndian.bytes 2 address)) :
    image.StoresAs address (BigEndian.value ((image.code.drop slot).take 2)) := by
  have hbytes : (image.code.drop slot).take 2 = BigEndian.bytes 2 address :=
    Assembler.take_of_codeAt h
  have hvalue : BigEndian.value (BigEndian.bytes 2 address) = address % 65536 :=
    BigEndian.value_bytes 2 address
  rw [hbytes, hvalue]
  exact storesAs_mod hsize haddress

/-- In a table without repetitions, the entries are the addresses of the labels. -/
theorem Labels.address?_eq_some {t : Labels} (hnodup : (t.defined.map Prod.fst).Nodup)
    {label : String} {n : Nat} : t.address? label = some n ↔ (label, n) ∈ t.defined :=
  NameTable.lookup_eq_some hnodup

namespace Assembler

/-! ### Where labels stand -/

/-- Labels stand in the code or at its end: each is defined at the end, and the code only grows. -/
theorem address_le_size {a : Assembler} (h : Effects .empty a) {label : String} {n : Nat}
    (hlabel : a.labels.address? label = some n) : n ≤ a.code.size := by
  obtain ⟨items, hitems⟩ := laidOut_of_effects h
  obtain ⟨items₁, items₂, rfl, rfl⟩ := hitems.labels label n hlabel
  rw [hitems.size_eq, Item.extent_append]
  exact Nat.le_add_right _ _

/-- The main procedure starts in the code and not at its end, since there is an instruction at the
start of every procedure. -/
theorem main_lt_size {a : Assembler} (h : Effects .empty a) {main : String} {n : Nat}
    (hmain : a.main? = some main) (hlabel : a.labels.address? main = some n) :
    n < a.code.size := by
  obtain ⟨items, hitems⟩ := laidOut_of_effects h
  obtain ⟨m, hm, items₁, item, items₂, rfl, rfl, henter⟩ := hitems.main main hmain
  obtain rfl := Option.some.inj (hlabel.symm.trans hm)
  have hpos : 0 < item.size := by
    cases item with
    | whole i =>
      rw [Item.size_whole]
      exact i.size_pos
    | waiting t label => exact Nat.succ_pos 2
    | opening params => exact Nat.succ_pos 2
  rw [hitems.size_eq, Item.extent_append, Item.extent_cons]
  omega

/-- No label is defined twice: to define it again is a misuse.  By induction on the effects. -/
theorem nodup_defined {a : Assembler} (h : Effects .empty a) :
    (a.labels.defined.map Prod.fst).Nodup := by
  induction h with
  | refl => exact List.nodup_nil
  | @tail b c _ heffect ih =>
    cases heffect with
    | label other hnew =>
      refine List.nodup_cons.mpr ⟨fun hmem => ?_, ih⟩
      obtain ⟨entry, hentry, rfl⟩ := List.mem_map.mp hmem
      exact absurd (List.lookup_eq_none_iff.mp hnew entry hentry) (by simp)
    | data | frame | code | await | opening | closing | resolving => exact ih

/-- A label is defined once, so its entry tells its address. -/
theorem address?_of_mem_defined {a : Assembler} (h : Effects .empty a) {label : String} {n : Nat}
    (hmem : (label, n) ∈ a.labels.defined) : a.labels.address? label = some n :=
  (Labels.address?_eq_some (nodup_defined h)).mpr hmem

/-- Finishing a program moves no label. -/
theorem defined_of_finish {a b : Assembler} {result : Except ImageError Image}
    (h : finish a = .ok result b) : b.labels.defined = a.labels.defined ∧ b.main? = a.main? := by
  rcases finish_cases h with ⟨rfl, -⟩ | ⟨_, _, code, -, -, -, -, -, rfl, -⟩
  · exact ⟨rfl, rfl⟩
  · exact ⟨rfl, rfl⟩

/-! ### Comparisons -/

/-- Whether a command turns a comparison into a word. -/
def Command.compares : Command → Bool
  | compare _ | disjunction => true
  | _ => false

/-- The two targets of a comparison, in an image that realizes the program.  The one is the last
instruction of the comparison, and the other is right after it, which may be the end of the code. -/
theorem Command.targets_of_realizedBy {command : Command} {a b : Assembler} {image : Image}
    {table : String → Option Nat} (hcompares : command.compares = true)
    (hrun : command.run a = .ok () b) (h : b.RealizedBy image table) :
    ∃ base, base + 8 = b.code.size ∧ a.code.size ≤ base ∧
      Machine.CodeAt image.code.toArray (base + 1) (BigEndian.bytes 2 (base + 7)) ∧
      Machine.CodeAt image.code.toArray (base + 5) (BigEndian.bytes 2 (base + 8)) := by
  -- a comparison that is emitted at the end of the code
  have hcompare : ∀ (test : Comparison) (a₁ : Assembler),
      a.code.size ≤ a₁.code.size → b = a₁.append (compareCode test a₁.code.size) →
      ∃ base, base + 8 = b.code.size ∧ a.code.size ≤ base ∧
        Machine.CodeAt image.code.toArray (base + 1) (BigEndian.bytes 2 (base + 7)) ∧
        Machine.CodeAt image.code.toArray (base + 5) (BigEndian.bytes 2 (base + 8)) := by
    intro test a₁ hle hb
    subst hb
    have hcode := h.codeAt
    have hbytes : Code.ofInstructions (compareCode test a₁.code.size)
        = [test.opcode.byte] ++ (BigEndian.bytes 2 (a₁.code.size + 7) ++
          ([Opcode.const0.byte, Opcode.jmp.byte] ++ (BigEndian.bytes 2 (a₁.code.size + 8) ++
            [Opcode.const1.byte]))) := by
      simp only [compareCode, Code.ofInstructions_cons, Code.ofInstructions_nil]
      simp only [Instruction.bytes, Instruction.operandBytes, Instruction.bytes_ofNat,
        Instruction.opcode]
      cases test <;> rfl
    refine ⟨a₁.code.size, ?_, hle, ?_, ?_⟩
    · rw [size_append, hbytes]
      simp
    · rw [hbytes, Machine.codeAt_append, Machine.codeAt_append] at hcode
      exact hcode.2.1
    · rw [hbytes, Machine.codeAt_append, Machine.codeAt_append, Machine.codeAt_append,
        Machine.codeAt_append] at hcode
      simpa [Nat.add_assoc] using hcode.2.2.2.1
  cases command with
  | compare test =>
    rw [Command.run, compare_eq] at hrun
    obtain ⟨-, rfl⟩ := EStateM.Result.ok.inj hrun
    exact hcompare test a (Nat.le_refl _) rfl
  | disjunction =>
    rw [Command.run, disjunction_eq] at hrun
    obtain ⟨-, rfl⟩ := EStateM.Result.ok.inj hrun
    have hsize : (a.append [.arithmetic .add, .ofConst 1]).code.size = a.code.size + 2 :=
      size_append a _
    refine hcompare .ge (a.append [.arithmetic .add, .ofConst 1]) ?_ ?_
    · rw [hsize]
      exact Nat.le_add_right _ _
    · rw [append_append, hsize]
  | _ => cases hcompares

/-! ### All addresses of an image -/

/-- **No address is wrapped around, but for the end of 65536 bytes of code.**  In a finished image
this goes for the operands of jumps, branches and calls, for both targets of a comparison, and for
the label map; the address at which a run starts is always exact. -/
theorem addresses_stored {commands : List Command} {a b : Assembler} {image : Image}
    (hsession : session commands .empty = .ok () a) (hfinish : finish a = .ok (.ok image) b) :
    (∀ command label a₁ a₂, Carries commands command a₁ a₂ → command.target? = some label →
      ∃ slot n, slot + 2 = a₂.code.size ∧ b.labels.address? label = some n ∧
        image.StoresAs n (BigEndian.value ((image.code.drop slot).take 2))) ∧
    (∀ command a₁ a₂, Carries commands command a₁ a₂ → command.compares = true →
      ∃ base, base + 8 = a₂.code.size ∧ a₁.code.size ≤ base ∧
        BigEndian.value ((image.code.drop (base + 1)).take 2) = base + 7 ∧
        image.StoresAs (base + 8) (BigEndian.value ((image.code.drop (base + 5)).take 2))) ∧
    (∀ label address, (label, address) ∈ b.labelMap.labels →
      ∃ n, b.labels.address? label = some n ∧ image.StoresAs n address.toNat) ∧
    ∃ main n, b.main? = some main ∧ b.labels.address? main = some n ∧
      b.labelMap.entry.toNat = n ∧ image.header.startPc.toNat = n := by
  have heffects : Effects .empty a := effects_session hsession
  obtain ⟨hlength, hsize⟩ := length_of_finish hfinish
  obtain ⟨hdefined, hmain?⟩ := defined_of_finish hfinish
  have haddress : b.labels.address? = a.labels.address? := by
    unfold Labels.address?
    rw [hdefined]
  refine ⟨?_, ?_, ?_, ?_⟩
  · intro command label a₁ a₂ hcarries htarget
    obtain ⟨slot, n, hslot, -, hlabel, hcode⟩ := Command.operand_of_realizedBy htarget hcarries.run
      (hcarries.realizedBy hsession hfinish)
    have hle : n ≤ image.code.length := by
      rw [hlength]
      exact address_le_size heffects (haddress ▸ hlabel)
    exact ⟨slot, n, hslot, hlabel, Image.storesAs_of_codeAt hsize hle hcode⟩
  · intro command a₁ a₂ hcarries hcompares
    have hrealized := hcarries.realizedBy hsession hfinish
    obtain ⟨base, hbase, hle, htrue, hend⟩ :=
      Command.targets_of_realizedBy hcompares hcarries.run hrealized
    have hfits : base + 8 ≤ image.code.length := hbase ▸ hrealized.size
    refine ⟨base, hbase, hle, ?_, Image.storesAs_of_codeAt hsize hfits hend⟩
    -- the first target is an instruction, so it is not the end of the code
    have hstored := Image.storesAs_of_codeAt hsize (by omega) htrue
    unfold Image.StoresAs at hstored
    omega
  · intro label address hmem
    obtain ⟨⟨name, n⟩, hsorted, hentry⟩ := List.mem_map.mp hmem
    obtain ⟨rfl, rfl⟩ := Prod.mk.inj hentry
    rw [Labels.sorted, List.mem_mergeSort, hdefined] at hsorted
    have hlabel := address?_of_mem_defined heffects hsorted
    refine ⟨n, haddress ▸ hlabel, ?_⟩
    rw [UInt16.toNat_ofNat']
    apply Image.storesAs_mod hsize
    rw [hlength]
    exact address_le_size heffects hlabel
  · obtain ⟨-, main, n, hmain, hlabel, hstart⟩ := segments_of_finish hfinish
    have hlt := main_lt_size heffects hmain hlabel
    refine ⟨main, n, hmain?.trans hmain, haddress ▸ hlabel, ?_, ?_⟩
    · rw [labelMap, hmain?, hmain, haddress]
      simp only [Option.bind_some, hlabel, Option.getD_some, UInt16.toNat_ofNat']
      omega
    · rw [hstart, UInt32.toNat_ofNat']
      omega

/-! ### Code that takes up all addresses -/

/-- A main procedure of `n` negations, and a label after its end.  It makes code of any size from 5
bytes on. -/
def padded (n : Nat) : List Command :=
  .enter "main" 0 true :: (List.replicate n .neg ++ [.exit "main_end", .define "end"])

/-- The code of the procedure. -/
def paddedCode (n : Nat) : List UInt8 := [48, 0, 0] ++ (List.replicate n 28 ++ [49, 47])

/-- The program that consists of the procedure. -/
def paddedProgram (n : Nat) : Assembler where
  code := Draft.empty.append (paddedCode n)
  statics := .empty
  labels := ⟨[("end", n + 5), ("main_end", n + 3), ("main", 0)], []⟩
  procedure? := none
  main? := some "main"

theorem length_paddedCode (n : Nat) : (paddedCode n).length = n + 5 := by
  simp [paddedCode]

theorem session_neg (n : Nat) (a : Assembler) :
    session (List.replicate n .neg) a
      = .ok () (a.withCode (a.code.append (List.replicate n 28))) := by
  induction n generalizing a with
  | zero => rfl
  | succ n ih =>
    rw [List.replicate_succ]
    refine session_cons.mpr ⟨_, emit_eq .neg a, ?_⟩
    rw [ih, code_withCode, withCode_withCode, Draft.append_append]
    rfl

theorem session_padded (n : Nat) : session (padded n) .empty = .ok () (paddedProgram n) := by
  -- the procedure is open, and `n` negations have been emitted
  let a : Assembler := (Assembler.empty.withLabel "main").opened "main" 0 true
  let a₁ : Assembler := a.withCode (a.code.append (List.replicate n 28))
  -- the size of the frame is filled in
  let code : Draft := (Draft.empty.append [48, 0, 0]).append (List.replicate n 28)
  let a₂ : Assembler := { a₁ with code := code, procedure? := none }
  have hfill : a₁.code.fillBytes 2 [0] = .ok code :=
    Draft.fillBytes_later (Draft.empty.append [48, 0]) [0] (List.replicate n 28) 0
  have hexit : exit "main_end" a₁ = .ok () ((a₂.withLabel "main_end").append [.exit, .ret]) :=
    exit_eq (p := .ofParams "main" 0 2) rfl (Nat.zero_le _) hfill rfl
  have hdefine : define "end" ((a₂.withLabel "main_end").append [.exit, .ret])
      = .ok () (((a₂.withLabel "main_end").append [.exit, .ret]).withLabel "end") :=
    define_eq rfl
  have hend : ((a₂.withLabel "main_end").append [.exit, .ret]).withLabel "end"
      = paddedProgram n := by
    have hcode : code.append [49, 47] = Draft.empty.append (paddedCode n) := by
      simp only [code, paddedCode, Draft.append_append, List.append_assoc]
    have hsize : code.size = n + 3 := by
      simp only [code, Draft.size_append, List.length_replicate]
      exact Nat.add_comm 3 n
    have hsize' : (code.append [49, 47]).size = n + 5 := by
      rw [Draft.size_append, hsize]
      rfl
    show Assembler.mk (code.append [49, 47]) _
      ⟨[("end", (code.append [49, 47]).size), ("main_end", code.size), ("main", 0)], []⟩ _ _ = _
    rw [hsize', hsize, hcode]
    rfl
  refine session_cons.mpr ⟨a, rfl, session_append.mpr ⟨a₁, session_neg n a, ?_⟩⟩
  rw [← hend]
  exact session_cons.mpr ⟨_, hexit, session_cons.mpr ⟨_, hdefine, rfl⟩⟩

theorem finish_padded {n : Nat} (hn : n + 5 ≤ 65536) : finish (paddedProgram n)
    = .ok (.ok (.ofSegments (paddedCode n) [] 0)) (paddedProgram n) := by
  have hslots : (paddedProgram n).code.slots.toList = (paddedCode n).map Slot.known :=
    Draft.toList_append _ _
  have hbytes : (paddedProgram n).code.bytes = .ok (paddedCode n) := by
    rw [Draft.bytes, hslots, Draft.bytesFrom_known]
  have hsize : ¬ maxCode < (paddedProgram n).code.size := by
    rw [Draft.size_eq_length, hslots, List.length_map, length_paddedCode]
    exact Nat.not_lt.mpr hn
  refine (finish_eq rfl rfl rfl rfl rfl).trans ?_
  show EStateM.Result.ok ((paddedProgram n).image 0) (paddedProgram n) = _
  rw [Assembler.image, if_neg hsize, hbytes]
  rfl

/-- Code of 65536 bytes: every label is listed with its address, or it stands at the end. -/
theorem addresses_stored_padded :
    session (padded 65531) .empty = .ok () (paddedProgram 65531) ∧
    finish (paddedProgram 65531)
      = .ok (.ok (.ofSegments (paddedCode 65531) [] 0)) (paddedProgram 65531) ∧
    ∀ label address, (label, address) ∈ (paddedProgram 65531).labelMap.labels →
      ∃ n, (paddedProgram 65531).labels.address? label = some n ∧
        (Image.ofSegments (paddedCode 65531) [] 0).StoresAs n address.toNat := by
  have hsession := session_padded 65531
  have hfinish := finish_padded (n := 65531) (by decide)
  obtain ⟨-, -, hlabels, -⟩ := addresses_stored hsession hfinish
  exact ⟨hsession, hfinish, hlabels⟩

/-- The label at the end of 65536 bytes of code is listed with the address 0. -/
theorem end_of_code_wraps :
    session (padded 65531) .empty = .ok () (paddedProgram 65531) ∧
    finish (paddedProgram 65531)
      = .ok (.ok (.ofSegments (paddedCode 65531) [] 0)) (paddedProgram 65531) ∧
    (paddedProgram 65531).labels.address? "end" = some 65536 ∧
    ("end", 0) ∈ (paddedProgram 65531).labelMap.labels := by
  refine ⟨session_padded 65531, finish_padded (by decide), rfl, ?_⟩
  exact List.mem_map.mpr ⟨("end", 65536), List.mem_mergeSort.mpr List.mem_cons_self, rfl⟩

end Assembler
end MJ
