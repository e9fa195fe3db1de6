import MJ.Proofs.Commit
import MJ.Proofs.Layout

/-!
# Instruction boundaries

A finished program is a sequence of instructions, its labels and jump targets stand between them,
and a run never leaves these boundaries.

## Main definitions

* `Code.Boundary` — an address between instructions, or at either end of them.
* `Code.IsAddress` — the address of a decoded instruction or the end of the code.
* `Machine.Follows` — where control may be after an instruction.
* `Machine.OnBoundary` — the program counter and all return addresses are boundaries.

## Main results

* `Machine.Change.follows` — control goes on after an instruction, at its target or at a return
  address.
* `Machine.step_boundaries`, `Machine.runFor_boundaries` — a step and a run keep to the boundaries.
* `Assembler.image_wellFormed` — **every finished image is well formed and its runs respect
  instruction boundaries.**
-/

namespace MJ

/-! ### Boundaries of finished code -/

namespace Code

/-- An address between instructions, or at either end of them. -/
def Boundary (is : List Instruction) (n : Nat) : Prop :=
  ∃ js ks, is = js ++ ks ∧ n = (ofInstructions js).length

/-- The address of a decoded instruction or the end of the code.  This says of a listing what
`Boundary` says of instructions. -/
def IsAddress (listing : List Located) (size n : Nat) : Prop :=
  n = size ∨ ∃ l ∈ listing, l.address = n

theorem boundary_zero (is : List Instruction) : Boundary is 0 := ⟨[], is, rfl, rfl⟩

theorem Boundary.le {is : List Instruction} {n : Nat} (h : Boundary is n) :
    n ≤ (ofInstructions is).length := by
  obtain ⟨js, ks, rfl, rfl⟩ := h
  rw [ofInstructions_append, List.length_append]
  exact Nat.le_add_right _ _

/-- The end of whole items is a boundary of their instructions. -/
theorem boundary_of_item {is : List Instruction} {n : Nat}
    (h : Item.Boundary (is.map .whole) n) : Boundary is n := by
  obtain ⟨items₁, items₂, hsplit, rfl⟩ := h
  obtain ⟨js, ks, rfl, rfl, rfl⟩ := List.map_eq_append_iff.mp hsplit
  exact ⟨js, ks, rfl, Item.extent_whole js⟩

/-- The instructions of a listing, by their addresses: each stands after the code of those before
it. -/
theorem mem_locate {is : List Instruction} {base : Nat} {l : Located} :
    l ∈ locate base is ↔ ∃ js ks, is = js ++ l.instruction :: ks ∧
      l.address = base + (ofInstructions js).length := by
  induction is generalizing base with
  | nil =>
    constructor
    · intro h
      cases h
    · rintro ⟨js, ks, hsplit, -⟩
      cases js <;> cases hsplit
  | cons i is ih =>
    rw [locate, List.mem_cons, ih]
    constructor
    · rintro (rfl | ⟨js, ks, rfl, haddress⟩)
      · exact ⟨[], is, rfl, rfl⟩
      · refine ⟨i :: js, ks, rfl, ?_⟩
        rw [haddress, ofInstructions_cons, List.length_append, Instruction.length_bytes,
          Nat.add_assoc]
    · -- the instruction is the first one or stands behind it
      rintro ⟨js, ks, hsplit, haddress⟩
      cases js with
      | nil =>
        obtain ⟨rfl, rfl⟩ := List.cons.inj hsplit
        exact Or.inl (by cases l; cases haddress; rfl)
      | cons j js =>
        obtain ⟨rfl, rfl⟩ := List.cons.inj hsplit
        refine Or.inr ⟨js, ks, rfl, ?_⟩
        rw [haddress, ofInstructions_cons, List.length_append, Instruction.length_bytes,
          Nat.add_assoc]

theorem Boundary.isAddress {is : List Instruction} {n : Nat} (h : Boundary is n) :
    IsAddress (locate 0 is) (ofInstructions is).length n := by
  obtain ⟨js, ks, rfl, rfl⟩ := h
  cases ks with
  | nil => exact Or.inl (by rw [List.append_nil])
  | cons i ks =>
    exact Or.inr ⟨⟨_, i⟩, mem_locate.mpr ⟨js, ks, rfl, (Nat.zero_add _).symm⟩, rfl⟩

/-- A boundary that is stored in sixteen bits is a boundary.  The only one that is not kept is the
end of code of 65536 bytes, which becomes its start. -/
theorem Boundary.mod {is : List Instruction} {n : Nat} (h : Boundary is n)
    (hsize : (ofInstructions is).length ≤ 65536) : Boundary is (n % 65536) := by
  have hle := h.le
  by_cases hlt : n < 65536
  · rw [Nat.mod_eq_of_lt hlt]
    exact h
  · -- only the end of the longest code does not fit, and it wraps around to the start
    have hn : n = 65536 := by omega
    rw [hn, Nat.mod_self]
    exact boundary_zero is

end Code

/-- Whether a run stopped because there is no instruction at the program counter. -/
def Stop.isDecoding : Stop → Bool
  | fault (.invalidOpcode _) | fault .pcOutOfBounds => true
  | _ => false

/-- The end marker is the only instruction that is fetched and cannot be executed. -/
theorem Instruction.isDecoding_of_mayFail {i : Instruction} {cause : Stop}
    (h : i.mayFail cause = true) (hi : i ≠ .last) : cause.isDecoding = false := by
  cases cause with
  | wideField => rfl
  | fault cause =>
    cases cause with
    | invalidOpcode byte => exact absurd (eq_of_beq h) hi
    | pcOutOfBounds => cases h
    | _ => rfl

namespace Machine

variable {limits : Limits} {i : Instruction}

/-! ### Where control goes -/

/-- Where control may be after an instruction that was started in the state `s`, whose program
counter already points past it: there, at the target of the instruction or at a return address.  The
only return address that it may add is that after itself. -/
def Follows (i : Instruction) (s s' : State) : Prop :=
  (s'.pc = s.pc ∨ i.target? = some s'.pc ∨ s'.pc ∈ s.returns) ∧
    ∀ r ∈ s'.returns, r ∈ s.returns ∨ r = s.pc

theorem follows_of_eq {s s' : State} (hpc : s'.pc = s.pc) (hreturns : s'.returns = s.returns) :
    Follows i s s' :=
  ⟨Or.inl hpc, fun _ hr => Or.inl (hreturns ▸ hr)⟩

theorem Popped.follows {s t : State} (h : Popped s t) : Follows i s t :=
  follows_of_eq h.pc h.returns

/-- Three kinds of changes transfer control, each to where it may go.  All others leave the program
counter past the instruction. -/
theorem Commit.follows {s t : State} (h : Commit limits i s t) : Follows i s t := by
  cases h with
  | goto target hi => exact ⟨Or.inr (Or.inl hi), fun _ hr => Or.inl hr⟩
  | call n hi hcalls =>
    subst hi
    exact ⟨Or.inr (Or.inl rfl), fun r hr => Array.mem_push.mp hr⟩
  | ret address hi hback =>
    refine ⟨Or.inr (Or.inr (Array.mem_of_back? hback)), fun r hr => Or.inl ?_⟩
    rw [Array.mem_def, Array.toList_pop] at hr
    exact Array.mem_def.mpr ((List.dropLast_sublist _).subset hr)
  | _ => exact follows_of_eq rfl rfl

/-- An instruction goes on after itself, at its target or at a return address. -/
theorem Change.follows {s t : State} (h : Change limits i s t) : Follows i s t := by
  obtain ⟨u, hpopped, hcommit⟩ := h
  have hfollows : Follows i u t := hcommit.follows
  rwa [Follows, hpopped.pc, hpopped.returns] at hfollows

/-! ### Runs -/

/-- The state keeps to the boundaries of the code.  The return addresses belong to it, since a
return makes one of them the program counter. -/
structure OnBoundary (is : List Instruction) (s : State) : Prop where
  pc : Code.Boundary is s.pc
  returns : ∀ r ∈ s.returns, Code.Boundary is r

/-- Code whose targets are boundaries. -/
structure WellTargeted (is : List Instruction) : Prop where
  noLast : .last ∉ is
  target : ∀ i ∈ is, ∀ n, i.target? = some n → Code.Boundary is n

/-- What a step may result in, also when it fails.  Of the faults, only those of decoding say
anything about the address of the step. -/
def Bounded (is : List Instruction) (pc : Nat) : EStateM.Result Stop State Bool → Prop
  | .ok _ s' => OnBoundary is s'
  | .error cause s' => OnBoundary is s' ∧
    (cause.isDecoding = true →
      cause = .fault .pcOutOfBounds ∧ pc = (Code.ofInstructions is).length)

/-- At a boundary stands an instruction, or the code ends there.  In the first case the next address
is a boundary again. -/
theorem fetch_of_boundary {is : List Instruction} (hlast : .last ∉ is) {pc : Nat}
    (h : Code.Boundary is pc) :
    (∃ i ∈ is, fetch (Code.ofInstructions is).toArray pc = .ok i ∧
      Code.Boundary is (pc + i.size)) ∨
    fetch (Code.ofInstructions is).toArray pc = .error .pcOutOfBounds ∧
      pc = (Code.ofInstructions is).length := by
  obtain ⟨js, ks, rfl, rfl⟩ := h
  cases ks with
  | nil =>
    refine Or.inr ⟨?_, by rw [List.append_nil]⟩
    rw [List.append_nil, fetch, List.getElem?_toArray, List.getElem?_eq_none (Nat.le_refl _)]
  | cons i ks =>
    have hi : i ∈ js ++ i :: ks := List.mem_append_right js List.mem_cons_self
    refine Or.inl ⟨i, hi, ?_, js ++ [i], ks, ?_, ?_⟩
    · refine fetch_of_codeAt ?_ fun hilast => hlast (hilast ▸ hi)
      rw [Code.ofInstructions_append, Code.ofInstructions_cons]
      exact codeAt_toArray _ _ _
    · rw [List.append_assoc, List.singleton_append]
    · rw [Code.ofInstructions_append, List.length_append, Code.ofInstructions_cons,
        Code.ofInstructions_nil, List.append_nil, Instruction.length_bytes]

/-- What is fetched at a boundary is an instruction of the code, and it ends at a boundary. -/
theorem mem_of_fetch {is : List Instruction} (hlast : .last ∉ is) {pc : Nat}
    (h : Code.Boundary is pc) {i : Instruction}
    (hfetch : fetch (Code.ofInstructions is).toArray pc = .ok i) :
    i ∈ is ∧ Code.Boundary is (pc + i.size) := by
  rcases fetch_of_boundary hlast h with ⟨j, hj, hfetch', hnext⟩ | ⟨hfetch', -⟩
  · obtain rfl := Except.ok.inj (hfetch.symm.trans hfetch')
    exact ⟨hj, hnext⟩
  · cases hfetch.symm.trans hfetch'

theorem OnBoundary.of_eq {is : List Instruction} {s s' : State} (h : OnBoundary is s)
    (hpc : s'.pc = s.pc) (hreturns : s'.returns = s.returns) : OnBoundary is s' :=
  ⟨hpc ▸ h.pc, hreturns ▸ h.returns⟩

/-- An instruction of the code keeps to the boundaries; `s` is the state after its fetch. -/
theorem OnBoundary.follows {is : List Instruction} (his : WellTargeted is) {s s' : State}
    (h : OnBoundary is s) {i : Instruction} (hi : i ∈ is) (hfollows : Follows i s s') :
    OnBoundary is s' := by
  obtain ⟨hpc, hreturns⟩ := hfollows
  constructor
  · rcases hpc with hpc | htarget | hreturn
    · exact hpc ▸ h.pc
    · exact his.target i hi _ htarget
    · exact h.returns _ hreturn
  · intro r hr
    rcases hreturns r hr with hr | rfl
    · exact h.returns r hr
    · exact h.pc

/-- A step keeps to the boundaries.  If it fails for want of an instruction, it stands at the end of
the code: everywhere else on the boundaries there is one. -/
theorem step_boundaries {is : List Instruction} (his : WellTargeted is) (limits : Limits)
    {s : State} (hs : OnBoundary is s) :
    Bounded is s.pc (step limits (Code.ofInstructions is).toArray s) := by
  rcases step_cases limits (Code.ofInstructions is).toArray s with
    ⟨cause, hprevented, hstep⟩ | ⟨i, -, hfetch, hstep⟩
  · rw [hstep]
    refine ⟨hs.of_eq rfl rfl, fun hdecoding => ?_⟩
    cases hprevented with
    | stepLimit | stackLimit => cases hdecoding
    | fetch _ _ hfetch =>
      rcases fetch_of_boundary his.noLast hs.pc with ⟨i, -, hfetch', -⟩ | ⟨hfetch', hend⟩
      · cases hfetch.symm.trans hfetch'
      · obtain rfl := Except.error.inj (hfetch.symm.trans hfetch')
        exact ⟨rfl, hend⟩
  · -- control goes to the next instruction first, and may then be moved by this one
    obtain ⟨hi, hnext⟩ := mem_of_fetch his.noLast hs.pc hfetch
    have hs' : OnBoundary is (s.fetched i) := ⟨hnext, hs.returns⟩
    have hcommitted := execute_committed limits i (s.fetched i)
    rw [hstep]
    cases hexecute : execute limits i (s.fetched i) with
    | ok goesOn t =>
      rw [hexecute] at hcommitted
      cases goesOn with
      | true => exact hs'.follows his hi (Change.follows hcommitted)
      | false => exact hs'.follows his hi hcommitted.1.follows
    | error cause t =>
      rw [hexecute] at hcommitted
      refine ⟨hs'.follows his hi hcommitted.1.follows, fun hdecoding => ?_⟩
      have hlast : i ≠ .last := fun hlast => his.noLast (hlast ▸ hi)
      rw [Instruction.isDecoding_of_mayFail hcommitted.2 hlast] at hdecoding
      cases hdecoding

/-- A run keeps to the boundaries, and looks for an instruction only where one is or at the end
of the code.  By induction on the number of steps, from what one step keeps. -/
theorem runFor_boundaries {is : List Instruction} (his : WellTargeted is) (limits : Limits)
    (n : Nat) {s : State} (hs : OnBoundary is s) :
    OnBoundary is (runFor limits (Code.ofInstructions is).toArray n s).state ∧
      ∀ pc cause, (runFor limits (Code.ofInstructions is).toArray n s).ending = .stopped pc cause →
        cause.isDecoding = true →
        cause = .fault .pcOutOfBounds ∧ pc = (Code.ofInstructions is).length := by
  induction n generalizing s with
  | zero =>
    refine ⟨hs, fun pc cause hending => ?_⟩
    cases hending
  | succ n ih =>
    have hstep := step_boundaries his limits hs
    rw [runFor]
    cases h : step limits (Code.ofInstructions is).toArray s with
    | ok goesOn s' =>
      rw [h] at hstep
      cases goesOn with
      | true => exact ih hstep
      | false =>
        refine ⟨hstep, fun pc cause hending => ?_⟩
        cases hending
    | error cause s' =>
      rw [h] at hstep
      refine ⟨hstep.1, ?_⟩
      intro pc cause' hending
      obtain ⟨rfl, rfl⟩ := Ending.stopped.inj hending
      exact hstep.2

end Machine

/-! ### Finished images -/

namespace Assembler

/-- The instructions of a finished program.  What is proved of finished images starts from this and
does not go back to the commands. -/
structure Finished (b : Assembler) (image : Image) (is : List Instruction) : Prop where
  /-- They are the code. -/
  code : image.code = Code.ofInstructions is
  /-- The data is that of the program. -/
  data : image.data = b.statics.bytes.toList
  /-- Their addresses fit sixteen bits. -/
  size : (Code.ofInstructions is).length ≤ 65536
  /-- They are all the program consists of. -/
  laidOut : b.LaidOut (is.map .whole)
  /-- The program starts at a procedure. -/
  start : Item.EnterAt (is.map .whole) image.header.startPc.toNat

/-- The instructions of a program that can be written and finished are its items with the labels
filled in. -/
theorem LaidOut.exists_finished {a b : Assembler} {items : List Item} {image : Image}
    (h : a.LaidOut items) (hfinish : Assembler.finish a = .ok (.ok image) b) :
    ∃ is, items.map (Item.resolve a.labels) = is.map .whole ∧ Finished b image is := by
  obtain ⟨main, startPc, code, hclosed, hmain, hstart, hfill, rfl, himage⟩ := finish_eq_ok hfinish
  obtain ⟨hle, bs, hbytes, rfl⟩ := image_eq_ok himage
  obtain ⟨code', hfill', hlaid⟩ := h.resolving
  obtain rfl := Except.ok.inj (hfill.symm.trans hfill')
  obtain ⟨is, hwhole, hcode⟩ := hlaid.bytes_eq rfl hclosed
  obtain rfl := Except.ok.inj (hbytes.symm.trans hcode)
  rw [hwhole] at hlaid
  have hsize : (Code.ofInstructions is).length ≤ 65536 := by
    rw [hlaid.size_eq, Item.extent_whole] at hle
    exact hle
  obtain ⟨n, haddress, henter⟩ := hlaid.main main hmain
  obtain rfl : startPc = n := Option.some.inj (hstart.symm.trans haddress)
  refine ⟨is, hwhole, rfl, rfl, hsize, hlaid, ?_⟩
  -- the start is an address of the code, so that a word of the header can hold it
  have hboundary : startPc ≤ (Code.ofInstructions is).length :=
    (Code.boundary_of_item (hlaid.labels main startPc haddress)).le
  have hstartPc : (UInt32.ofNat startPc).toNat = startPc := by
    rw [UInt32.toNat_ofNat']
    omega
  rw [Image.ofSegments, hstartPc]
  exact henter

/-- A program that can be written and finished consists of instructions. -/
theorem LaidOut.finished {a b : Assembler} {items : List Item} {image : Image}
    (h : a.LaidOut items) (hfinish : Assembler.finish a = .ok (.ok image) b) :
    ∃ is, Finished b image is := by
  obtain ⟨is, -, hfinished⟩ := h.exists_finished hfinish
  exact ⟨is, hfinished⟩

namespace Finished

variable {b : Assembler} {image : Image} {is : List Instruction}

theorem boundary (h : Finished b image is) {label : String} {n : Nat}
    (hlabel : b.labels.address? label = some n) : Code.Boundary is n :=
  Code.boundary_of_item (h.laidOut.labels label n hlabel)

theorem wellTargeted (h : Finished b image is) : Machine.WellTargeted is where
  noLast hlast := h.laidOut.noLast (List.mem_map_of_mem hlast)
  target i hi n htarget := by
    obtain ⟨m, rfl, hboundary⟩ := h.laidOut.targets i (List.mem_map_of_mem hi) n htarget
    exact (Code.boundary_of_item hboundary).mod h.size

theorem startsAtEnter (h : Finished b image is) : ∃ l ∈ Code.locate 0 is,
    l.address = image.header.startPc.toNat ∧ ∃ params size, l.instruction = .enter params size := by
  obtain ⟨items₁, item, items₂, hsplit, hstart, henter⟩ := h.start
  obtain ⟨js, ks, rfl, rfl, hrest⟩ := List.map_eq_append_iff.mp hsplit
  obtain ⟨i, ks, rfl, rfl, rfl⟩ := List.map_eq_cons_iff.mp hrest
  rw [Item.extent_whole] at hstart
  refine ⟨⟨_, i⟩, Code.mem_locate.mpr ⟨js, ks, rfl, (Nat.zero_add _).symm⟩, hstart.symm, ?_⟩
  cases i with
  | enter params size => exact ⟨params, size, rfl⟩
  | _ => cases henter

/-- A run starts between two instructions, and no call is open yet. -/
theorem onBoundary_load (h : Finished b image is) (input : List UInt8) :
    Machine.OnBoundary is (.load image input) := by
  refine ⟨?_, fun r hr => absurd hr (Array.not_mem_empty r)⟩
  obtain ⟨l, hl, haddress, -⟩ := h.startsAtEnter
  obtain ⟨js, ks, rfl, hlocated⟩ := Code.mem_locate.mp hl
  rw [Nat.zero_add, haddress] at hlocated
  exact ⟨js, l.instruction :: ks, rfl, hlocated⟩

end Finished

/-- **Every finished image is well formed and its runs respect instruction boundaries.**  Its code
decodes to instructions; it starts at an `enter`; labels and targets are addresses of
instructions or the end of the code; and so are the program counter and the return addresses in
every state of every run. -/
theorem image_wellFormed {commands : List Command} {a b : Assembler} {image : Image}
    (hsession : session commands .empty = .ok () a) (hfinish : finish a = .ok (.ok image) b) :
    ∃ listing, Code.decode image.code = .ok listing ∧
      (∀ l ∈ listing, l.instruction ≠ .last) ∧
      (∃ l ∈ listing, l.address = image.header.startPc.toNat ∧
        ∃ params size, l.instruction = .enter params size) ∧
      (∀ label n, b.labels.address? label = some n →
        Code.IsAddress listing image.code.length n) ∧
      (∀ l ∈ listing, ∀ n, l.instruction.target? = some n →
        Code.IsAddress listing image.code.length n) ∧
      ∀ (limits : Limits) (input : List UInt8) (n : Nat) (o : Machine.Outcome),
        Machine.runFor limits image.code.toArray n (.load image input) = o →
        Code.IsAddress listing image.code.length o.state.pc ∧
        (∀ r ∈ o.state.returns, Code.IsAddress listing image.code.length r) ∧
        (∀ pc byte, o.ending ≠ .stopped pc (.fault (.invalidOpcode byte))) ∧
        ∀ pc, o.ending = .stopped pc (.fault .pcOutOfBounds) → pc = image.code.length := by
  obtain ⟨items, hitems⟩ := laidOut_of_session hsession
  obtain ⟨is, hfinished⟩ := hitems.finished hfinish
  have htargeted := hfinished.wellTargeted
  have hstart := hfinished.startsAtEnter
  rw [hfinished.code]
  refine ⟨Code.locate 0 is, Code.decodeFrom_ofInstructions is 0, ?_, hstart, ?_, ?_, ?_⟩
  · intro l hl hlast
    obtain ⟨js, ks, rfl, -⟩ := Code.mem_locate.mp hl
    exact htargeted.noLast (hlast ▸ List.mem_append_right js List.mem_cons_self)
  · exact fun label n hlabel => (hfinished.boundary hlabel).isAddress
  · intro l hl n htarget
    obtain ⟨js, ks, rfl, -⟩ := Code.mem_locate.mp hl
    exact (htargeted.target _ (List.mem_append_right js List.mem_cons_self) n htarget).isAddress
  · -- a run starts on a boundary, and the rest is what runs keep
    intro limits input n o hrun
    obtain ⟨hstate, hstopped⟩ :=
      Machine.runFor_boundaries htargeted limits n (hfinished.onBoundary_load input)
    rw [hrun] at hstate hstopped
    refine ⟨hstate.pc.isAddress, fun r hr => (hstate.returns r hr).isAddress, ?_, ?_⟩
    · intro pc byte hending
      cases (hstopped pc _ hending rfl).1
    · exact fun pc hending => (hstopped pc _ hending rfl).2

/-- A procedure that calls itself, with a branch to its end. -/
theorem image_wellFormed_recursion : ∃ (a b : Assembler) (image : Image),
    session [.enter "main" 0 true, .pushConst 7, .branchIf false "end", .call "main", .exit "end"]
      .empty = .ok () a ∧
    finish a = .ok (.ok image) b ∧
    image.code = [48, 0, 0, 22, 0, 0, 0, 7, 15, 40, 0, 15, 46, 0, 0, 49, 47] ∧
    ∃ listing, Code.decode image.code = .ok listing ∧
      ∀ l ∈ listing, ∀ n, l.instruction.target? = some n →
        Code.IsAddress listing image.code.length n := by
  have hsession : session [.enter "main" 0 true, .pushConst 7, .branchIf false "end",
      .call "main", .exit "end"] .empty = .ok () {
        code := ⟨#[.known 48, .known 0, .known 0, .known 22, .known 0, .known 0, .known 0,
          .known 7, .known 15, .known 40, .hole, .hole, .known 46, .known 0, .known 0,
          .known 49, .known 47]⟩
        statics := .empty
        labels := ⟨[("end", 15), ("main", 0)], [("end", 10)]⟩
        procedure? := none
        main? := some "main" } := by
    decide +kernel
  have hfinish : finish {
        code := ⟨#[.known 48, .known 0, .known 0, .known 22, .known 0, .known 0, .known 0,
          .known 7, .known 15, .known 40, .hole, .hole, .known 46, .known 0, .known 0,
          .known 49, .known 47]⟩
        statics := .empty
        labels := ⟨[("end", 15), ("main", 0)], [("end", 10)]⟩
        procedure? := none
        main? := some "main" }
      = .ok (.ok (.ofSegments [48, 0, 0, 22, 0, 0, 0, 7, 15, 40, 0, 15, 46, 0, 0, 49, 47] [] 0)) {
        code := ⟨#[.known 48, .known 0, .known 0, .known 22, .known 0, .known 0, .known 0,
          .known 7, .known 15, .known 40, .known 0, .known 15, .known 46, .known 0, .known 0,
          .known 49, .known 47]⟩
        statics := .empty
        labels := ⟨[("end", 15), ("main", 0)], []⟩
        procedure? := none
        main? := some "main" } := by
    rfl
  obtain ⟨listing, hdecode, -, -, -, htargets, -⟩ := image_wellFormed hsession hfinish
  exact ⟨_, _, _, hsession, hfinish, rfl, listing, hdecode, htargets⟩

end Assembler
end MJ
