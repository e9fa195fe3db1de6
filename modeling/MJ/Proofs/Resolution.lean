import MJ.Proofs.References

/-!
# The bytes of a finished image

Every byte of a finished image was settled by the command that emitted it, with two exceptions:
the operand of an instruction that goes to a label is the address that the label has in the end,
and the size of a frame is the one it has when its procedure ends.

## Main definitions

* `Assembler.Carries` — a command that is carried out in the course of a session.

## Main results

* `Assembler.Command.Changes.byte` — what a command emits is known, but for these two exceptions.
* `Assembler.bytes_resolved` — **labels are resolved, all other bytes are as they were emitted,
  and the order of the references does not matter.**
-/

namespace MJ

/-! ### Commands of a session -/

namespace Assembler

/-- In the course of a session a command is carried out, which turns the program `a` into `b`. -/
def Carries (commands : List Command) (command : Command) (a b : Assembler) : Prop :=
  ∃ before after, commands = before ++ command :: after ∧ session before .empty = .ok () a ∧
    command.run a = .ok () b

theorem Carries.run {commands : List Command} {command : Command} {a b : Assembler}
    (h : Carries commands command a b) : command.run a = .ok () b := by
  obtain ⟨-, -, -, -, hrun⟩ := h
  exact hrun

/-- A session that goes on is two sessions, by induction on the commands of the first. -/
theorem session_append {before after : List Command} {a c : Assembler} :
    session (before ++ after) a = .ok () c ↔
      ∃ b, session before a = .ok () b ∧ session after b = .ok () c := by
  induction before generalizing a with
  | nil =>
    constructor
    · intro h
      exact ⟨a, rfl, h⟩
    · rintro ⟨b, hb, h⟩
      obtain ⟨-, rfl⟩ := EStateM.Result.ok.inj hb
      exact h
  | cons command before ih =>
    constructor
    · intro h
      obtain ⟨_, a₁, hrun, hrest⟩ := Action.bind_eq_ok.mp h
      obtain ⟨b, hbefore, hafter⟩ := ih.mp hrest
      exact ⟨b, Action.bind_eq_ok.mpr ⟨(), a₁, hrun, hbefore⟩, hafter⟩
    · rintro ⟨b, hb, hafter⟩
      obtain ⟨_, a₁, hrun, hbefore⟩ := Action.bind_eq_ok.mp hb
      exact Action.bind_eq_ok.mpr ⟨(), a₁, hrun, ih.mpr ⟨b, hbefore, hafter⟩⟩

theorem session_cons {command : Command} {commands : List Command} {a c : Assembler} :
    session (command :: commands) a = .ok () c ↔
      ∃ b, command.run a = .ok () b ∧ session commands b = .ok () c := by
  constructor
  · intro h
    obtain ⟨_, b, hrun, hrest⟩ := Action.bind_eq_ok.mp h
    exact ⟨b, hrun, hrest⟩
  · rintro ⟨b, hrun, hrest⟩
    exact Action.bind_eq_ok.mpr ⟨(), b, hrun, hrest⟩

/-- A session goes on from the program that its first commands lead to. -/
theorem session_after {before after : List Command} {command : Command} {a a₁ a₂ : Assembler}
    (hsession : session (before ++ command :: after) .empty = .ok () a)
    (hbefore : session before .empty = .ok () a₁) (hrun : command.run a₁ = .ok () a₂) :
    session after a₂ = .ok () a := by
  obtain ⟨b, hb, hrest⟩ := session_append.mp hsession
  obtain ⟨-, rfl⟩ := EStateM.Result.ok.inj (hbefore.symm.trans hb)
  obtain ⟨b, hb, hafter⟩ := session_cons.mp hrest
  obtain ⟨-, rfl⟩ := EStateM.Result.ok.inj (hrun.symm.trans hb)
  exact hafter

/-! ### How commands change the code -/

/-- Only the command that ends a procedure closes it; all others leave it open, with its size to be
filled in at the same place. -/
theorem Command.Changes.staysOpen {command : Command} {a b : Assembler} {p : Procedure}
    (h : command.Changes a b) (hopen : a.procedure? = some p) :
    (∃ label, command = .exit label) ∨ ∃ q, b.procedure? = some q ∧ q.sizeSlot = p.sizeSlot := by
  cases h with
  | code | await | data | label | unfinished | resolving => exact Or.inr ⟨p, hopen, rfl⟩
  | frame q words hq =>
    obtain rfl := Option.some.inj (hopen.symm.trans hq)
    exact Or.inr ⟨_, rfl, rfl⟩
  | opening label params isMain hclosed => cases hclosed.symm.trans hopen
  | closing label => exact Or.inl ⟨label, rfl⟩

/-- Bytes that are appended to a draft are known. -/
theorem exists_known_of_append (d : Draft) (bs : List UInt8) {k : Nat} (hk : d.size ≤ k)
    (hlt : k < (d.append bs).size) : ∃ byte, (d.append bs).slots[k]? = some (.known byte) := by
  rw [Draft.size_append] at hlt
  have hknown := RealizedBy.known_of_append d bs (k - d.size)
  rw [show d.size + (k - d.size) = k by omega,
    List.getElem?_eq_getElem (show k - d.size < bs.length by omega)] at hknown
  exact ⟨_, hknown⟩

/-- A byte that a command emits is known at once, unless it belongs to the address of a label or
is the size of a frame.  One case for each kind of change; some of them emit nothing. -/
theorem Command.Changes.byte {command : Command} {a b : Assembler} (h : command.Changes a b)
    {k : Nat} (hk : a.code.size ≤ k) (hlt : k < b.code.size) :
    (∃ byte, b.code.slots[k]? = some (.known byte)) ∨
      (∃ label, command.target? = some label ∧ b.code.size ≤ k + 2) ∨
      ∃ label params isMain p, command = .enter label params isMain ∧ k = a.code.size + 2 ∧
        b.procedure? = some p ∧ p.sizeSlot = k := by
  cases h with
  | code is => exact Or.inl (exists_known_of_append _ _ hk hlt)
  | await is t label _ htarget =>
    -- all bytes are known but the last two, which wait for the label
    have hcode : ((a.append is).await t label).code
        = (a.code.append (Code.ofInstructions is ++ [t.opcode.byte])).emitHoles 2 := by
      rw [Assembler.await, code_append, Draft.append_append]
    rw [hcode] at hlt ⊢
    by_cases hbyte : k < (a.code.append (Code.ofInstructions is ++ [t.opcode.byte])).size
    · obtain ⟨byte, hknown⟩ := exists_known_of_append _ _ hk hbyte
      exact Or.inl ⟨byte, (Draft.extends_emitHoles _ 2).2 _ _ hknown⟩
    · refine Or.inr (Or.inl ⟨label, htarget, ?_⟩)
      rw [Draft.size_emitHoles]
      omega
  | data | frame | label | unfinished => exact absurd hlt (Nat.not_lt.mpr hk)
  | opening label params isMain =>
    by_cases hbyte : k < (a.code.append [Opcode.enter.byte, UInt8.ofNat params]).size
    · obtain ⟨byte, hknown⟩ := exists_known_of_append _ _ hk hbyte
      exact Or.inl ⟨byte, (Draft.extends_emitHoles _ 1).2 _ _ hknown⟩
    · have hsize : k = a.code.size + 2 := by
        rw [opened, Draft.size_emitHoles] at hlt
        rw [Draft.size_append, List.length_cons, List.length_singleton] at hbyte hlt
        exact Nat.le_antisymm (Nat.lt_succ_iff.mp hlt) (Nat.le_of_not_lt hbyte)
      exact Or.inr (Or.inr ⟨label, params, isMain, _, rfl, hsize, rfl, hsize.symm⟩)
  | closing label p code _ _ hfill =>
    rw [← (Draft.fillBytes_spec hfill).1] at hk
    exact Or.inl (exists_known_of_append code _ hk hlt)
  | resolving code _ hfill =>
    have hsize : code.size = a.code.size := Labels.size_fillAll hfill
    exact absurd (hsize ▸ hlt : k < a.code.size) (Nat.not_lt.mpr hk)

/-! ### Bytes and the commands that emit them -/

/-- Every byte of the code was emitted by a command: the first after which the code reaches it.  By
induction on the commands. -/
theorem exists_command {commands : List Command} {a b : Assembler}
    (h : session commands a = .ok () b) {k : Nat} (hk : a.code.size ≤ k) (hlt : k < b.code.size) :
    ∃ before command after a₁ a₂, commands = before ++ command :: after ∧
      session before a = .ok () a₁ ∧ command.run a₁ = .ok () a₂ ∧ a₁.code.size ≤ k ∧
      k < a₂.code.size := by
  induction commands generalizing a with
  | nil =>
    obtain ⟨-, rfl⟩ := EStateM.Result.ok.inj h
    omega
  | cons command commands ih =>
    obtain ⟨c, hrun, hrest⟩ := session_cons.mp h
    by_cases hc : k < c.code.size
    · exact ⟨[], command, commands, a, c, rfl, rfl, hrun, hk, hc⟩
    · obtain ⟨before, other, after, a₁, a₂, rfl, hbefore, hother⟩ := ih hrest (by omega)
      exact ⟨command :: before, other, after, a₁, a₂, rfl,
        session_cons.mpr ⟨c, hrun, hbefore⟩, hother⟩

/-- A procedure that is open at first and not in the end is ended by a command.  By induction on the
commands, since each keeps it open or ends it. -/
theorem exists_exit {commands : List Command} {a b : Assembler} {p : Procedure}
    (h : session commands a = .ok () b) (hopen : a.procedure? = some p)
    (hclosed : b.procedure? = none) :
    ∃ before label after a₁ a₂ q, commands = before ++ .exit label :: after ∧
      session before a = .ok () a₁ ∧ (Command.exit label).run a₁ = .ok () a₂ ∧
      a₁.procedure? = some q ∧ q.sizeSlot = p.sizeSlot := by
  induction commands generalizing a p with
  | nil =>
    obtain ⟨-, rfl⟩ := EStateM.Result.ok.inj h
    cases hopen.symm.trans hclosed
  | cons command commands ih =>
    obtain ⟨c, hrun, hrest⟩ := session_cons.mp h
    rcases (Command.changes hrun).staysOpen hopen with ⟨label, rfl⟩ | ⟨q, hq, hslot⟩
    · exact ⟨[], label, commands, a, c, p, rfl, rfl, hrun, hopen, rfl⟩
    · -- the procedure is still open, so it is ended later
      obtain ⟨before, label, after, a₁, a₂, r, rfl, hbefore, hexit, hr, hslot'⟩ := ih hrest hq
      exact ⟨command :: before, label, after, a₁, a₂, r, rfl,
        session_cons.mpr ⟨c, hrun, hbefore⟩, hexit, hr, hslot'.trans hslot⟩

/-- A procedure that a command leaves open is ended by another one, if none is open in the end. -/
theorem Carries.exists_exit {commands : List Command} {command : Command} {a a₁ a₂ : Assembler}
    {p : Procedure} (h : Carries commands command a₁ a₂)
    (hsession : session commands .empty = .ok () a) (hopen : a₂.procedure? = some p)
    (hclosed : a.procedure? = none) :
    ∃ label a₃ a₄ q, Carries commands (.exit label) a₃ a₄ ∧ a₃.procedure? = some q ∧
      q.sizeSlot = p.sizeSlot := by
  obtain ⟨before, after, rfl, hbefore, hrun⟩ := h
  have hafter := session_after hsession hbefore hrun
  obtain ⟨between, label, rest, a₃, a₄, q, rfl, hbetween, hexit, hq, hslot⟩ :=
    Assembler.exists_exit hafter hopen hclosed
  refine ⟨label, a₃, a₄, q, ⟨before ++ command :: between, rest, by simp, ?_, hexit⟩, hq, hslot⟩
  exact session_append.mpr ⟨a₁, hbefore, session_cons.mpr ⟨a₂, hrun, hbetween⟩⟩

/-- What a command leads to becomes part of the finished image, whatever commands follow it. -/
theorem Carries.realizedBy {commands : List Command} {command : Command} {a b a₁ a₂ : Assembler}
    {image : Image} (h : Carries commands command a₁ a₂)
    (hsession : session commands .empty = .ok () a) (hfinish : finish a = .ok (.ok image) b) :
    a₂.RealizedBy image b.labels.address? := by
  obtain ⟨before, after, rfl, hbefore, hrun⟩ := h
  have hafter := session_after hsession hbefore hrun
  exact .of_effects (effects_session hafter) (realizedBy_of_finish hfinish)

/-- A finished image has as much code as the program, and no more than can be addressed. -/
theorem length_of_finish {a b : Assembler} {image : Image} (h : finish a = .ok (.ok image) b) :
    image.code.length = a.code.size ∧ image.code.length ≤ 65536 := by
  obtain ⟨main, startPc, code, -, -, -, hfill, -, himage⟩ := finish_eq_ok h
  obtain ⟨hsize, bs, hbytes, rfl⟩ := image_eq_ok himage
  have hlength : bs.length = code.size := by
    have hslots : code.slots.toList = bs.map Slot.known := Draft.slots_of_bytesFrom hbytes
    rw [Draft.size_eq_length, hslots, List.length_map]
  show bs.length = _ ∧ bs.length ≤ 65536
  rw [hlength, ← Labels.size_fillAll hfill]
  exact ⟨rfl, hsize⟩

/-- Bytes that stand in code are a part of it. -/
theorem take_of_codeAt {code : List UInt8} {address : Nat} {bs : List UInt8}
    (h : Machine.CodeAt code.toArray address bs) : (code.drop address).take bs.length = bs := by
  apply List.ext_getElem?
  intro k
  by_cases hk : k < bs.length
  · have hbyte := h k hk
    rw [List.getElem?_toArray] at hbyte
    rw [List.getElem?_take_of_lt hk, List.getElem?_drop, hbyte]
  · rw [List.getElem?_eq_none (Nat.le_of_not_lt hk), List.getElem?_take, if_neg hk]

/-- The operand of a command that goes to a label, in an image that realizes the program.  The
operand is at the end of what the command emits, and a branch has another instruction before it. -/
theorem Command.operand_of_realizedBy {command : Command} {label : String} {a b : Assembler}
    {image : Image} {table : String → Option Nat} (htarget : command.target? = some label)
    (hrun : command.run a = .ok () b) (h : b.RealizedBy image table) :
    ∃ slot n, slot + 2 = b.code.size ∧ a.code.size < slot ∧ table label = some n ∧
      Machine.CodeAt image.code.toArray slot (BigEndian.bytes 2 n) := by
  have hemit : ∀ (t : Transfer) (a₁ : Assembler), a.code.size ≤ a₁.code.size →
      emitLabel t.opcode label a₁ = .ok () b →
      ∃ slot n, slot + 2 = b.code.size ∧ a.code.size < slot ∧ table label = some n ∧
        Machine.CodeAt image.code.toArray slot (BigEndian.bytes 2 n) := by
    intro t a₁ hle hemit
    obtain ⟨n, htable, hcode, hsize⟩ := RealizedBy.codeAt_emitLabel hemit h
    rw [Transfer.bytes_instruction, ← List.singleton_append, Machine.codeAt_append] at hcode
    exact ⟨a₁.code.size + 1, n, hsize.symm, Nat.lt_succ_of_le hle, htable, hcode.2⟩
  cases command with
  | branchIf value l =>
    obtain rfl := Option.some.inj htarget
    obtain ⟨_, a₁, hpush, hbranch⟩ := Action.bind_eq_ok.mp hrun
    obtain ⟨-, rfl⟩ := EStateM.Result.ok.inj ((pushConst_eq _ a).symm.trans hpush)
    refine hemit .branch _ ?_ hbranch
    rw [size_append]
    exact Nat.le_add_right _ _
  | jump l =>
    obtain rfl := Option.some.inj htarget
    exact hemit .jump a (Nat.le_refl _) hrun
  | call l =>
    obtain rfl := Option.some.inj htarget
    exact hemit .call a (Nat.le_refl _) hrun
  | _ => cases htarget

/-- The size of a frame, in an image that realizes the program after the end of the procedure.  It
is known from then on. -/
theorem frame_of_realizedBy {label : String} {a b : Assembler} {p : Procedure} {image : Image}
    {table : String → Option Nat} (hopen : a.procedure? = some p)
    (hrun : (Command.exit label).run a = .ok () b) (h : b.RealizedBy image table) :
    image.code[p.sizeSlot]? = some (UInt8.ofNat p.size) := by
  obtain ⟨q, code, hq, -, hfill, -, rfl⟩ := exit_eq_ok hrun
  obtain rfl := Option.some.inj (hopen.symm.trans hq)
  have hknown : code.slots[p.sizeSlot]? = some (.known (UInt8.ofNat p.size)) :=
    Draft.known_of_fillBytes hfill (k := 0) Nat.one_pos
  exact h.code _ _ ((Draft.extends_append _ _).2 _ _ hknown)

/-- **Labels are resolved.**  In a finished image the operand of every jump, branch and call is
the address of its label, no matter when the label was defined.  Every other byte is the one that
the command which emitted it put there, or the size of a frame that was filled in when its
procedure ended.  At no time does the order of the references matter: filling them in succeeds, with
the same answer and the same code, and leaves the same labels and references. -/
theorem bytes_resolved {commands : List Command} {a b : Assembler} {image : Image}
    (hsession : session commands .empty = .ok () a) (hfinish : finish a = .ok (.ok image) b) :
    (∀ command label a₁ a₂, Carries commands command a₁ a₂ → command.target? = some label →
      ∃ slot n, slot + 2 = a₂.code.size ∧ a₁.code.size < slot ∧
        b.labels.address? label = some n ∧
        (image.code.drop slot).take 2 = BigEndian.bytes 2 (n % 65536)) ∧
    (∀ k, k < image.code.length → ∃ command a₁ a₂, Carries commands command a₁ a₂ ∧
      a₁.code.size ≤ k ∧ k < a₂.code.size ∧
      ((∃ label, command.target? = some label ∧ a₂.code.size ≤ k + 2) ∨
        (∃ byte, a₂.code.slots[k]? = some (.known byte) ∧ image.code[k]? = some byte) ∨
        ∃ label params isMain exitLabel a₃ a₄ p, command = .enter label params isMain ∧
          k = a₁.code.size + 2 ∧ Carries commands (.exit exitLabel) a₃ a₄ ∧
          a₃.procedure? = some p ∧ p.sizeSlot = k ∧
          image.code[k]? = some (UInt8.ofNat p.size))) ∧
    ∀ before after a₁ table, commands = before ++ after →
      session before .empty = .ok () a₁ → Labels.Reorders table a₁.labels →
      ∃ result t t' d, a₁.labels.resolve a₁.code = .ok (result, t, d) ∧
        table.resolve a₁.code = .ok (result, t', d) ∧ t'.Reorders t := by
  refine ⟨?_, ?_, ?_⟩
  · intro command label a₁ a₂ hcarries htarget
    have hrealized := hcarries.realizedBy hsession hfinish
    obtain ⟨slot, n, hsize, hslot, haddress, hcode⟩ :=
      Command.operand_of_realizedBy htarget hcarries.run hrealized
    have hmod : BigEndian.bytes 2 (n % 65536) = BigEndian.bytes 2 n := BigEndian.bytes_mod 2 n
    refine ⟨slot, n, hsize, hslot, haddress, ?_⟩
    rw [hmod]
    exact take_of_codeAt hcode
  · intro k hk
    rw [(length_of_finish hfinish).1] at hk
    obtain ⟨before, command, after, a₁, a₂, hcommands, hbefore, hrun, hle, hlt⟩ :=
      exists_command hsession (Nat.zero_le k) hk
    have hcarries : Carries commands command a₁ a₂ := ⟨before, after, hcommands, hbefore, hrun⟩
    refine ⟨command, a₁, a₂, hcarries, hle, hlt, ?_⟩
    rcases (Command.changes hrun).byte hle hlt with ⟨byte, hbyte⟩ | htarget |
      ⟨label, params, isMain, p, henter, hk, hopen, hslot⟩
    · exact Or.inr (Or.inl ⟨byte, hbyte, (hcarries.realizedBy hsession hfinish).code k byte hbyte⟩)
    · exact Or.inl htarget
    · -- the procedure has ended, since none is open when the program is finished
      obtain ⟨-, -, -, hclosed, -⟩ := finish_eq_ok hfinish
      obtain ⟨exitLabel, a₃, a₄, q, hexit, hq, hslot'⟩ :=
        hcarries.exists_exit hsession hopen hclosed
      have hrealized := hexit.realizedBy hsession hfinish
      have hframe := frame_of_realizedBy hq hexit.run hrealized
      rw [hslot', hslot] at hframe
      exact Or.inr (Or.inr ⟨label, params, isMain, exitLabel, a₃, a₄, q, henter, hk, hexit, hq,
        hslot'.trans hslot, hframe⟩)
  · intro before after a₁ table hcommands hbefore htable
    obtain ⟨items, hitems⟩ := laidOut_of_session hbefore
    obtain ⟨hnodup, hholes, -⟩ := hitems.awaited
    obtain ⟨result, t, d, hresolve⟩ := Labels.resolve_isOk _ hnodup hholes
    obtain ⟨t', ht', hresolve'⟩ := htable.resolve hresolve
    exact ⟨result, t, t', d, hresolve, hresolve', ht'⟩

/-- A jump to a label that is defined later and a branch to one that was defined before. -/
theorem bytes_resolved_both_ways : ∃ (a b : Assembler) (image : Image),
    session [.enter "main" 0 true, .allocLocal 2, .define "top", .jump "end",
      .branchIf true "top", .exit "end"] .empty = .ok () a ∧
    finish a = .ok (.ok image) b ∧
    image.code = [48, 0, 2, 39, 0, 10, 16, 40, 0, 3, 49, 47] ∧
    ∀ command label a₁ a₂, Carries [.enter "main" 0 true, .allocLocal 2, .define "top",
        .jump "end", .branchIf true "top", .exit "end"] command a₁ a₂ →
      command.target? = some label →
      ∃ slot n, slot + 2 = a₂.code.size ∧ a₁.code.size < slot ∧
        b.labels.address? label = some n ∧
        (image.code.drop slot).take 2 = BigEndian.bytes 2 (n % 65536) := by
  have hsession : session [.enter "main" 0 true, .allocLocal 2, .define "top", .jump "end",
      .branchIf true "top", .exit "end"] .empty = .ok () {
        code := ⟨#[.known 48, .known 0, .known 2, .known 39, .hole, .hole, .known 16, .known 40,
          .known 0, .known 3, .known 49, .known 47]⟩
        statics := .empty
        labels := ⟨[("end", 10), ("top", 3), ("main", 0)], [("end", 4)]⟩
        procedure? := none
        main? := some "main" } := by
    decide +kernel
  have hfinish : finish {
        code := ⟨#[.known 48, .known 0, .known 2, .known 39, .hole, .hole, .known 16, .known 40,
          .known 0, .known 3, .known 49, .known 47]⟩
        statics := .empty
        labels := ⟨[("end", 10), ("top", 3), ("main", 0)], [("end", 4)]⟩
        procedure? := none
        main? := some "main" }
      = .ok (.ok (.ofSegments [48, 0, 2, 39, 0, 10, 16, 40, 0, 3, 49, 47] [] 0)) {
        code := ⟨#[.known 48, .known 0, .known 2, .known 39, .known 0, .known 10, .known 16,
          .known 40, .known 0, .known 3, .known 49, .known 47]⟩
        statics := .empty
        labels := ⟨[("end", 10), ("top", 3), ("main", 0)], []⟩
        procedure? := none
        main? := some "main" } := by
    rfl
  obtain ⟨hoperands, -, -⟩ := bytes_resolved hsession hfinish
  exact ⟨_, _, _, hsession, hfinish, rfl, hoperands⟩

end Assembler
end MJ
