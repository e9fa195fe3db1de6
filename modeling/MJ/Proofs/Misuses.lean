import MJ.Proofs.Session

/-!
# Commands that fail

A command that fails names its misuse.  Most misuses have to do with the command alone, or with the
open procedure.  Two depend on what has been written before: a label may be taken, and a byte that
is to be filled may be no hole.  Commands that define no label never meet the first, and commands
that fill nothing never meet the second, whatever the program is.

## Main definitions

* `Misuse.isLabelTaken`, `Misuse.isFilling` — the two kinds of misuse.
* `Asm.NeverClashes` — an action that meets neither of them.
* `Assembler.Command.fills` — whether a command fills bytes.

## Main results

* `Assembler.Command.misuse_of_run` — **a label is found taken, or a byte no hole, only by a command
  that defines the label, or that fills bytes.**
-/

namespace MJ

/-- Whether a label was to be defined a second time.  The label and its address are not looked at.
-/
def Misuse.isLabelTaken : Misuse → Bool
  | labelTaken _ _ => true
  | _ => false

/-- Whether a misuse is that a byte to be filled is no hole. -/
def Misuse.isFilling : Misuse → Bool
  | noHole _ | pastEnd _ _ => true
  | _ => false

/-- An action that neither finds a label taken nor fills what is no hole.  It may fail for another
reason, such as an operand that is too large. -/
def Asm.NeverClashes {α : Type} (x : Asm α) : Prop :=
  ∀ ⦃a b : Assembler⦄ ⦃m : Misuse⦄, x a = .error m b →
    m.isLabelTaken = false ∧ m.isFilling = false

namespace Asm.NeverClashes

open Assembler

theorem of_ok {α : Type} {x : Asm α} (h : ∀ a, ∃ v b, x a = .ok v b) : x.NeverClashes := by
  intro a b m herror
  obtain ⟨v, c, hok⟩ := h a
  rw [hok] at herror
  cases herror

theorem bind {α β : Type} {x : Asm α} {f : α → Asm β} (hx : x.NeverClashes)
    (hf : ∀ v, (f v).NeverClashes) : (x >>= f).NeverClashes := by
  intro a b m h
  rcases Action.bind_eq_error.mp h with h | ⟨v, c, -, h⟩
  · exact hx h
  · exact hf v h

theorem discard {α : Type} {x : Asm α} (hx : x.NeverClashes) :
    (do let _ ← x : Asm Unit).NeverClashes :=
  hx.bind fun _ => .of_ok fun _ => ⟨_, _, rfl⟩

theorem emit (op : Opcode) : (Assembler.emit op).NeverClashes :=
  .of_ok fun a => ⟨_, _, emit_eq op a⟩

theorem emitWith (op : Opcode) (w : Width) (v : Word) :
    (Assembler.emitWith op w v).NeverClashes := by
  intro a b m h
  cases hv : w.holds v with
  | true =>
    rw [Assembler.emitWith, if_pos hv] at h
    cases h
  | false =>
    rw [emitWith_of_not_holds hv] at h
    obtain ⟨rfl, -⟩ := EStateM.Result.error.inj h
    exact ⟨rfl, rfl⟩

theorem pushConst (v : Word) : (Assembler.pushConst v).NeverClashes :=
  .of_ok fun a => ⟨_, _, pushConst_eq v a⟩

/-- A comparison fills holes, but those that it has made itself, and so it never fails. -/
theorem compare (test : Comparison) : (Assembler.compare test).NeverClashes :=
  .of_ok fun a => ⟨_, _, compare_eq test a⟩

theorem emitLabel (op : Opcode) (label : String) :
    (Assembler.emitLabel op label).NeverClashes := by
  refine .bind (.of_ok fun a => ⟨_, a, rfl⟩) fun address? => ?_
  cases address? with
  | some n => exact .emitWith op .s16 _
  | none =>
    exact .bind (.emit op) fun _ =>
      .bind (.of_ok fun a => ⟨_, _, emitHoles_eq 2 a⟩) fun _ => .of_ok fun _ => ⟨_, _, rfl⟩

theorem allocStatic (words : Nat) : (Assembler.allocStatic words).NeverClashes := by
  intro a b m h
  rw [Assembler.allocStatic] at h
  split at h
  · cases h
  · obtain ⟨rfl, -⟩ := EStateM.Result.error.inj h
    exact ⟨rfl, rfl⟩

theorem allocLocal (words : Nat) : (Assembler.allocLocal words).NeverClashes := by
  intro a b m h
  rw [Assembler.allocLocal] at h
  cases hopen : a.procedure? with
  | none =>
    rw [hopen] at h
    obtain ⟨rfl, -⟩ := EStateM.Result.error.inj h
    exact ⟨rfl, rfl⟩
  | some p =>
    rw [hopen] at h
    simp only [Procedure.alloc, Procedure.countedSize] at h
    by_cases hsize : p.size < UInt64.size
    · rw [if_pos hsize] at h
      cases h
    · rw [if_neg hsize] at h
      obtain ⟨rfl, -⟩ := EStateM.Result.error.inj h
      exact ⟨rfl, rfl⟩

theorem requireClosed (label : String) : (Assembler.requireClosed label).NeverClashes := by
  intro a b m h
  rw [Assembler.requireClosed] at h
  split at h
  · obtain ⟨rfl, -⟩ := EStateM.Result.error.inj h
    exact ⟨rfl, rfl⟩
  · cases h

theorem claimMain (label : String) : (Assembler.claimMain label).NeverClashes := by
  intro a b m h
  rw [Assembler.claimMain] at h
  split at h
  · obtain ⟨rfl, -⟩ := EStateM.Result.error.inj h
    exact ⟨rfl, rfl⟩
  · cases h

theorem close (label : String) : (Assembler.close label).NeverClashes := by
  intro a b m h
  rw [Assembler.close] at h
  cases hopen : a.procedure? with
  | none =>
    rw [hopen] at h
    obtain ⟨rfl, -⟩ := EStateM.Result.error.inj h
    exact ⟨rfl, rfl⟩
  | some p =>
    rw [hopen] at h
    simp only [Procedure.sizeByte, Procedure.countedSize] at h
    by_cases hcount : p.size < UInt64.size
    · rw [if_pos hcount] at h
      by_cases hsize : p.size ≤ 255
      · simp only [Bind.bind, Except.bind, if_pos hsize] at h
        cases h
      · simp only [Bind.bind, Except.bind, if_neg hsize] at h
        obtain ⟨rfl, -⟩ := EStateM.Result.error.inj h
        exact ⟨rfl, rfl⟩
    · rw [if_neg hcount] at h
      obtain ⟨rfl, -⟩ := EStateM.Result.error.inj h
      exact ⟨rfl, rfl⟩

end Asm.NeverClashes

/-! ### Labels that are taken and bytes that are no holes -/

theorem Draft.isFilling_of_fillBytes {d : Draft} {address : Nat} {bs : List UInt8} {m : Misuse}
    (h : d.fillBytes address bs = .error m) : m.isFilling = true := by
  obtain ⟨i, -, -, ⟨b, -, rfl⟩ | ⟨-, rfl⟩⟩ := refuses_of_fillBytes h
  · rfl
  · rfl

theorem Labels.isFilling_of_fillAll {t : Labels} {references : List (String × Nat)} {d : Draft}
    {m : Misuse} (h : t.fillAll d references = .error m) : m.isFilling = true := by
  induction references generalizing d with
  | nil => cases h
  | cons reference references ih =>
    rw [fillAll] at h
    cases hfill : d.fill reference.2 (Int32.ofNat ((t.address? reference.1).getD 0)) .s16 with
    | ok d' =>
      rw [hfill] at h
      exact ih h
    | error cause =>
      rw [hfill] at h
      cases h
      exact Draft.isFilling_of_fillBytes hfill

theorem Misuse.isLabelTaken_of_isFilling {m : Misuse} (h : m.isFilling = true) :
    m.isLabelTaken = false := by
  cases m <;> first | rfl | cases h

namespace Assembler

theorem isFilling_of_fill {address : Nat} {v : Word} {w : Width} {a b : Assembler} {m : Misuse}
    (h : fill address v w a = .error m b) : m.isFilling = true := by
  rw [fill, Draft.fill] at h
  cases hfill : a.code.fillBytes address (w.encode v) with
  | error cause =>
    rw [hfill] at h
    obtain ⟨rfl, -⟩ := EStateM.Result.error.inj h
    exact Draft.isFilling_of_fillBytes hfill
  | ok code =>
    rw [hfill] at h
    cases h

theorem isFilling_of_finish {a b : Assembler} {m : Misuse} (h : finish a = .error m b) :
    m.isFilling = true := by
  rw [finish] at h
  split at h
  · cases h
  · cases h
  · split at h
    · cases h
    · split at h
      · -- all else that can be wrong at the end is a diagnostic; filling in is not
        rename_i hresolve
        obtain ⟨rfl, -⟩ := EStateM.Result.error.inj h
        rw [Labels.resolve] at hresolve
        split at hresolve
        · cases hresolve
        · cases hfill : a.labels.fillAll a.code a.labels.references.reverse with
          | error cause =>
            rw [hfill] at hresolve
            cases hresolve
            exact Labels.isFilling_of_fillAll hfill
          | ok code =>
            rw [hfill] at hresolve
            cases hresolve
      · dsimp only at h
        split at h <;> cases h

theorem taken_of_define {label : String} {a b : Assembler} {m : Misuse}
    (h : define label a = .error m b) :
    ∃ n, a.labels.address? label = some n ∧ m = .labelTaken label n := by
  rw [define, Labels.define] at h
  cases hlabel : a.labels.address? label with
  | some n =>
    rw [hlabel] at h
    obtain ⟨rfl, -⟩ := EStateM.Result.error.inj h
    exact ⟨n, rfl, rfl⟩
  | none =>
    rw [hlabel] at h
    cases h

/-! ### Commands -/

/-- Whether a command fills bytes of the code: the size of a frame, or the addresses of labels. -/
def Command.fills : Command → Bool
  | exit _ | finish => true
  | _ => false

/-- Whether a command may fail by a misuse: a label is taken only for a command that defines it, and
only a command that fills bytes may find that one is no hole. -/
def Command.MayMeet (command : Command) (a : Assembler) (m : Misuse) : Prop :=
  (m.isLabelTaken = true → ∃ label ∈ command.labels, a.labels.address? label ≠ none) ∧
    (m.isFilling = true → command.fills = true)

namespace Command.MayMeet

variable {command : Command} {a : Assembler} {m : Misuse}

theorem of_neverClashes {α : Type} {x : Asm α} (hx : x.NeverClashes) {b c : Assembler}
    (h : x b = .error m c) : command.MayMeet a m := by
  obtain ⟨hlabel, hfilling⟩ := hx h
  exact ⟨fun h => absurd (hlabel.symm.trans h) Bool.false_ne_true,
    fun h => absurd (hfilling.symm.trans h) Bool.false_ne_true⟩

/-- A command that fills bytes found one that is no hole.  This is not the misuse of a label, and so
nothing need be known of labels. -/
theorem of_isFilling (hm : m.isFilling = true) (hfills : command.fills = true) :
    command.MayMeet a m :=
  ⟨fun h => absurd ((Misuse.isLabelTaken_of_isFilling hm).symm.trans h) Bool.false_ne_true,
    fun _ => hfills⟩

/-- A command defines a label, when the labels are still those of the program it began with. -/
theorem of_define {label : String} (hlabel : label ∈ command.labels) {b c : Assembler}
    (h : Assembler.define label b = .error m c) (hlabels : b.labels = a.labels) :
    command.MayMeet a m := by
  obtain ⟨n, htaken, rfl⟩ := taken_of_define h
  rw [hlabels] at htaken
  exact ⟨fun _ => ⟨label, hlabel, fun hnone => nomatch htaken.symm.trans hnone⟩,
    fun h => absurd h Bool.false_ne_true⟩

end Command.MayMeet

/-- **A label is found taken, or a byte no hole, only by a command that defines the label, or that
fills bytes.**  Most commands never clash; the ones that open or close a procedure are followed up
to where they define their label. -/
theorem Command.misuse_of_run {command : Command} {a b : Assembler} {m : Misuse}
    (h : command.run a = .error m b) : command.MayMeet a m := by
  have never (hx : command.run.NeverClashes) : command.MayMeet a m := .of_neverClashes hx h
  cases command with
  | define label => exact .of_define (List.mem_singleton_self _) h rfl
  | enter label params isMain =>
    -- the part that all procedures have in common, after the checks
    have hbegin {c : Assembler} (h : (do
        Assembler.define label
        emitWith .enter .s8 (Int32.ofNat params)
        let slot ← emitHoles 1
        modify fun a => { a with procedure? := some (.ofParams label params slot) } : Asm Unit) c
          = .error m b) (hlabels : c.labels = a.labels) :
        (Command.enter label params isMain).MayMeet a m := by
      rcases Action.bind_eq_error.mp h with h | ⟨_, _, -, h⟩
      · exact .of_define (List.mem_singleton_self _) h hlabels
      · refine .of_neverClashes (.bind (.emitWith _ _ _) fun _ => ?_) h
        exact .bind (.of_ok fun a => ⟨_, _, emitHoles_eq 1 a⟩) fun _ => .of_ok fun _ => ⟨_, _, rfl⟩
    rcases Action.bind_eq_error.mp h with hrequire | ⟨_, a₁, hclosed, hrest⟩
    · exact .of_neverClashes (.requireClosed label) hrequire
    obtain ⟨-, rfl⟩ := requireClosed_eq_ok hclosed
    cases isMain with
    | false => exact hbegin hrest rfl
    | true =>
      rcases Action.bind_eq_error.mp hrest with hclaim | ⟨_, a₂, hclaim, hlast⟩
      · exact .of_neverClashes (.claimMain label) hclaim
      obtain ⟨-, rfl⟩ := claimMain_eq_ok hclaim
      exact hbegin hlast rfl
  | exit label =>
    rcases Action.bind_eq_error.mp h with h | ⟨⟨p, size⟩, a₁, hclose, h⟩
    · exact .of_neverClashes (.close label) h
    obtain ⟨-, -, -, rfl⟩ := close_eq_ok hclose
    -- the size is filled in before the label at the end is defined
    rcases Action.bind_eq_error.mp h with h | ⟨_, a₂, hfill, h⟩
    · exact .of_isFilling (isFilling_of_fill h) rfl
    obtain ⟨code, -, rfl⟩ := fill_eq_ok hfill
    rcases Action.bind_eq_error.mp h with h | ⟨_, _, -, h⟩
    · exact .of_define (List.mem_singleton_self _) h rfl
    · exact .of_neverClashes (.bind (.emit .exit) fun _ => .emit .ret) h
  | finish =>
    rcases Action.bind_eq_error.mp h with h | ⟨_, _, -, h⟩
    · exact .of_isFilling (isFilling_of_finish h) rfl
    · cases h
  | allocStatic words => exact never (.discard (.allocStatic words))
  | allocString text => exact never (.discard (.of_ok fun _ => ⟨_, _, rfl⟩))
  | allocLocal words => exact never (.discard (.allocLocal words))
  | newObject words => exact never (.emitWith .new .s16 _)
  | newArray => exact never (.emitWith .newarray .s8 1)
  | pushConst v => exact never (.pushConst v)
  | loadWord r offset => exact never (.emitWith r.loadOpcode r.offsetWidth offset)
  | storeWord r offset => exact never (.emitWith r.storeOpcode r.offsetWidth offset)
  | printInteger => exact never (.bind (.pushConst 0) fun _ => .emit .print)
  | printByte => exact never (.bind (.pushConst 0) fun _ => .emit .bprint)
  | printString address => exact never (.emitWith .sprint .s16 _)
  | disjunction =>
    exact never (.bind (.emit .add) fun _ => .bind (.pushConst 1) fun _ => .compare .ge)
  | negation => exact never (.bind (.emit .neg) fun _ => .bind (.pushConst 1) fun _ => .emit .add)
  | compare test => exact never (.compare test)
  | branchIf value label => exact never (.bind (.pushConst _) fun _ => .emitLabel .jeq label)
  | jump label => exact never (.emitLabel .jmp label)
  | call label => exact never (.emitLabel .call label)
  | loadElement | storeElement | arrayLength | readInteger | readByte | neg | add | sub | mul
  | div | rem | conjunction => exact never (.emit _)

end Assembler
end MJ
