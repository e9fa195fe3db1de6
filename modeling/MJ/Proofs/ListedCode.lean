import Mathlib.Data.List.Forall2
import MJ.Proofs.Boundaries
import MJ.Proofs.Commit
import MJ.Proofs.Decoding
import MJ.Proofs.Guarded.Agreement

/-!
# Listed code is executed code

A listing decodes the code from its start to its end, the machine fetches one instruction where its
program counter is.  Both read the same instruction wherever the listing has one.  They differ in
the signs of operands: the listing shows offsets and sizes of frames without a sign, while the
machine reads all operands with one and drops it when it uses them.

## Main definitions

* `Opcode.Agrees` — the operand of a listing and the one that the machine reads.
* `Instruction.Transfers` — the instructions that go on at their target.

## Main results

* `Machine.fetch_listed` — the machine fetches what is listed.
* `Machine.pc_of_execute` — where control is after an instruction.
* `Machine.listed_executed` — **the listing and the machine read the same program.**
-/

namespace MJ

/-- Whether a listing shows the operand `v` of the machine as `n`: as it is, or without its sign.
Operands without a sign are bytes, so that they agree modulo 256. -/
def Opcode.Agrees (op : Opcode) (v : Word) (n : Int) : Prop :=
  if op.isUnsigned then v.toInt % 256 = n % 256 else v.toInt = n

/-- Whether an instruction goes on at its target, given the stack it starts with.  A return goes on
elsewhere too, but it has no target in the code. -/
def Instruction.Transfers (stack : Array Word) : Instruction → Prop
  | jump _ | call _ => True
  | branch test _ =>
    ∃ (below : Array Word) (a b : Word), stack = (below.push a).push b ∧ test.holds a b = true
  | _ => False

/-- Whether an instruction may go on elsewhere than after itself. -/
def Instruction.movesControl : Instruction → Bool
  | jump _ | branch _ _ | call _ | ret => true
  | _ => false

theorem Instruction.movesControl_of_target? {i : Instruction} {n : Nat} (h : i.target? = some n) :
    i.movesControl = true := by
  cases i with
  | jump | branch | call => rfl
  | _ => cases h

theorem Instruction.Transfers.movesControl {i : Instruction} {stack : Array Word}
    (h : i.Transfers stack) : i.movesControl = true := by
  cases i with
  | jump | branch | call => rfl
  | _ => exact h.elim

namespace Code

/-- The part of the code that an entry of its listing is about.  By induction on the entries before
it. -/
theorem locate_eq_append_cons {is : List Instruction} {base : Nat} {front rest : List Located}
    {d : Located} (h : locate base is = front ++ d :: rest) :
    ∃ js ks, is = js ++ d.instruction :: ks ∧ d.address = base + (ofInstructions js).length ∧
      rest = locate (d.address + d.instruction.size) ks := by
  induction front generalizing is base with
  | nil =>
    cases is with
    | nil => cases h
    | cons i is =>
      obtain ⟨rfl, rfl⟩ := List.cons.inj h
      exact ⟨[], is, rfl, rfl, rfl⟩
  | cons e front ih =>
    cases is with
    | nil => cases h
    | cons i is =>
      obtain ⟨-, htail⟩ := List.cons.inj h
      obtain ⟨js, ks, rfl, haddress, hrest⟩ := ih htail
      refine ⟨i :: js, ks, rfl, ?_, hrest⟩
      rw [haddress, ofInstructions_cons, List.length_append, Instruction.length_bytes,
        Nat.add_assoc]

/-- Instructions end where the next ones start, or at the end of the code. -/
theorem head?_locate (ks : List Instruction) (base : Nat) :
    ((locate base ks).head?.map Located.address).getD (base + (ofInstructions ks).length)
      = base := by
  cases ks with
  | nil => rfl
  | cons k ks => rfl

end Code

namespace Machine

/-! ### What is fetched -/

/-- The machine fetches what stands in the code; the end marker is no instruction to it. -/
theorem fetch_listed (js ks : List Instruction) (i : Instruction) :
    fetch (Code.ofInstructions (js ++ i :: ks)).toArray (Code.ofInstructions js).length
      = if i = .last then .error (.invalidOpcode 56) else .ok i := by
  have hcode : CodeAt (Code.ofInstructions (js ++ i :: ks)).toArray
      (Code.ofInstructions js).length i.bytes := by
    rw [Code.ofInstructions_append, Code.ofInstructions_cons]
    exact codeAt_toArray _ _ _
  by_cases hlast : i = .last
  · subst hlast
    have hbyte : (Code.ofInstructions (js ++ .last :: ks)).toArray[(Code.ofInstructions js).length]?
        = some 56 := hcode 0 (by decide)
    rw [if_pos rfl, Guarded.fetch_of_byte hbyte]
    rfl
  · rw [if_neg hlast]
    exact fetch_of_codeAt hcode hlast

/-- The operands stand after the opcode, and the machine decodes them there with their signs. -/
theorem decodeAll_listed (js ks : List Instruction) (i : Instruction) :
    Guarded.decodeAll i.opcode.operands
      ((Code.ofInstructions (js ++ i :: ks)).drop ((Code.ofInstructions js).length + 1))
      = Guarded.words i := by
  have hdrop : (Code.ofInstructions (js ++ i :: ks)).drop ((Code.ofInstructions js).length + 1)
      = i.operandBytes ++ Code.ofInstructions ks := by
    rw [Code.ofInstructions_append, Code.ofInstructions_cons, List.drop_append,
      List.drop_eq_nil_of_le (Nat.le_succ _), Nat.add_sub_cancel_left]
    rfl
  rw [hdrop, Guarded.decodeAll_operandBytes]

/-- A byte with and without its sign. -/
theorem toInt_toInt32_emod (b : UInt8) : b.toInt8.toInt32.toInt % 256 = (b.toNat : Int) % 256 := by
  have hmod : b.toInt8.toInt % 256 = b.toNat := toInt_emod b.toBitVec
  rw [Int8.toInt_toInt32, hmod]
  have hlt := b.toNat_lt
  omega

/-- The listing shows the operands that are fetched.  The cases are those of the operands: numbers
of words in a frame have no sign, and all others do. -/
theorem words_agree (i : Instruction) :
    List.Forall₂ i.opcode.Agrees (Guarded.words i) i.operands := by
  have hsigned : ∀ {op : Opcode} (n : Int16), op.isUnsigned = false →
      List.Forall₂ op.Agrees [n.toInt32] [n.toInt] := by
    intro op n hop
    refine .cons ?_ .nil
    rw [Opcode.Agrees, hop]
    exact Int16.toInt_toInt32 n
  cases i with
  | load slot | store slot => exact .cons (toInt_toInt32_emod slot) .nil
  | enter params size =>
    exact .cons (toInt_toInt32_emod params) (.cons (toInt_toInt32_emod size) .nil)
  | getStatic n | putStatic n | getField n | putField n | new n | printString n | jump n
  | call n => exact hsigned n rfl
  | branch test n => exact hsigned n (by cases test <;> rfl)
  | const v => exact .cons rfl .nil
  | newArray kind => exact .cons (Int8.toInt_toInt32 kind) .nil
  | _ => exact .nil

/-! ### Where control goes -/

theorem transfers_branch {test : Comparison} {n : Int16} {stack below : Array Word} {a b : Word}
    (hstack : stack = (below.push a).push b) :
    (Instruction.branch test n).Transfers stack ↔ test.holds a b = true := by
  constructor
  · rintro ⟨below', a', b', hstack', hholds⟩
    obtain ⟨rfl, hbelow⟩ := Array.push_eq_push.mp (hstack.symm.trans hstack')
    obtain ⟨rfl, -⟩ := Array.push_eq_push.mp hbelow
    exact hholds
  · exact fun hholds => ⟨below, a, b, hstack, hholds⟩

/-- Four kinds of instructions transfer control, and all others go on after themselves. -/
theorem pc_of_not_movesControl {limits : Limits} {i : Instruction} {s t : State} {goesOn : Bool}
    (hi : i.movesControl = false) (h : execute limits i s = .ok goesOn t) : t.pc = s.pc := by
  have hcommitted := execute_committed limits i s
  rw [h] at hcommitted
  cases goesOn with
  | false => exact hcommitted.1.pc
  | true =>
    obtain ⟨u, hpopped, hcommit⟩ := hcommitted
    cases hcommit with
    | goto target htarget =>
      rw [Instruction.movesControl_of_target? htarget] at hi
      cases hi
    | call n hcall =>
      subst hcall
      cases hi
    | ret address hret =>
      subst hret
      cases hi
    | _ => exact hpopped.pc

/-- Where control is after an instruction: at its target if it transfers control, and else behind
it.  Only the four kinds of instructions that move control have to be looked at. -/
theorem pc_of_execute {limits : Limits} {i : Instruction} {s t : State} {goesOn : Bool}
    (h : execute limits i s = .ok goesOn t) :
    (i.Transfers s.stack → i.target? = some t.pc) ∧
      (¬ i.Transfers s.stack → i ≠ .ret → t.pc = s.pc) := by
  cases hmoves : i.movesControl with
  | false =>
    refine ⟨fun htransfers => ?_, fun _ _ => pc_of_not_movesControl hmoves h⟩
    rw [htransfers.movesControl] at hmoves
    cases hmoves
  | true =>
    cases i with
    | jump n =>
      cases h
      exact ⟨fun _ => rfl, fun hstays => absurd trivial hstays⟩
    | call n =>
      obtain ⟨_, _, hcall, hreturn⟩ := Action.bind_eq_ok.mp h
      cases hreturn
      unfold call at hcall
      split at hcall
      · cases hcall
      · cases hcall
        exact ⟨fun _ => rfl, fun hstays => absurd trivial hstays⟩
    | branch test n =>
      obtain ⟨b, s₁, hb, h₁⟩ := Action.bind_eq_ok.mp h
      obtain ⟨a, s₂, ha, -⟩ := Action.bind_eq_ok.mp h₁
      obtain ⟨stack₁, hstack, rfl⟩ := pop_eq_ok hb
      obtain ⟨below, rfl, -⟩ := pop_eq_ok ha
      rw [execute_branch limits test n hstack] at h
      cases h
      rw [transfers_branch hstack]
      cases test.holds a b with
      | true => exact ⟨fun _ => rfl, fun hstays => absurd rfl hstays⟩
      | false => exact ⟨fun htaken => (Bool.false_ne_true htaken).elim, fun _ _ => rfl⟩
    | ret => exact ⟨fun htransfers => htransfers.elim, fun _ hret => absurd rfl hret⟩
    | _ => cases hmoves

/-- **The listing and the machine read the same program.**  Where the listing of some code has an
instruction, the machine fetches it, unless it is the end marker; it ends where the next one is
listed; its operands are listed as they are read, modulo 256 where they have no sign; and when the
machine has executed it, control is at the target that is listed, if the instruction transfers
control, and at the next instruction otherwise. -/
theorem listed_executed {code : List UInt8} {front rest : List Located} {d : Located}
    (h : Code.decode code = .ok (front ++ d :: rest)) :
    (fetch code.toArray d.address
      = if d.instruction = .last then .error (.invalidOpcode 56) else .ok d.instruction) ∧
    d.address + d.instruction.size = (rest.head?.map Located.address).getD code.length ∧
    List.Forall₂ d.instruction.opcode.Agrees
      (Guarded.decodeAll d.instruction.opcode.operands (code.drop (d.address + 1)))
      d.instruction.operands ∧
    (code.length < 9223372036854775808 → Guarded.fetch code d.address
      = if d.instruction = .last then Guarded.fail (.invalidOpcode 56)
        else pure (d.instruction.opcode,
          Guarded.decodeAll d.instruction.opcode.operands (code.drop (d.address + 1)))) ∧
    ∀ limits s goesOn t, s.pc = d.address → step limits code.toArray s = .ok goesOn t →
      (d.instruction.Transfers s.stack → d.instruction.target? = some t.pc) ∧
      (¬ d.instruction.Transfers s.stack → d.instruction ≠ .ret →
        t.pc = d.address + d.instruction.size) := by
  obtain ⟨is, rfl, hlisting⟩ := Code.decodeFrom_eq_ok.mp h
  obtain ⟨js, ks, rfl, haddress, rfl⟩ := Code.locate_eq_append_cons hlisting.symm
  rw [Nat.zero_add] at haddress
  have hfetch := fetch_listed js ks d.instruction
  have hwords := decodeAll_listed js ks d.instruction
  rw [← haddress] at hfetch hwords
  refine ⟨hfetch, ?_, ?_, ?_, ?_⟩
  · have hlength : (Code.ofInstructions (js ++ d.instruction :: ks)).length
        = d.address + d.instruction.size + (Code.ofInstructions ks).length := by
      rw [Code.ofInstructions_append, Code.ofInstructions_cons, List.length_append,
        List.length_append, Instruction.length_bytes, haddress, Nat.add_assoc]
    rw [hlength, Code.head?_locate]
  · rw [hwords]
    exact words_agree d.instruction
  · intro hlen
    rw [Guarded.fetch_eq hlen, hfetch, hwords]
    split
    · rfl
    · rfl
  · intro limits s goesOn t hpc hstep
    obtain ⟨i, -, hi, hexecute⟩ := execute_of_step hstep
    -- what was executed is what is listed
    have hlisted : i = d.instruction := by
      rw [hpc, hfetch] at hi
      split at hi
      · cases hi
      · exact (Except.ok.inj hi).symm
    subst hlisted
    obtain ⟨htransfers, hstays⟩ := pc_of_execute hexecute
    exact ⟨htransfers, fun hnot hret => (hstays hnot hret).trans (by rw [← hpc]; rfl)⟩

/-- A load from the slot 200, a jump past the end marker and the marker: the slot is fetched as
-56, and the marker is not executed. -/
theorem listed_executed_unsigned :
    Code.decode [1, 200, 39, 0, 6, 56]
      = .ok [⟨0, .load 200⟩, ⟨2, .jump 6⟩, ⟨5, .last⟩] ∧
    Guarded.decodeAll Opcode.load.operands [200, 39, 0, 6, 56] = [-56] ∧
    List.Forall₂ Opcode.load.Agrees
      (Guarded.decodeAll Opcode.load.operands [200, 39, 0, 6, 56]) [200] ∧
    (∀ limits s goesOn t, s.pc = 2 →
      step limits #[1, 200, 39, 0, 6, 56] s = .ok goesOn t → t.pc = 6) ∧
    fetch #[1, 200, 39, 0, 6, 56] 5 = .error (.invalidOpcode 56) := by
  have hload : Code.decode [1, 200, 39, 0, 6, 56]
      = .ok ([] ++ ⟨0, .load 200⟩ :: [⟨2, .jump 6⟩, ⟨5, .last⟩]) :=
    Code.decodeFrom_eq_ok.mpr ⟨[.load 200, .jump 6, .last], rfl, rfl⟩
  have hjump : Code.decode [1, 200, 39, 0, 6, 56]
      = .ok ([⟨0, .load 200⟩] ++ ⟨2, .jump 6⟩ :: [⟨5, .last⟩]) := hload
  have hlast : Code.decode [1, 200, 39, 0, 6, 56]
      = .ok ([⟨0, .load 200⟩, ⟨2, .jump 6⟩] ++ ⟨5, .last⟩ :: []) := hload
  obtain ⟨-, -, hoperands, -⟩ := listed_executed hload
  obtain ⟨-, -, -, -, hcontrol⟩ := listed_executed hjump
  obtain ⟨hmarker, -⟩ := listed_executed hlast
  refine ⟨hload, by decide, hoperands, fun limits s goesOn t hpc hstep => ?_, hmarker⟩
  exact (Option.some.inj ((hcontrol limits s goesOn t hpc hstep).1 trivial)).symm

end Machine
end MJ
