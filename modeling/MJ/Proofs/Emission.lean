import MJ.Assembler.Basic
import MJ.Proofs.Draft

/-!
# What the assembler emits

Each action of the assembler that emits code appends whole instructions.  The exceptions are the
two kinds of operand that are not known when the instruction is emitted: the address of a label
that is not defined yet, and the size of a frame.

## Main definitions

* `Assembler.append` — a program with instructions more.
* `Transfer` — the instructions whose operand is the address of a label.
* `Instruction.ofConst` — the instruction that pushes a constant in its shortest form.
* `Region.loadInstruction`, `Region.storeInstruction` — access to a word of a region.
* `Assembler.compareCode` — the code that turns a comparison into a word.

## Main results

* `Assembler.compare_eq` — both targets of a comparison are filled in by the time it is complete.
* `Assembler.emitLabel_of_address`, `Assembler.emitLabel_of_none` — the two ways to use a label.
-/

namespace MJ

/-! ### Sequences of actions -/

/-- What an action leads to can be compared.  Compilations of fixed programs are computed and
compared with what they should give. -/
instance Action.decidableEqResult {ε σ α : Type} [DecidableEq ε] [DecidableEq σ] [DecidableEq α] :
    DecidableEq (EStateM.Result ε σ α)
  | .ok v s, .ok w t => decidable_of_iff (v = w ∧ s = t) (by rw [EStateM.Result.ok.injEq])
  | .error e s, .error f t => decidable_of_iff (e = f ∧ s = t) (by rw [EStateM.Result.error.injEq])
  | .ok _ _, .error _ _ => .isFalse fun h => nomatch h
  | .error _ _, .ok _ _ => .isFalse fun h => nomatch h

namespace Action

variable {ε σ α β : Type} {x : EStateM ε σ α} {f : α → EStateM ε σ β}

/-- After an action that succeeds the next one goes on from the state it left.  A sequence whose
parts are known is rewritten with this from left to right. -/
theorem bind_of_ok {s t : σ} {v : α} (h : x s = .ok v t) : (x >>= f) s = f v t := by
  show EStateM.bind x f s = f v t
  rw [EStateM.bind, h]

/-- A sequence succeeds when both its parts do.  This takes a run apart without unfolding the
actions that it is made of. -/
theorem bind_eq_ok {s u : σ} {w : β} :
    (x >>= f) s = .ok w u ↔ ∃ v t, x s = .ok v t ∧ f v t = .ok w u := by
  change EStateM.bind x f s = .ok w u ↔ _
  rw [EStateM.bind]
  cases h : x s with
  | ok v t =>
    constructor
    · intro hf
      exact ⟨v, t, rfl, hf⟩
    · rintro ⟨v', t', h', hf⟩
      cases h'
      exact hf
  | error e t =>
    constructor
    · intro hf
      cases hf
    · rintro ⟨v', t', h', hf⟩
      cases h'

/-- So does a sequence that has no state. -/
theorem except_bind_eq_ok {x : Except ε α} {f : α → Except ε β} {w : β} :
    x >>= f = .ok w ↔ ∃ v, x = .ok v ∧ f v = .ok w := by
  cases x with
  | error e =>
    constructor
    · intro h
      cases h
    · rintro ⟨v, hv, -⟩
      cases hv
  | ok v =>
    constructor
    · intro h
      exact ⟨v, rfl, h⟩
    · rintro ⟨v', hv, h⟩
      cases hv
      exact h

/-- A value that is computed without its state comes with one.  The state of a large computation is
not written down anywhere, and need not be. -/
theorem exists_ok_of_run' {s : σ} {v : α} (h : EStateM.run' x s = some v) : ∃ t, x s = .ok v t := by
  -- equations of `run'` would be made here for the first time, so that it is unfolded by hand
  delta EStateM.run' EStateM.run at h
  cases hx : x s with
  | ok w t =>
    rw [hx] at h
    cases h
    exact ⟨t, rfl⟩
  | error e t =>
    rw [hx] at h
    cases h

/-- A sequence fails when its first part does, or else its second. -/
theorem bind_eq_error {s u : σ} {e : ε} :
    (x >>= f) s = .error e u ↔
      x s = .error e u ∨ ∃ v t, x s = .ok v t ∧ f v t = .error e u := by
  change EStateM.bind x f s = .error e u ↔ _
  rw [EStateM.bind]
  cases h : x s with
  | ok v t =>
    constructor
    · intro hf
      exact Or.inr ⟨v, t, rfl, hf⟩
    · rintro (h' | ⟨v', t', h', hf⟩)
      · cases h'
      · cases h'
        exact hf
  | error e' t =>
    constructor
    · intro hf
      cases hf
      exact Or.inl rfl
    · rintro (h' | ⟨v', t', h', hf⟩)
      · cases h'
        rfl
      · cases h'

end Action

/-! ### Instructions with an address -/

/-- The kinds of instruction whose operand is the address of a label.  Of the conditional jumps only
that on equality is used with labels, since comparisons jump inside of their own code. -/
inductive Transfer where
  /-- Goes on at the label. -/
  | jump
  /-- Goes on at the label if two words are equal. -/
  | branch
  /-- Calls the procedure at the label. -/
  | call
  deriving DecidableEq, Repr

namespace Transfer

/-- The opcode of the instruction. -/
def opcode : Transfer → Opcode
  | jump => .jmp
  | branch => .jeq
  | call => .call

/-- The instruction with the address `n`. -/
def instruction (t : Transfer) (n : Nat) : Instruction :=
  match t with
  | jump => .jump (Int16.ofNat n)
  | branch => .branch .eq (Int16.ofNat n)
  | call => .call (Int16.ofNat n)

theorem bytes_instruction (t : Transfer) (n : Nat) :
    (t.instruction n).bytes = t.opcode.byte :: BigEndian.bytes 2 n := by
  cases t <;> exact congrArg (List.cons _) (Instruction.bytes_ofNat n)

@[simp] theorem size_instruction (t : Transfer) (n : Nat) : (t.instruction n).size = 3 := by
  cases t <;> rfl

@[simp] theorem target?_instruction (t : Transfer) (n : Nat) :
    (t.instruction n).target? = some (n % 65536) := by
  cases t <;> exact congrArg some (Instruction.address_ofNat n)

end Transfer

/-- The instruction that pushes a constant in its shortest form: the constants from -1 to 5 have
opcodes of their own. -/
def Instruction.ofConst (v : Word) : Instruction :=
  match Assembler.shortConst? v with
  | some op => .ofOperands op fun _ => 0
  | none => .const v

/-- A constant is pushed by one of three instructions, which all mean the constant. -/
theorem Instruction.ofConst_cases (v : Word) :
    (∃ k : Fin 6, v = Int32.ofNat k.val ∧ ofConst v = .constShort k) ∨
      (v = -1 ∧ ofConst v = .constMinusOne) ∨
      (Assembler.shortConst? v = none ∧ ofConst v = .const v) := by
  -- words are not an inductive type, so that the seven short constants are told apart one by one
  by_cases h0 : v = 0
  · exact Or.inl ⟨0, h0, by rw [h0]; rfl⟩
  by_cases h1 : v = 1
  · exact Or.inl ⟨1, h1, by rw [h1]; rfl⟩
  by_cases h2 : v = 2
  · exact Or.inl ⟨2, h2, by rw [h2]; rfl⟩
  by_cases h3 : v = 3
  · exact Or.inl ⟨3, h3, by rw [h3]; rfl⟩
  by_cases h4 : v = 4
  · exact Or.inl ⟨4, h4, by rw [h4]; rfl⟩
  by_cases h5 : v = 5
  · exact Or.inl ⟨5, h5, by rw [h5]; rfl⟩
  by_cases hm : v = -1
  · exact Or.inr (Or.inl ⟨hm, by rw [hm]; rfl⟩)
  · have hnone : Assembler.shortConst? v = none := by
      simp only [Assembler.shortConst?, if_neg h0, if_neg h1, if_neg h2, if_neg h3, if_neg h4,
        if_neg h5, if_neg hm]
    exact Or.inr (Or.inr ⟨hnone, by rw [ofConst, hnone]⟩)

/-- Constants do not transfer control, in whatever form they are pushed. -/
theorem Instruction.ofConst_plain (v : Word) :
    ofConst v ≠ .last ∧ (ofConst v).target? = none := by
  rcases ofConst_cases v with ⟨k, -, h⟩ | ⟨-, h⟩ | ⟨-, h⟩ <;>
    exact ⟨by rw [h]; exact Instruction.noConfusion, by rw [h]; rfl⟩

namespace Region

/-- The instruction that pushes a word of the region. -/
def loadInstruction (r : Region) (offset : Word) : Instruction :=
  .ofOperands r.loadOpcode fun k => (r.offsetWidth.encode offset).getD k 0

/-- The instruction that stores into a word of the region. -/
def storeInstruction (r : Region) (offset : Word) : Instruction :=
  .ofOperands r.storeOpcode fun k => (r.offsetWidth.encode offset).getD k 0

end Region

namespace Assembler

/-! ### Programs with other code -/

/-- The program with other code.  Actions that emit code change nothing else, which the simp lemmas
about `withCode` and `append` say once for all of them. -/
def withCode (a : Assembler) (code : Draft) : Assembler := { a with code := code }

@[simp] theorem code_withCode (a : Assembler) (d : Draft) : (a.withCode d).code = d := rfl

@[simp] theorem withCode_withCode (a : Assembler) (d e : Draft) :
    (a.withCode d).withCode e = a.withCode e := rfl

/-- The program with instructions more. -/
def append (a : Assembler) (is : List Instruction) : Assembler :=
  a.withCode (a.code.append (Code.ofInstructions is))

@[simp] theorem code_append (a : Assembler) (is : List Instruction) :
    (a.append is).code = a.code.append (Code.ofInstructions is) := rfl

@[simp] theorem statics_append (a : Assembler) (is : List Instruction) :
    (a.append is).statics = a.statics := rfl

@[simp] theorem labels_append (a : Assembler) (is : List Instruction) :
    (a.append is).labels = a.labels := rfl

@[simp] theorem procedure?_append (a : Assembler) (is : List Instruction) :
    (a.append is).procedure? = a.procedure? := rfl

@[simp] theorem main?_append (a : Assembler) (is : List Instruction) :
    (a.append is).main? = a.main? := rfl

theorem size_append (a : Assembler) (is : List Instruction) :
    (a.append is).code.size = a.code.size + (Code.ofInstructions is).length :=
  Draft.size_append _ _

@[simp] theorem append_nil (a : Assembler) : a.append [] = a := rfl

@[simp] theorem append_append (a : Assembler) (is js : List Instruction) :
    (a.append is).append js = a.append (is ++ js) := by
  rw [append, append, append, withCode_withCode, code_withCode, Draft.append_append,
    Code.ofInstructions_append]

/-! ### Single instructions -/

theorem emit_eq (op : Opcode) (a : Assembler) :
    emit op a = .ok () (a.withCode (a.code.append [op.byte])) := rfl

theorem emitHoles_eq (n : Nat) (a : Assembler) :
    emitHoles n a = .ok a.code.size (a.withCode (a.code.emitHoles n)) := rfl

theorem here_eq (a : Assembler) : here a = .ok a.code.size a := rfl

/-- An instruction without operands is emitted as its opcode. -/
theorem emit_instruction (i : Instruction) (h : i.operandBytes = []) (a : Assembler) :
    emit i.opcode a = .ok () (a.append [i]) := by
  have hbytes : Code.ofInstructions [i] = [i.opcode.byte] := by
    rw [Code.ofInstructions_cons, Code.ofInstructions_nil, List.append_nil, Instruction.bytes, h]
  rw [emit_eq, append, hbytes]

/-- The same for an opcode of which only the operands are known. -/
theorem emit_of_operands {op : Opcode} (h : op.operands = []) (a : Assembler) :
    emit op a = .ok () (a.append [.ofOperands op fun _ => 0]) := by
  have hbytes : (Instruction.ofOperands op fun _ => 0).operandBytes = [] := by
    rw [← List.length_eq_zero_iff, Instruction.length_operandBytes, Instruction.opcode_ofOperands,
      Opcode.operandSize, h]
    rfl
  have hemit := emit_instruction _ hbytes a
  rwa [Instruction.opcode_ofOperands] at hemit

theorem operandSize_of_operands {op : Opcode} {w : Width} (h : op.operands = [w]) :
    op.operandSize = w.size := by
  rw [Opcode.operandSize, h]
  rfl

/-- An instruction with an operand that fits is emitted whole.  The bytes of the operand are read
back as the instruction, whatever the opcode takes them for. -/
theorem emitWith_eq {op : Opcode} {w : Width} (hop : op.operands = [w]) {v : Word}
    (hv : w.holds v = true) (a : Assembler) :
    emitWith op w v a
      = .ok () (a.append [.ofOperands op fun k => (w.encode v).getD k 0]) := by
  have hlen : (w.encode v).length = op.operandSize := by
    rw [Width.length_encode, operandSize_of_operands hop]
  have hbytes : Code.ofInstructions [.ofOperands op fun k => (w.encode v).getD k 0]
      = op.byte :: w.encode v := by
    rw [Code.ofInstructions_cons, Code.ofInstructions_nil, List.append_nil,
      Instruction.bytes_ofOperands hlen]
  rw [emitWith, if_pos hv, Draft.emitOperand_emit, append, hbytes]
  rfl

/-- An operand that does not fit is a misuse, and nothing has been emitted then. -/
theorem emitWith_of_not_holds {op : Opcode} {w : Width} {v : Word} (hv : w.holds v = false)
    (a : Assembler) : emitWith op w v a = .error (.operandTooLarge op v w) a := by
  rw [emitWith, hv]
  rfl

/-- An instruction with an operand was emitted because the operand fits.  This is how what a
successful compilation needs is read off it. -/
theorem holds_of_emitWith {op : Opcode} {w : Width} {v : Word} {a b : Assembler}
    (h : emitWith op w v a = .ok () b) : w.holds v = true := by
  cases hv : w.holds v with
  | true => rfl
  | false =>
    rw [emitWith_of_not_holds hv] at h
    cases h

theorem loadWord_eq {r : Region} {offset : Word} (h : r.offsetWidth.holds offset = true)
    (a : Assembler) : loadWord r offset a = .ok () (a.append [r.loadInstruction offset]) := by
  cases r <;> exact emitWith_eq rfl h a

theorem storeWord_eq {r : Region} {offset : Word} (h : r.offsetWidth.holds offset = true)
    (a : Assembler) : storeWord r offset a = .ok () (a.append [r.storeInstruction offset]) := by
  cases r <;> exact emitWith_eq rfl h a

/-! ### Constants and comparisons -/

/-- A constant is pushed by one instruction.  It never fails, since every word fits the longest
form. -/
theorem pushConst_eq (v : Word) (a : Assembler) :
    pushConst v a = .ok () (a.append [.ofConst v]) := by
  rcases Instruction.ofConst_cases v with ⟨k, hv, h⟩ | ⟨hv, h⟩ | ⟨hnone, h⟩
  · rw [h, hv]
    match k with
    | 0 | 1 | 2 | 3 | 4 | 5 => rfl
  · rw [h, hv]
    rfl
  · -- the longest form has an operand of four bytes, as large as a word
    have hfits : Width.s32.holds v = true := by
      have hlt := v.toInt_lt
      have hle := v.le_toInt
      simp only [Width.holds, Width.min, Width.max, Bool.and_eq_true]
      exact ⟨decide_eq_true hle, decide_eq_true (by omega)⟩
    rw [h, pushConst, hnone]
    refine (emitWith_eq rfl hfits a).trans ?_
    rw [← Instruction.ofOperands_operandBytes (.const v)]
    rfl

/-- Holes that are filled later might as well have been emitted as the bytes.  There may be code and
other holes behind them by then. -/
theorem fill_later (a : Assembler) (d : Draft) (cs : List UInt8) (n : Nat) (v : Word) (w : Width)
    {address : Nat} (haddress : address = d.size) :
    fill address v w (a.withCode (((d.emitHoles w.size).append cs).emitHoles n))
      = .ok () (a.withCode (((d.append (w.encode v)).append cs).emitHoles n)) := by
  have h := Draft.fillBytes_later d (w.encode v) cs n
  rw [Width.length_encode] at h
  rw [fill, Draft.fill, code_withCode, haddress, h]
  rfl

/-- The code that turns a comparison into a word, from the address `base` on.  The machine can only
jump on a comparison, so that 0 or 1 is pushed on two ways through the code. -/
def compareCode (test : Comparison) (base : Nat) : List Instruction :=
  [.branch test (Int16.ofNat (base + 7)), .ofConst 0, .jump (Int16.ofNat (base + 8)), .ofConst 1]

/-- Both targets are emitted as holes and filled in before the comparison is complete, so that it
leaves no hole behind. -/
theorem compare_eq (test : Comparison) (a : Assembler) :
    compare test a = .ok () (a.append (compareCode test a.code.size)) := by
  rw [compare, Action.bind_of_ok (emit_eq _ _), Action.bind_of_ok (emitHoles_eq _ _),
    Action.bind_of_ok (pushConst_eq 0 _), Action.bind_of_ok (emit_eq _ _),
    Action.bind_of_ok (emitHoles_eq _ _), Action.bind_of_ok (here_eq _)]
  simp only [append, code_withCode, withCode_withCode, Draft.append_append]
  -- the first target is filled in while the second is still open
  refine (Action.bind_of_ok (fill_later a _ _ 2 _ .s16 rfl)).trans ?_
  rw [Action.bind_of_ok (pushConst_eq 1 _), Action.bind_of_ok (here_eq _)]
  simp only [append, code_withCode, withCode_withCode]
  refine (fill_later a _ _ 0 _ .s16 ?_).trans ?_
  · simp only [Draft.size_emitHoles, Draft.size_append, Width.length_encode,
      List.length_append, List.length_singleton]
    rfl
  · have hzero : (Instruction.ofConst 0).bytes = [Opcode.const0.byte] := rfl
    have hone : (Instruction.ofConst 1).bytes = [Opcode.const1.byte] := rfl
    simp only [Draft.emitHoles_zero, Draft.size_emitHoles, Draft.size_append,
      Draft.append_append, Width.encode_s16_ofNat, compareCode, Code.ofInstructions_cons,
      Code.ofInstructions_nil, hzero, hone, BigEndian.length_bytes, List.length_cons,
      List.length_append, List.length_nil]
    simp only [Instruction.bytes, Instruction.operandBytes, Instruction.bytes_ofNat,
      Instruction.opcode]
    simp

/-! ### Logic, input and output -/

/-- The product of two truth values is their conjunction, since they are 0 or 1. -/
theorem conjunction_eq (a : Assembler) :
    conjunction a = .ok () (a.append [.arithmetic .mul]) :=
  emit_instruction (.arithmetic .mul) rfl a

/-- The sum of two truth values may be 2, so that it is compared with 1. -/
theorem disjunction_eq (a : Assembler) :
    disjunction a
      = .ok ()
        (a.append ([.arithmetic .add, .ofConst 1] ++ compareCode .ge (a.code.size + 2))) := by
  rw [disjunction]
  refine (Action.bind_of_ok (emit_instruction (.arithmetic .add) rfl a)).trans ?_
  refine (Action.bind_of_ok (pushConst_eq 1 _)).trans ?_
  rw [append_append, compare_eq, append_append, code_append, Draft.size_append]
  rfl

theorem negation_eq (a : Assembler) :
    negation a = .ok () (a.append [.neg, .ofConst 1, .arithmetic .add]) := by
  rw [negation]
  refine (Action.bind_of_ok (emit_instruction .neg rfl a)).trans ?_
  refine (Action.bind_of_ok (pushConst_eq 1 _)).trans ?_
  refine (emit_instruction (.arithmetic .add) rfl _).trans ?_
  rw [append_append, append_append]
  rfl

/-- A number is printed in a column of width 0, which is as wide as the number takes. -/
theorem printInteger_eq (a : Assembler) :
    printInteger a = .ok () (a.append [.ofConst 0, .print]) := by
  rw [printInteger, Action.bind_of_ok (pushConst_eq 0 a)]
  refine (emit_instruction .print rfl _).trans ?_
  rw [append_append]
  rfl

/-- The string at a static address is printed by one instruction, if the address fits. -/
theorem printString_eq {address : Nat} (h : Width.s16.holds (Int32.ofNat address) = true)
    (a : Assembler) :
    printString address a = .ok () (a.append [.printString (Int16.ofNat address)]) := by
  have hinstruction : Instruction.ofOperands .sprint
      (fun k => (Width.s16.encode (Int32.ofNat address)).getD k 0)
        = .printString (Int16.ofNat address) := by
    rw [Width.encode_s16_ofNat, ← Instruction.bytes_ofNat, BigEndian.bytes_two]
    exact congrArg Instruction.printString (Instruction.half_bytes _)
  rw [printString, emitWith_eq rfl h, hinstruction]

/-! ### Labels -/

/-- The program in which two bytes after an opcode wait for the address of a label. -/
def await (a : Assembler) (t : Transfer) (label : String) : Assembler :=
  { a with
    code := (a.code.append [t.opcode.byte]).emitHoles 2
    labels := a.labels.refer label (a.code.size + 1) }

/-- The address of a label that is defined is an operand like others, and may be refused like
others. -/
theorem emitLabel_eq_emitWith (op : Opcode) {label : String} {n : Nat} {a : Assembler}
    (hlabel : a.labels.address? label = some n) :
    emitLabel op label a = emitWith op .s16 (Int32.ofNat n) a := by
  rw [emitLabel]
  refine (Action.bind_of_ok (show addressOf? label a = .ok (some n) a by
    rw [addressOf?, hlabel])).trans rfl

/-- The address of a label that is defined is emitted at once, if it fits. -/
theorem emitLabel_of_address {label : String} {n : Nat} {a b : Assembler} (t : Transfer)
    (hlabel : a.labels.address? label = some n) (h : emitLabel t.opcode label a = .ok () b) :
    b = a.append [t.instruction n] := by
  rw [emitLabel_eq_emitWith _ hlabel] at h
  have hop : t.opcode.operands = [.s16] := by cases t <;> rfl
  have hwith := emitWith_eq hop (holds_of_emitWith h) a
  rw [hwith] at h
  obtain rfl := (EStateM.Result.ok.inj h).2
  have hinstruction : Instruction.ofOperands t.opcode
      (fun k => (Width.s16.encode (Int32.ofNat n)).getD k 0) = t.instruction n := by
    rw [Width.encode_s16_ofNat, ← Instruction.bytes_ofNat]
    cases t
    · exact Instruction.ofOperands_operandBytes (.jump (Int16.ofNat n))
    · exact Instruction.ofOperands_operandBytes (.branch .eq (Int16.ofNat n))
    · exact Instruction.ofOperands_operandBytes (.call (Int16.ofNat n))
  rw [hinstruction]

/-- The address of a label that is not defined is left open.  Whether it fits is not known yet, so
that this never fails. -/
theorem emitLabel_of_none {label : String} {a : Assembler} (t : Transfer)
    (hlabel : a.labels.address? label = none) :
    emitLabel t.opcode label a = .ok () (a.await t label) := by
  rw [emitLabel]
  refine (Action.bind_of_ok (show addressOf? label a = .ok none a by
    rw [addressOf?, hlabel])).trans ?_
  refine (Action.bind_of_ok (emit_eq _ _)).trans ?_
  refine (Action.bind_of_ok (emitHoles_eq _ _)).trans ?_
  have hsize : (a.code.append [t.opcode.byte]).size = a.code.size + 1 := Draft.size_append _ _
  simp only [refer, code_withCode, hsize]
  rfl

/-- An instruction with a label leaves the open procedure alone, whether the label is defined or
not. -/
theorem procedure?_of_emitLabel {t : Transfer} {label : String} {a b : Assembler}
    (h : emitLabel t.opcode label a = .ok () b) : b.procedure? = a.procedure? := by
  cases hlabel : a.labels.address? label with
  | some n =>
    obtain rfl := emitLabel_of_address t hlabel h
    rfl
  | none =>
    rw [emitLabel_of_none t hlabel] at h
    obtain ⟨-, rfl⟩ := EStateM.Result.ok.inj h
    rfl

end Assembler
end MJ
