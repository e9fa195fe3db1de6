import MJ.Proofs.Compilation
import MJ.Proofs.Realization
import MJ.Proofs.Storage

/-!
# Operators on numbers and truth values

What operators mean, the code that they are compiled to, and runs of this code.  The meaning is that
of exact integers cut down to a word, and does not mention the machine.  All expressions use the
operators in the same way: the operands are pushed from left to right, and the code of the operator
follows them.

## Main definitions

* `Scalar`, `Scalar.Value`, `Scalar.word` — the two types of values, and values as words.
* `Unary.eval`, `Binary.eval`, `Relation.eval`, `Equality.eval` — the values of operators.
* `Unary.code`, `Binary.code`, `pairCode` — the code of operators, and that of two operands with
  what follows them.
* `Machine.Computes` — the machine arrives at an address with a value on the stack, or it faults.

## Main results

* `Compiler.unary_eq`, `Compiler.completes_binary` — operators are compiled to their code.
* `Machine.computes_unary`, `Machine.computes_binary` — **the code of an operator pushes its
  value.**

## References

The MJ specification, §4.5 *Code Generator*, under `op1/op2/relOp/equalOp`.
-/

namespace MJ

/-! ### Values -/

/-- The types of values that fit a word. -/
inductive Scalar where
  /-- Numbers. -/
  | int
  /-- Truth values. -/
  | bool
  deriving DecidableEq, Repr

namespace Scalar

/-- The type as the compiler knows it. -/
def ty : Scalar → Ty
  | int => .int
  | bool => .bool

/-- The values of the type. -/
@[reducible] def Value : Scalar → Type
  | int => Word
  | bool => Bool

/-- The word that stands for a value. -/
def word : (t : Scalar) → t.Value → Word
  | int, v => v
  | bool, b => boolWord b

/-- The value that a word stands for.  The compiler only makes the truth values 0 and 1, but every
word that is not 0 counts as true. -/
def ofWord : (t : Scalar) → Word → t.Value
  | int, w => w
  | bool, w => w != 0

instance : (t : Scalar) → DecidableEq t.Value
  | int => inferInstanceAs (DecidableEq Word)
  | bool => inferInstanceAs (DecidableEq Bool)

/-- The word of a value, or the fault that there is none.  Operators on numbers and truth values
have no other fault than a division by zero. -/
def outcome (t : Scalar) : Option t.Value → Except Fault Word
  | some v => .ok (t.word v)
  | none => .error .divisionByZero

@[simp] theorem ofWord_word (t : Scalar) (v : t.Value) : t.ofWord (t.word v) = v := by
  cases t with
  | int => rfl
  | bool => cases v <;> rfl

theorem outcome_map_word (t : Scalar) (r : Option t.Value) :
    int.outcome (r.map t.word) = t.outcome r := by
  cases r <;> rfl

end Scalar

/-! ### The meaning of operators -/

/-- The type of the operand and of the result. -/
def Unary.scalar : Unary → Scalar
  | plus | minus => .int
  | not => .bool

/-- The value of an operator before an operand. -/
def Unary.eval : (op : Unary) → op.scalar.Value → op.scalar.Value
  | plus, v => v
  | minus, v => Int32.ofInt (-v.toInt)
  | not, b => !b

/-- The type of the operands and of the result. -/
def Binary.scalar : Binary → Scalar
  | add | sub | mul | div | mod => .int
  | and | or => .bool

/-- The value of an operator between two operands; `none` for a division by zero.  Results wrap
around, and a quotient is cut toward zero. -/
def Binary.eval : (op : Binary) → op.scalar.Value → op.scalar.Value → Option op.scalar.Value
  | add, a, b => some (Int32.ofInt (a.toInt + b.toInt))
  | sub, a, b => some (Int32.ofInt (a.toInt - b.toInt))
  | mul, a, b => some (Int32.ofInt (a.toInt * b.toInt))
  | div, a, b => if b.toInt = 0 then none else some (Int32.ofInt (a.toInt.tdiv b.toInt))
  | mod, a, b => if b.toInt = 0 then none else some (Int32.ofInt (a.toInt.tmod b.toInt))
  | and, a, b => some (a && b)
  | or, a, b => some (a || b)

/-- What an operator between two operands gives for two words.  Expressions are evaluated with words
where their types are not known from the syntax. -/
def Binary.onWords (op : Binary) (a b : Word) : Except Fault Word :=
  op.scalar.outcome (op.eval (op.scalar.ofWord a) (op.scalar.ofWord b))

/-- Whether two numbers compare so, as exact integers. -/
def Relation.eval : Relation → Word → Word → Bool
  | lt, a, b => a.toInt < b.toInt
  | le, a, b => a.toInt ≤ b.toInt
  | gt, a, b => b.toInt < a.toInt
  | ge, a, b => b.toInt ≤ a.toInt

/-- Whether two values are equal, or different. -/
def Equality.eval (op : Equality) {t : Scalar} (a b : t.Value) : Bool :=
  match op with
  | eq => a == b
  | ne => a != b

/-- Values are equal just if their words are.  So the one instruction that compares words serves
both types. -/
theorem Equality.eval_word (op : Equality) {t : Scalar} (a b : t.Value) :
    Equality.eval (t := .int) op (t.word a) (t.word b) = op.eval a b := by
  cases t with
  | int => rfl
  | bool => cases op <;> revert a b <;> decide

/-! ### The code of operators -/

/-- The code of an operator before an operand.  There is no instruction for the negation of truth
values, which is made of arithmetic. -/
def Unary.code : Unary → List Instruction
  | plus => []
  | minus => [.neg]
  | not => [.neg, .ofConst 1, .arithmetic .add]

/-- The instruction that the code of an operator between two operands starts with.  Truth values are
added and multiplied as the words 0 and 1. -/
def Binary.arithmetic : Binary → Arithmetic
  | add | or => .add
  | sub => .sub
  | mul | and => .mul
  | div => .div
  | mod => .rem

/-- The code of an operator between two operands, from the address `base` on.  The sum of two truth
values may be 2, and so a disjunction ends with a comparison, which jumps. -/
def Binary.code (base : Nat) : Binary → List Instruction
  | or => [.arithmetic .add, .ofConst 1] ++ Assembler.compareCode .ge (base + 2)
  | op => [.arithmetic op.arithmetic]

theorem Binary.code_of_ne {op : Binary} (h : op ≠ .or) (base : Nat) :
    op.code base = [.arithmetic op.arithmetic] := by
  cases op with
  | or => exact absurd rfl h
  | add | sub | mul | div | mod | and => rfl

/-- The code of two operands, the first from the address `base` on, and of what follows them.  Jumps
inside of the later parts name addresses, so that these parts depend on where they stand. -/
def pairCode (base : Nat) (x : List Instruction) (y op : Nat → List Instruction) :
    List Instruction :=
  let middle := base + (Code.ofInstructions x).length
  x ++ (y middle ++ op (middle + (Code.ofInstructions (y middle)).length))

namespace Compiler

theorem emitBinary_eq (op : Binary) (a : Assembler) :
    emitBinary op a = .ok () (a.append (op.code a.code.size)) := by
  cases op with
  | or => exact Assembler.disjunction_eq a
  | add => exact Assembler.emit_instruction (.arithmetic .add) rfl a
  | sub => exact Assembler.emit_instruction (.arithmetic .sub) rfl a
  | mul => exact Assembler.emit_instruction (.arithmetic .mul) rfl a
  | div => exact Assembler.emit_instruction (.arithmetic .div) rfl a
  | mod => exact Assembler.emit_instruction (.arithmetic .rem) rfl a
  | and => exact Assembler.conjunction_eq a

theorem unary_eq {op : Unary} {span : Span} {x : Operand} {c : Compiler} {a : Assembler}
    (htype : x.type = op.scalar.ty) (hpush : pushFrom x c.assembler = .ok () a) :
    (unary (some op) span x).run c
      = .ok (.ok (.ofType op.scalar.ty)) (c.withAssembler (a.append op.code)) := by
  have hload : (liftM (loadIfNeeded x) : Checked Unit).run c = .ok (.ok ()) (c.withAssembler a) :=
    Checked.lift_of_ok (assemble_of_ok hpush)
  rw [unary.eq_def, htype]
  cases op with
  | plus => exact Checked.bind_of_ok hload
  | minus =>
    refine (Checked.bind_of_ok hload).trans ?_
    exact Checked.bind_of_ok (Checked.assemble_of_ok (Assembler.emit_instruction .neg rfl a))
  | not =>
    refine (Checked.bind_of_ok hload).trans ?_
    exact Checked.bind_of_ok (Checked.assemble_of_ok (Assembler.negation_eq a))

/-- The operand of an operator was pushed if the operator was compiled, since it could be. -/
theorem pushFrom_of_unary {op : Unary} {span : Span} {x : Operand} {c c' : Compiler}
    {r : Except Diagnostic Operand} (htype : x.type = op.scalar.ty)
    (h : (unary (some op) span x).run c = .ok r c') : ∃ a, pushFrom x c.assembler = .ok () a := by
  rw [unary.eq_def, htype] at h
  have hload : ∃ r c', (liftM (loadIfNeeded x) : Checked Unit).run c = .ok r c' := by
    cases op <;> exact Checked.exists_ok_of_bind h
  obtain ⟨r₁, c₁, hload⟩ := hload
  obtain ⟨v, hload, -⟩ := Checked.lift_eq_ok.mp hload
  obtain ⟨a, hpush, -⟩ := assemble_eq_ok.mp hload
  exact ⟨a, hpush⟩

/-- What follows two operands that are on the stack: it appends code and leaves its result
there.  The code depends on where it stands, because a comparison has jumps. -/
def Completes (k : Operand → Operand → Checked Operand) (operands result : Scalar)
    (op : Nat → List Instruction) : Prop :=
  ∀ (c : Compiler) (x y : Operand), x.type = operands.ty → y.type = operands.ty →
    (k x y).run c = .ok (.ok (.ofType result.ty))
      (c.withAssembler (c.assembler.append (op c.assembler.code.size)))

theorem completes_binary (op : Binary) (span : Span) :
    Completes (fun x y => binary x op span y) op.scalar op.scalar fun base => op.code base := by
  intro c x y hx hy
  have hemit : (liftM (emitBinary op) : Checked Unit).run c = .ok (.ok ())
      (c.withAssembler (c.assembler.append (op.code c.assembler.code.size))) :=
    Checked.assemble_of_ok (emitBinary_eq op c.assembler)
  show (binary x op span y).run c = _
  rw [binary, hx, hy]
  cases op <;> exact Checked.bind_of_ok hemit

theorem completes_relation (op : Relation) (span : Span) :
    Completes (fun x y => relation x op span y) .int .bool fun base =>
      Assembler.compareCode op.comparison base := by
  intro c x y hx hy
  show (relation x op span y).run c = _
  rw [relation, hx, hy]
  exact Checked.bind_of_ok (Checked.assemble_of_ok (Assembler.compare_eq _ _))

theorem completes_equality (op : Equality) (t : Scalar) (span : Span) :
    Completes (fun x y => equality x op span y) t .bool fun base =>
      Assembler.compareCode op.comparison base := by
  intro c x y hx hy
  show (equality x op span y).run c = _
  rw [equality, hx, hy]
  cases t <;> exact Checked.bind_of_ok (Checked.assemble_of_ok (Assembler.compare_eq _ _))

end Compiler

/-! ### Runs -/

namespace Machine

/-- The machine faults with at least the words `stack` on the evaluation stack.  Operands that were
pushed before the fault are left above them. -/
def FaultsAbove (code : Array UInt8) (stack : Array Word) (cause : Fault) (s : State) : Prop :=
  ∃ pc extra, Faults code cause s (s.moved pc (stack ++ extra))

theorem Faults.above {code : Array UInt8} {stack : Array Word} {cause : Fault} {s : State}
    (pc : Nat) (h : Faults code cause s (s.moved pc stack)) : FaultsAbove code stack cause s :=
  ⟨pc, #[], by rw [Array.append_empty]; exact h⟩

/-- The machine arrives at an address with what a value leaves on the stack, or it faults.  The
value is a word for expressions; for other code it may be an object with an index. -/
def Computes {α : Type} (code : Array UInt8) (s : State) (stack : Array Word) (next : Nat)
    (leave : α → Array Word) : Except Fault α → Prop
  | .ok v => Reaches code s (s.moved next (leave v))
  | .error cause => FaultsAbove code stack cause s

section Computes

variable {α β : Type} {code : Array UInt8} {s : State} {stack : Array Word} {m next : Nat}
  {leave : α → Array Word} {leave' : β → Array Word}

/-- Steps before the last ones, which themselves have not faulted. -/
theorem Computes.of_reaches {pc : Nat} {stack' : Array Word} {r : Except Fault α}
    (h : Reaches code s (s.moved pc stack'))
    (h' : Computes code (s.moved pc stack') stack next leave r) :
    Computes code s stack next leave r := by
  cases r with
  | ok v => exact h.trans h'
  | error cause =>
    obtain ⟨pc', extra, hfaults⟩ := h'
    exact ⟨pc', extra, h.stops hfaults⟩

/-- A value, and what is made of it.  What comes after the value runs in the state that the value
has left, and only if there is one. -/
theorem Computes.bind {r : Except Fault α} {f : α → Except Fault β}
    (h : Computes code s stack m leave r)
    (h' : ∀ v, r = .ok v → Computes code (s.moved m (leave v)) stack next leave' (f v)) :
    Computes code s stack next leave' (r >>= f) := by
  cases r with
  | ok v => exact .of_reaches h (h' v rfl)
  | error cause => exact h

/-- A fault may leave one more word on the stack: what is promised of the words below still holds.
-/
theorem Computes.below {w : Word} {r : Except Fault α}
    (h : Computes code s (stack.push w) next leave r) : Computes code s stack next leave r := by
  cases r with
  | ok v => exact h
  | error cause =>
    obtain ⟨pc, extra, hfaults⟩ := h
    refine ⟨pc, #[w] ++ extra, ?_⟩
    rw [← Array.append_assoc, Array.append_singleton]
    exact hfaults

/-- Two operands and what follows them.  The second operand finds the first one on the stack, and
leaves it there if it faults. -/
theorem Computes.pair {ra rb : Except Fault Word} {f : Word → Word → Except Fault α} {n : Nat}
    (hx : Computes code s s.stack m s.stack.push ra)
    (hy : ∀ stack, Computes code (s.moved m stack) stack n stack.push rb)
    (hop : ∀ a b, ra = .ok a → rb = .ok b →
      Computes code (s.moved n ((s.stack.push a).push b)) s.stack next leave (f a b)) :
    Computes code s s.stack next leave (do f (← ra) (← rb)) :=
  hx.bind fun a ha => (hy _).below.bind fun b hb => hop a b ha hb

/-- The code of two operands and of what follows them stands in three places.  Their addresses are
given by equations, so that runs from one to the next can be put together. -/
theorem codeAt_pairCode {base : Nat} {x : List Instruction} {y op : Nat → List Instruction}
    (h : CodeAt code base (Code.ofInstructions (pairCode base x y op))) :
    ∃ m n, m = base + (Code.ofInstructions x).length ∧
      n = m + (Code.ofInstructions (y m)).length ∧
      base + (Code.ofInstructions (pairCode base x y op)).length
        = n + (Code.ofInstructions (op n)).length ∧
      CodeAt code base (Code.ofInstructions x) ∧ CodeAt code m (Code.ofInstructions (y m)) ∧
      CodeAt code n (Code.ofInstructions (op n)) := by
  simp only [pairCode, Code.ofInstructions_append, codeAt_append] at h
  obtain ⟨hx, hy, hop⟩ := h
  refine ⟨_, _, rfl, rfl, ?_, hx, hy, hop⟩
  simp only [pairCode, Code.ofInstructions_append, List.length_append]
  omega

/-! ### Runs of operators -/

theorem holds_relation (op : Relation) (a b : Word) :
    op.comparison.holds a b = op.eval a b := by
  cases op with
  | lt => exact decide_eq_decide.mpr Int32.lt_iff_toInt_lt
  | le => exact decide_eq_decide.mpr Int32.le_iff_toInt_le
  | gt => exact decide_eq_decide.mpr Int32.lt_iff_toInt_lt
  | ge => exact decide_eq_decide.mpr Int32.le_iff_toInt_le

theorem holds_equality (op : Equality) (a b : Word) :
    op.comparison.holds a b = Equality.eval (t := .int) op a b := by
  cases op <;> rfl

/-- The machine computes with words what operators mean by exact integers.  Words wrap around, also
in the one quotient that is too large for a word. -/
theorem apply_int (op : Binary) (a b : Word) :
    op.arithmetic.apply a b = match op with
      | .add | .or => some (Int32.ofInt (a.toInt + b.toInt))
      | .sub => some (Int32.ofInt (a.toInt - b.toInt))
      | .mul | .and => some (Int32.ofInt (a.toInt * b.toInt))
      | .div => if b.toInt = 0 then none else some (Int32.ofInt (a.toInt.tdiv b.toInt))
      | .mod => if b.toInt = 0 then none else some (Int32.ofInt (a.toInt.tmod b.toInt)) := by
  have hzero : b = 0 ↔ b.toInt = 0 := by
    rw [← Int32.toInt_inj]
    rfl
  have hdiv : a / b = Int32.ofInt (a.toInt.tdiv b.toInt) := by
    rw [← Int32.toInt_inj, Int32.toInt_div, Int32.toInt_ofInt]
  have hmod : a % b = Int32.ofInt (a.toInt.tmod b.toInt) := by
    rw [← Int32.toInt_mod, Int32.ofInt_toInt]
  cases op <;>
    simp only [Binary.arithmetic, Arithmetic.apply, Int32.ofInt_add, Int32.ofInt_sub,
      Int32.ofInt_mul, Int32.ofInt_toInt, hzero, hdiv, hmod]

/-- Conjunction is multiplication of the words 0 and 1.  Disjunction takes more than one
instruction. -/
theorem apply_arithmetic {op : Binary} (hop : op ≠ .or) (a b : op.scalar.Value) :
    op.arithmetic.apply (op.scalar.word a) (op.scalar.word b)
      = (op.eval a b).map op.scalar.word := by
  cases op with
  | or => exact absurd rfl hop
  | and => cases a <;> cases b <;> rfl
  | add | sub | mul => exact apply_int _ _ _
  | div =>
    refine (apply_int .div a b).trans ?_
    show _ = Option.map _ (if Int32.toInt b = 0 then none else _)
    dsimp only
    split <;> rfl
  | mod =>
    refine (apply_int .mod a b).trans ?_
    show _ = Option.map _ (if Int32.toInt b = 0 then none else _)
    dsimp only
    split <;> rfl

theorem computes_arithmetic {op : Arithmetic} {a b : Word}
    (hstack : s.stack = (stack.push a).push b)
    (hcode : CodeAt code s.pc (Instruction.arithmetic op).bytes) :
    Computes code s stack (s.pc + 1) stack.push (Scalar.int.outcome (op.apply a b)) := by
  cases happly : op.apply a b with
  | some v => exact reaches_arithmetic hstack happly hcode
  | none => exact Faults.above (s.pc + 1) (faults_arithmetic hstack happly hcode)

/-- **The code of an operator before an operand pushes its value.** -/
theorem computes_unary {op : Unary} {v : op.scalar.Value}
    (hstack : s.stack = stack.push (op.scalar.word v))
    (hcode : CodeAt code s.pc (Code.ofInstructions op.code)) :
    Computes code s stack (s.pc + (Code.ofInstructions op.code).length) stack.push
      (.ok (op.scalar.word (op.eval v))) := by
  cases op with
  | plus =>
    have hsame : s.moved s.pc (stack.push (Unary.plus.scalar.word v)) = s := by
      rw [← hstack, moved_self]
    exact hsame.symm ▸ Reaches.refl s
  | minus =>
    have hneg : Unary.minus.scalar.word (Unary.minus.eval v) = -Unary.minus.scalar.word v :=
      (Int32.ofInt_neg _).trans (congrArg _ (Int32.ofInt_toInt v))
    rw [hneg]
    exact reaches_neg hstack hcode
  | not =>
    -- negation is `-v + 1`, which is right for the words 0 and 1 only
    simp only [Unary.code, Code.ofInstructions_cons, Code.ofInstructions_nil, List.append_nil,
      codeAt_append] at hcode
    obtain ⟨hneg, hone, hadd⟩ := hcode
    have hsum : Arithmetic.add.apply (-Unary.not.scalar.word v) 1
        = some (Unary.not.scalar.word (Unary.not.eval v)) := by
      cases v <;> rfl
    refine .of_reaches (reaches_neg hstack hneg) ?_
    refine .of_reaches (reaches_ofConst (s := s.moved _ _) hone) ?_
    exact reaches_arithmetic (s := s.moved (s.pc + 2) _) rfl hsum hadd

/-- **The code of an operator between two operands pushes its value**, or divides by zero.  All
operators but one are a single instruction. -/
theorem computes_binary {op : Binary} {a b : op.scalar.Value}
    (hstack : s.stack = (stack.push (op.scalar.word a)).push (op.scalar.word b))
    (hcode : CodeAt code s.pc (Code.ofInstructions (op.code s.pc)))
    (hend : s.pc + (Code.ofInstructions (op.code s.pc)).length < 65536) :
    Computes code s stack (s.pc + (Code.ofInstructions (op.code s.pc)).length) stack.push
      (op.scalar.outcome (op.eval a b)) := by
  by_cases hop : op = .or
  · -- disjunction is `a + b >= 1`
    subst hop
    simp only [Binary.code, Code.ofInstructions_append, Code.ofInstructions_cons,
      Code.ofInstructions_nil, List.append_nil, codeAt_append] at hcode
    obtain ⟨⟨hadd, hone⟩, hcompare⟩ := hcode
    have hholds : boolWord
        (Comparison.ge.holds (Binary.or.scalar.word a + Binary.or.scalar.word b) 1)
        = boolWord (a || b) := by
      cases a <;> cases b <;> rfl
    refine .of_reaches (reaches_arithmetic hstack rfl hadd) ?_
    refine .of_reaches (reaches_ofConst (s := s.moved _ _) hone) ?_
    have hlast := reaches_compareCode (s := s.moved (s.pc + 2)
      ((stack.push (Binary.or.scalar.word a + Binary.or.scalar.word b)).push 1)) rfl hend hcompare
    rw [hholds] at hlast
    exact hlast
  · have hsize : (Instruction.arithmetic op.arithmetic).bytes.length = 1 := by cases op <;> rfl
    rw [Binary.code_of_ne hop, Code.ofInstructions_cons, Code.ofInstructions_nil,
      List.append_nil] at hcode ⊢
    rw [← Scalar.outcome_map_word, ← apply_arithmetic hop, hsize]
    exact computes_arithmetic hstack hcode

/-- A comparison of two words pushes whether it holds. -/
theorem computes_compare {test : Comparison} {a b : Word} {holds : Bool}
    (hholds : test.holds a b = holds) (hstack : s.stack = (stack.push a).push b)
    (hcode : CodeAt code s.pc (Code.ofInstructions (Assembler.compareCode test s.pc)))
    (hend : s.pc + (Code.ofInstructions (Assembler.compareCode test s.pc)).length < 65536) :
    Computes code s stack (s.pc + (Code.ofInstructions (Assembler.compareCode test s.pc)).length)
      stack.push (.ok (boolWord holds)) := by
  have hlength : (Code.ofInstructions (Assembler.compareCode test s.pc)).length = 8 := by
    cases test <;> rfl
  rw [hlength] at hend ⊢
  rw [← hholds]
  exact reaches_compareCode hstack hend hcode

end Computes
end Machine
end MJ
