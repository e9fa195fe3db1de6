import MJ.Proofs.Access.Execution
import MJ.Proofs.Expression.Syntax

/-!
# Compiled expressions have the right value

The code of an expression pushes the value of the expression, and changes nothing else but the
program counter; an expression that divides by zero makes the machine fault with just that cause.
All this is known of the phrase that the expression is written as.  The heap plays no part in it: it
need not be well-formed, since the expression does not look at it.

## Main definitions

* `Expr.code`, `Expr.Addressable` — the instructions that push the value of an expression, and the
  expressions over variables that instructions can name.
* `Machine.State.Stores` — the variables of a program have values in the memory of the machine.

## Main results

* `Expr.delivers`, `Expr.needs` — an expression over addressable variables is compiled to its code,
  and no other is compiled.
* `Expr.computes` — the code of an expression pushes its value, at any address.
* `Expr.load_correct` — **compiled expressions have the right value in every finished image.**

## References

The MJ specification, §4.5 *Code Generator*, and §8 *Testable Properties* for the values that
compiled programs print.
-/

namespace MJ

namespace Machine.State

variable {V : Scalar → Type} {decl : (t : Scalar) → V t → Decl} {s : State}

/-- The variables have their values in memory.  Variables are found through their declarations, in
the frame or in the static segment. -/
def Stores (s : State) (decl : (t : Scalar) → V t → Decl) (env : (t : Scalar) → V t → t.Value) :
    Prop :=
  ∀ t x, s.read? (decl t x) = some (t.word (env t x))

/-- The values that the variables have in memory; those that have no word there are 0 or false. -/
def values (s : State) (decl : (t : Scalar) → V t → Decl) (t : Scalar) (x : V t) : t.Value :=
  t.ofWord ((s.read? (decl t x)).getD 0)

/-- Variables with words of their own have the values that are read, if truth values are 0 or 1.
Another word would be read as true, and yet not be the word of it. -/
theorem Hosts.stores_values {a : Assembler} (h : s.Hosts a)
    (hallocated : ∀ t x, a.Allocates (decl t x))
    (hbool : ∀ x, s.read? (decl .bool x) = some 0 ∨ s.read? (decl .bool x) = some 1) :
    s.Stores decl (s.values decl) := by
  intro t x
  cases t with
  | int =>
    obtain ⟨w, hw⟩ := Option.isSome_iff_exists.mp (h.isSome_read? (hallocated .int x))
    rw [values, hw]
    rfl
  | bool => rcases hbool x with hw | hw <;> rw [values, hw] <;> rfl

end Machine.State

namespace Expr

open Machine

variable {V : Scalar → Type} {decl : (t : Scalar) → V t → Decl} {t : Scalar}

/-! ### Compilation -/

/-- The instructions that push the value of an expression, from the address `base` on. -/
def code (decl : (t : Scalar) → V t → Decl) (base : Nat) (e : Expr V t) : List Instruction :=
  (e.phrase decl).code base

/-- Whether instructions can name the places of all variables of an expression. -/
def Addressable (decl : (t : Scalar) → V t → Decl) (e : Expr V t) : Prop :=
  (e.phrase decl).Addressable

/-- Compiling an expression over addressable variables appends its code.  That the phrase is
well-typed is all that is needed for it. -/
theorem delivers (hdeclared : ∀ t x, (decl t x).Declared t) (e : Expr V t)
    (h : e.Addressable decl) :
    Delivers (e.generate decl) t.ty (e.phrase decl).isReadonly fun base => e.code decl base := by
  -- any schema would do, since there are no records
  have hdelivers := Phrase.delivers (e.typed_phrase (fun _ _ _ => .void) hdeclared) h
  rw [type_phrase hdeclared] at hdelivers
  exact hdelivers

/-- Only expressions over addressable variables can be compiled.  For all others the compiler is
misused, at the first instruction that cannot name its operand. -/
theorem needs (hdeclared : ∀ t x, (decl t x).Declared t) (e : Expr V t) :
    Needs (e.generate decl) t.ty (e.Addressable decl) := by
  have hneeds := Phrase.needs (e.typed_phrase (fun _ _ _ => .void) hdeclared)
  rw [type_phrase hdeclared] at hneeds
  exact hneeds

/-- **An expression over addressable variables is compiled to its code.** -/
theorem load_eq (hdeclared : ∀ t x, (decl t x).Declared t) {e : Expr V t}
    (h : e.Addressable decl) (c : Compiler) :
    ∃ x, (e.load decl).run c = .ok (.ok x) (c.withAssembler
      (c.assembler.append (e.code decl c.assembler.code.size))) ∧ x.type = t.ty := by
  obtain ⟨x, hload, htype, -⟩ := (delivers hdeclared e h).load c
  exact ⟨x, hload, htype⟩

theorem addressable_of_load (hdeclared : ∀ t x, (decl t x).Declared t) {e : Expr V t}
    {c c' : Compiler} {r : Except Diagnostic Operand} (h : (e.load decl).run c = .ok r c') :
    e.Addressable decl :=
  ((needs hdeclared e).load h).1

/-! ### Runs -/

/-- **The code of an expression pushes its value**, or divides by zero if the expression does.  This
is what is known of the phrase, for the memory that the machine has. -/
theorem computes {code : Array UInt8} {env : (t : Scalar) → V t → t.Value} {s : State}
    (hplaced : ∀ t x, (decl t x).Placed t) (e : Expr V t) (haddressable : e.Addressable decl)
    (hstores : s.Stores decl env)
    (hcode : CodeAt code s.pc (Code.ofInstructions (e.code decl s.pc)))
    (hend : s.pc + (Code.ofInstructions (e.code decl s.pc)).length < 65536) :
    Computes code s s.stack (s.pc + (Code.ofInstructions (e.code decl s.pc)).length) s.stack.push
      (t.outcome (e.eval env)) := by
  have hdeclared : ∀ t x, (decl t x).Declared t := fun t x => (hplaced t x).toDeclared
  have hnonneg : ∀ d, (Vocabulary.ofDecls decl hdeclared).Has d → 0 ≤ d.offset.toInt := by
    rintro d ⟨t, x, rfl⟩
    exact (hplaced t x).nonneg
  have hwords : ∀ t x, s.memory.word (decl t x) = t.word (env t x) := by
    intro t x
    simp only [State.memory, hstores t x, Option.getD_some]
  have hmemory : s.HasMemory (.ofDecls decl hdeclared) s.memory := by
    refine ⟨?_, rfl⟩
    rintro d ⟨t, x, rfl⟩
    rw [hwords, hstores t x]
  -- the words of values are of the right types, and the expression does not look at the heap
  have hserves : s.memory.Serves (fun _ _ _ => .void) (.ofDecls decl hdeclared) []
      (e.phrase decl) := by
    refine ⟨?_, .inl e.isPlain_phrase⟩
    rintro d ⟨t, x, rfl⟩
    rw [hwords, (hdeclared t x).type_eq]
    exact Suits.word [] t _
  have hcomputes := Phrase.codeComputes hnonneg (e.typed_phrase _ hdeclared) hserves haddressable s
    hmemory hcode hend
  rw [eval_phrase hwords e] at hcomputes
  exact hcomputes

end Expr

/-! ### Compiled expressions in a finished image -/

namespace Expr

open Machine Assembler Compiler

/-- **Compiled expressions have the right value.**  An expression over variables with words of
their own can be compiled just if instructions can name the variables.  Whatever is compiled after
it, in a finished image with less than 65536 bytes of code a run from the first byte of the
expression arrives after its last one with the value on top of the stack, or it faults with a
division by zero if the expression divides by zero.  Nothing else changes. -/
theorem load_correct {V : Scalar → Type} {decl : (t : Scalar) → V t → Decl} {t : Scalar}
    {e : Expr V t} {c : Compiler} (hplaced : ∀ t x, (decl t x).Placed t)
    (hallocated : ∀ t x, c.assembler.Allocates (decl t x)) :
    (e.Addressable decl ↔ ∃ r c', (e.load decl).run c = .ok r c') ∧
    ∀ r c', (e.load decl).run c = .ok r c' → (∃ x, r = .ok x ∧ x.type = t.ty) ∧
      ∀ later b b' image, session later c'.assembler = .ok () b →
        finish b = .ok (.ok image) b' → image.code.length < 65536 →
        ∀ s : State, s.pc = c.assembler.code.size → s.Hosts c.assembler →
          (∀ x, s.read? (decl .bool x) = some 0 ∨ s.read? (decl .bool x) = some 1) →
          match e.eval (s.values decl) with
          | some v => ∃ n, RunsTo image.code.toArray s n
              ⟨.unfinished, { s with
                pc := c'.assembler.code.size, stack := s.stack.push (t.word v)
                steps := s.steps + n }⟩
          | none => ∃ n pc pc' extra, RunsTo image.code.toArray s n
              ⟨.stopped pc (.fault .divisionByZero), { s with
                pc := pc', stack := s.stack ++ extra, steps := s.steps + n }⟩ := by
  have hdeclared : ∀ t x, (decl t x).Declared t := fun t x => (hplaced t x).toDeclared
  refine ⟨⟨fun haddressable => ?_, fun ⟨r, c', hload⟩ => addressable_of_load hdeclared hload⟩, ?_⟩
  · obtain ⟨x, hload, -⟩ := load_eq hdeclared haddressable c
    exact ⟨_, _, hload⟩
  intro r c' hload
  have haddressable := addressable_of_load hdeclared hload
  obtain ⟨x, hcompiled, htype⟩ := load_eq hdeclared haddressable c
  obtain ⟨rfl, rfl⟩ := EStateM.Result.ok.inj (hcompiled.symm.trans hload)
  refine ⟨⟨x, rfl, htype⟩, ?_⟩
  intro later b b' image hlater hfinish hsize s hpc hhosts hbool
  -- the emitted code stands in the image, whatever commands came later
  have hrealized := RealizedBy.of_effects (effects_session hlater) (realizedBy_of_finish hfinish)
  have hcode := hrealized.codeAt
  have hend := Nat.lt_of_le_of_lt hrealized.size hsize
  rw [Compiler.assembler_withAssembler, size_append] at hend ⊢
  rw [← hpc] at hcode hend ⊢
  have hcomputes := computes hplaced e haddressable (hhosts.stores_values hallocated hbool) hcode
    hend
  cases heval : e.eval (s.values decl) with
  | some v =>
    rw [heval] at hcomputes
    exact Reaches.runsTo hcomputes
  | none =>
    rw [heval] at hcomputes
    obtain ⟨pc', extra, hfaults⟩ := hcomputes
    obtain ⟨n, pc, hruns⟩ := hfaults.runsTo
    exact ⟨n, pc, pc', extra, hruns⟩

/-- A local number and a global truth value. -/
def sampleDecl : (t : Scalar) → Unit → Decl
  | .int, _ => ⟨"i", .var, .int, false, false, some 0, 1⟩
  | .bool, _ => ⟨"b", .var, .bool, true, false, some 0, 0⟩

/-- The expression `b == (i / 2 <= -3)`. -/
def sample : Expr (fun _ => Unit) .bool :=
  .equality .eq ⟨1, 1⟩ (.var (t := .bool) ())
    (.relation .le ⟨1, 1⟩ (.binary .div ⟨1, 1⟩ (.var (t := .int) ()) (.int 2)) (.int (-3)))

/-- The machine in a main procedure, where `i` is -7 and `b` is false. -/
def sampleState : State := ⟨3, 0, #[9], #[#[-7]], #[], #[0], #[0, 0, 0, 0], [], #[]⟩

/-- The quotient of -7 and 2 is -3, so that the comparison holds and is not equal to `b`. -/
theorem load_correct_quotient : ∃ (c : Compiler) (a b : Assembler) (image : Image) (n : Nat),
    (sample.load sampleDecl).run sampleMain = .ok (.ok (.ofType .bool)) c ∧
    session [.exit "$main_end"] c.assembler = .ok () a ∧ finish a = .ok (.ok image) b ∧
    RunsTo image.code.toArray sampleState n
      ⟨.unfinished, { sampleState with pc := 31, stack := #[9, 0], steps := n }⟩ := by
  have hload : (sample.load sampleDecl).run sampleMain = .ok (.ok (.ofType .bool))
      (sampleMain.withAssembler (sampleMain.assembler.append (sample.code sampleDecl 3))) := by
    rfl
  have hrest : (do session [.exit "$main_end"]; finish)
      (sampleMain.assembler.append (sample.code sampleDecl 3))
      = .ok (.ok (.ofSegments [48, 0, 1, 11, 0, 0, 1, 0, 17, 26, 22, 255, 255, 255, 253, 43, 0,
          22, 15, 39, 0, 23, 16, 40, 0, 30, 15, 39, 0, 31, 16, 49, 47] [0, 0, 0, 0] 0)) {
        code := ⟨#[.known 48, .known 0, .known 1, .known 11, .known 0, .known 0, .known 1,
          .known 0, .known 17, .known 26, .known 22, .known 255, .known 255, .known 255,
          .known 253, .known 43, .known 0, .known 22, .known 15, .known 39, .known 0, .known 23,
          .known 16, .known 40, .known 0, .known 30, .known 15, .known 39, .known 0, .known 31,
          .known 16, .known 49, .known 47]⟩
        statics := ⟨#[0, 0, 0, 0]⟩
        labels := ⟨[("$main_end", 31), ("$main", 0)], []⟩
        procedure? := none
        main? := some "$main" } := by
    rfl
  obtain ⟨_, a, hexit, hfinish⟩ := Action.bind_eq_ok.mp hrest
  have hplaced : ∀ t x, (sampleDecl t x).Placed t
    | .int, () => ⟨⟨⟨rfl, rfl⟩, rfl⟩, by decide⟩
    | .bool, () => ⟨⟨⟨rfl, rfl⟩, rfl⟩, by decide⟩
  have hallocated : ∀ t x, sampleMain.assembler.Allocates (sampleDecl t x)
    | .int, () => ⟨_, rfl, by decide⟩
    | .bool, () => show Decl.slot _ < Statics.words _ by decide
  have hhosts : sampleState.Hosts sampleMain.assembler :=
    ⟨Nat.le_refl _, fun p hp => ⟨#[-7], rfl, by cases hp; decide⟩⟩
  have hbool : ∀ x, sampleState.read? (sampleDecl .bool x) = some 0 ∨
      sampleState.read? (sampleDecl .bool x) = some 1
    | () => Or.inl (by decide)
  have hvalue : sample.eval (sampleState.values sampleDecl) = some false := by decide
  have hruns := ((load_correct hplaced hallocated).2 _ _ hload).2 _ _ _ _ hexit hfinish (by decide)
    sampleState rfl hhosts hbool
  rw [hvalue] at hruns
  obtain ⟨n, hn⟩ := hruns
  refine ⟨_, _, _, _, n, hload, hexit, hfinish, ?_⟩
  rw [show sampleState.steps + n = n from Nat.zero_add n] at hn
  exact hn

end Expr
end MJ
