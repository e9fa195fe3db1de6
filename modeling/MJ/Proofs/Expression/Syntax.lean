import MJ.Proofs.Access.Syntax

/-!
# Expressions over numbers and truth values

Well-typed expressions over numbers and truth values: what they mean, and how a caller of the
compiler turns them into code.  The meaning is given by values of the right types and does not
mention words, memory or the machine.

Such an expression is written down as a phrase, which is how it is compiled.  The phrase has the
type of the expression and looks at nothing but the variables, and its value is the word of the
value of the expression; what is known of the code of phrases therefore holds for expressions.

## Main definitions

* `Expr` — expressions over typed variables; there are no others than well-typed ones.
* `Expr.eval` — the value of an expression; `none` if it divides by zero.
* `Expr.phrase` — the phrase that an expression is written as.
* `Expr.generate`, `Expr.load` — the calls that compile an expression.

## Main results

* `Expr.typed_phrase`, `Expr.eval_phrase` — **the phrase is well-typed, and it has the value of the
  expression.**

## References

The MJ specification, §4.5 *Code Generator*, under `op1/op2/relOp/equalOp`.
-/

namespace MJ

/-- An expression of a type, over the variables `V`.  Operators carry where they are written, since
this is what the compiler is told; no report is ever made about a well-typed one. -/
inductive Expr (V : Scalar → Type) : Scalar → Type where
  /-- A number. -/
  | int (v : Word) : Expr V .int
  /-- A truth value. -/
  | bool (b : Bool) : Expr V .bool
  /-- The value of a variable. -/
  | var {t : Scalar} (x : V t) : Expr V t
  /-- An operator before an operand. -/
  | unary (op : Unary) (span : Span) (x : Expr V op.scalar) : Expr V op.scalar
  /-- An operator between two operands. -/
  | binary (op : Binary) (span : Span) (x y : Expr V op.scalar) : Expr V op.scalar
  /-- A comparison of two numbers. -/
  | relation (op : Relation) (span : Span) (x y : Expr V .int) : Expr V .bool
  /-- A test for equality. -/
  | equality {t : Scalar} (op : Equality) (span : Span) (x y : Expr V t) : Expr V .bool

/-- The variables that declarations are given for.  There may be infinitely many, of which an
expression names a few. -/
def Vocabulary.ofDecls {V : Scalar → Type} (decl : (t : Scalar) → V t → Decl)
    (hdeclared : ∀ t x, (decl t x).Declared t) : Vocabulary where
  Has d := ∃ t x, d = decl t x
  hasOffset := by
    rintro d ⟨t, x, rfl⟩
    exact (hdeclared t x).toHasOffset

namespace Expr

variable {V : Scalar → Type} {t : Scalar}

/-- The value of an expression in which the variables have the values `env`; `none` if a division
by zero comes first, from left to right.  All operands are evaluated. -/
def eval (env : (t : Scalar) → V t → t.Value) : {t : Scalar} → Expr V t → Option t.Value
  | _, int v => some v
  | _, bool b => some b
  | _, var x => some (env _ x)
  | _, unary op _ x => do
    let a ← x.eval env
    some (op.eval a)
  | _, binary op _ x y => do
    let a ← x.eval env
    let b ← y.eval env
    op.eval a b
  | _, relation op _ x y => do
    let a ← x.eval env
    let b ← y.eval env
    some (op.eval a b)
  | _, equality op _ x y => do
    let a ← x.eval env
    let b ← y.eval env
    some (op.eval a b)

/-! ### Expressions as phrases -/

/-- The phrase that an expression over declared variables is written as. -/
def phrase (decl : (t : Scalar) → V t → Decl) : {t : Scalar} → Expr V t → Phrase
  | _, int v => .int v
  | _, bool b => .bool b
  | _, var x => .var (decl _ x)
  | _, unary op span x => .unary op span (x.phrase decl)
  | _, binary op span x y => .binary op span (x.phrase decl) (y.phrase decl)
  | _, relation op span x y => .relation op span (x.phrase decl) (y.phrase decl)
  | _, equality op span x y => .equality op span (x.phrase decl) (y.phrase decl)

/-- Compiles an expression over declared variables and gives the operand that stands for it, which
may still have to be pushed.  The operands of an operator are pushed from left to right. -/
def generate (decl : (t : Scalar) → V t → Decl) (e : Expr V t) : Checked Operand :=
  (e.phrase decl).generate

/-- Compiles an expression and pushes its value. -/
def load (decl : (t : Scalar) → V t → Decl) (e : Expr V t) : Checked Operand :=
  (e.phrase decl).load

variable {decl : (t : Scalar) → V t → Decl}

theorem type_phrase (hdeclared : ∀ t x, (decl t x).Declared t) (e : Expr V t) :
    (e.phrase decl).type = t.ty := by
  cases e with
  | var x => exact (hdeclared _ x).type_eq
  | _ => rfl

/-- The phrase is well-typed, for any schema: there are no fields that it could speak of. -/
theorem typed_phrase (schema : Schema) (hdeclared : ∀ t x, (decl t x).Declared t) (e : Expr V t) :
    (e.phrase decl).Typed schema (.ofDecls decl hdeclared) := by
  induction e with
  | int v | bool b => trivial
  | @var t x => exact ⟨t, x, rfl⟩
  | unary op span x ih => exact ⟨ih, type_phrase hdeclared x⟩
  | binary op span x y ihx ihy | relation op span x y ihx ihy =>
    exact ⟨⟨ihx, type_phrase hdeclared x⟩, ihy, type_phrase hdeclared y⟩
  | @equality t op span x y ihx ihy =>
    exact ⟨t, ⟨ihx, type_phrase hdeclared x⟩, ihy, type_phrase hdeclared y⟩

theorem isPlain_phrase (e : Expr V t) : (e.phrase decl).IsPlain := by
  induction e with
  | int v | bool b | var x => trivial
  | unary op span x ih => exact ih
  | binary op span x y ihx ihy | relation op span x y ihx ihy | equality op span x y ihx ihy =>
    exact ⟨ihx, ihy⟩

/-- **The phrase has the value of the expression**, in a memory with the words of the variables.  By
induction on the expression: phrases compute with words and expressions with values, and the word of
a value stands for that value only. -/
theorem eval_phrase {m : Memory} {env : (t : Scalar) → V t → t.Value}
    (hwords : ∀ t x, m.word (decl t x) = t.word (env t x)) (e : Expr V t) :
    (e.phrase decl).eval m = t.outcome (e.eval env) := by
  induction e with
  | int v | bool b => rfl
  | @var t x => exact congrArg Except.ok (hwords t x)
  | unary op span x ih =>
    rw [phrase, Phrase.eval, ih, eval]
    cases x.eval env with
    | none => rfl
    | some a =>
      exact congrArg (fun v => Except.ok (op.scalar.word (op.eval v))) (op.scalar.ofWord_word a)
  | binary op span x y ihx ihy =>
    rw [phrase, Phrase.eval, ihx, ihy, eval]
    cases x.eval env with
    | none => rfl
    | some a =>
      cases y.eval env with
      | none => rfl
      | some b =>
        -- both operands have values, and the operator decides whether there is one
        show op.onWords (op.scalar.word a) (op.scalar.word b) = op.scalar.outcome (op.eval a b)
        rw [Binary.onWords, Scalar.ofWord_word, Scalar.ofWord_word]
  | relation op span x y ihx ihy =>
    rw [phrase, Phrase.eval, ihx, ihy, eval]
    cases x.eval env with
    | none => rfl
    | some a => cases y.eval env <;> rfl
  | @equality t op span x y ihx ihy =>
    rw [phrase, Phrase.eval, ihx, ihy, eval]
    cases x.eval env with
    | none => rfl
    | some a =>
      cases y.eval env with
      | none => rfl
      | some b => exact congrArg (fun v => Except.ok (boolWord v)) (op.eval_word a b)

end Expr
end MJ
