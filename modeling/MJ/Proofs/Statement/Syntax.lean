import MJ.Proofs.Expression.Syntax

/-!
# Statements and programs

Structured programs over variables of scalar types: what they do, and how a caller of the compiler
turns them into code.  What a statement does is said by rules about the values of variables and
the printed bytes; they do not mention the machine.

## Main definitions

* `Env`, `Env.set` — the values of variables.
* `Stmt` — statements.
* `Stmt.Exec` — a statement ends, with what it has printed and with new values of the variables,
  or with a division by zero.
* `Stmt.generate` — the calls that compile a statement.
* `Program`, `Program.compile` — the main procedure of a program with its variables.
-/

namespace MJ

/-! ### Values of variables -/

/-- The values of variables.  Each has a value of its type, so that expressions need no test. -/
abbrev Env (V : Scalar → Type) := (t : Scalar) → V t → t.Value

namespace Env

variable {V : Scalar → Type}

/-- All numbers are 0 and all truth values false, as in memory that nothing was stored into. -/
def initial : Env V
  | .int, _ => (0 : Word)
  | .bool, _ => false

variable [∀ t, DecidableEq (V t)]

/-- The values after an assignment.  Variables of two types are different, also if they look the
same. -/
def set (env : Env V) {t : Scalar} (x : V t) (v : t.Value) : Env V := fun u y =>
  if h : t = u then if h ▸ x = y then h ▸ v else env u y else env u y

@[simp] theorem set_self (env : Env V) {t : Scalar} (x : V t) (v : t.Value) :
    env.set x v t x = v := by
  simp only [set, dif_pos, if_true]

theorem set_of_ne (env : Env V) {t u : Scalar} {x : V t} {y : V u} (v : t.Value)
    (h : (⟨u, y⟩ : Sigma V) ≠ ⟨t, x⟩) : env.set x v u y = env u y := by
  rw [set]
  split
  · rename_i htype
    subst htype
    have hne : x ≠ y := fun hxy => h (by rw [hxy])
    exact if_neg hne
  · rfl

end Env

/-! ### Statements -/

/-- A statement over the variables `V`.  Where the compiler takes a position in the text for its
messages, the statement has one. -/
inductive Stmt (V : Scalar → Type) where
  /-- Does nothing. -/
  | skip
  /-- One statement after the other. -/
  | seq (a b : Stmt V)
  /-- Gives a variable the value of an expression. -/
  | assign {t : Scalar} (x : V t) (e : Expr V t) (span : Span)
  /-- A statement under a condition. -/
  | ifThen (condition : Expr V .bool) (span : Span) (body : Stmt V)
  /-- One of two statements. -/
  | ifElse (condition : Expr V .bool) (span : Span) (a b : Stmt V)
  /-- A statement as long as a condition holds. -/
  | whileDo (condition : Expr V .bool) (span : Span) (body : Stmt V)
  /-- Prints a number. -/
  | writeInt (e : Expr V .int) (span : Span)
  /-- Prints a truth value. -/
  | writeBool (e : Expr V .bool) (span : Span)
  /-- Ends the line. -/
  | writeLine (span : Span)
  /-- Prints a text of the program. -/
  | writeText (literal : String) (noNul : Char.ofNat 0 ∉ (Compiler.unquote literal).toList)

namespace Stmt

variable {V : Scalar → Type}

/-- The text of a truth value. -/
def boolText (b : Bool) : String := if b then "True" else "False"

/-- `Exec s env out r` says that `s` ends after it has printed `out`; `r` are the values of the
variables then, or `none` if it ends with a division by zero.  A relation is used because loops need
not end, and then nothing is said. -/
inductive Exec [∀ t, DecidableEq (V t)] : Stmt V → Env V → List UInt8 → Option (Env V) → Prop
  | skip {env : Env V} : Exec .skip env [] (some env)
  | seq {a b : Stmt V} {env env₁ : Env V} {out₁ out₂ : List UInt8} {r : Option (Env V)}
    (ha : Exec a env out₁ (some env₁)) (hb : Exec b env₁ out₂ r) :
    Exec (.seq a b) env (out₁ ++ out₂) r
  | seqDivided {a b : Stmt V} {env : Env V} {out : List UInt8} (ha : Exec a env out none) :
    Exec (.seq a b) env out none
  | assign {t : Scalar} {x : V t} {e : Expr V t} {span : Span} {env : Env V} :
    Exec (.assign x e span) env [] ((e.eval env).map (env.set x))
  | ifThenTrue {c : Expr V .bool} {span : Span} {s : Stmt V} {env : Env V} {out : List UInt8}
    {r : Option (Env V)} (hc : c.eval env = some true) (hs : Exec s env out r) :
    Exec (.ifThen c span s) env out r
  | ifThenFalse {c : Expr V .bool} {span : Span} {s : Stmt V} {env : Env V}
    (hc : c.eval env = some false) : Exec (.ifThen c span s) env [] (some env)
  | ifThenDivided {c : Expr V .bool} {span : Span} {s : Stmt V} {env : Env V}
    (hc : c.eval env = none) : Exec (.ifThen c span s) env [] none
  | ifElseTrue {c : Expr V .bool} {span : Span} {a b : Stmt V} {env : Env V} {out : List UInt8}
    {r : Option (Env V)} (hc : c.eval env = some true) (ha : Exec a env out r) :
    Exec (.ifElse c span a b) env out r
  | ifElseFalse {c : Expr V .bool} {span : Span} {a b : Stmt V} {env : Env V} {out : List UInt8}
    {r : Option (Env V)} (hc : c.eval env = some false) (hb : Exec b env out r) :
    Exec (.ifElse c span a b) env out r
  | ifElseDivided {c : Expr V .bool} {span : Span} {a b : Stmt V} {env : Env V}
    (hc : c.eval env = none) : Exec (.ifElse c span a b) env [] none
  | whileTrue {c : Expr V .bool} {span : Span} {s : Stmt V} {env env₁ : Env V}
    {out₁ out₂ : List UInt8} {r : Option (Env V)} (hc : c.eval env = some true)
    (hs : Exec s env out₁ (some env₁)) (hrest : Exec (.whileDo c span s) env₁ out₂ r) :
    Exec (.whileDo c span s) env (out₁ ++ out₂) r
  | whileBodyDivided {c : Expr V .bool} {span : Span} {s : Stmt V} {env : Env V}
    {out : List UInt8} (hc : c.eval env = some true) (hs : Exec s env out none) :
    Exec (.whileDo c span s) env out none
  | whileFalse {c : Expr V .bool} {span : Span} {s : Stmt V} {env : Env V}
    (hc : c.eval env = some false) : Exec (.whileDo c span s) env [] (some env)
  | whileDivided {c : Expr V .bool} {span : Span} {s : Stmt V} {env : Env V}
    (hc : c.eval env = none) : Exec (.whileDo c span s) env [] none
  | writeInt {e : Expr V .int} {span : Span} {env : Env V} {v : Word}
    (he : e.eval env = some v) :
    Exec (.writeInt e span) env (Utf8.encode (toString v.toInt)) (some env)
  | writeIntDivided {e : Expr V .int} {span : Span} {env : Env V} (he : e.eval env = none) :
    Exec (.writeInt e span) env [] none
  | writeBool {e : Expr V .bool} {span : Span} {env : Env V} {b : Bool}
    (he : e.eval env = some b) :
    Exec (.writeBool e span) env (Utf8.encode (boolText b)) (some env)
  | writeBoolDivided {e : Expr V .bool} {span : Span} {env : Env V} (he : e.eval env = none) :
    Exec (.writeBool e span) env [] none
  | writeLine {span : Span} {env : Env V} :
    Exec (.writeLine span) env (Utf8.encode "\n") (some env)
  | writeText {literal : String} {noNul : Char.ofNat 0 ∉ (Compiler.unquote literal).toList}
    {env : Env V} :
    Exec (.writeText literal noNul) env (Utf8.encode (Compiler.unquote literal)) (some env)

open Compiler

/-- Compiles a statement over declared variables, with the calls that a caller makes for it.  Labels
are made up where they are needed, and each is defined in the same statement. -/
def generate (decl : (t : Scalar) → V t → Decl) : Stmt V → Checked Unit
  | .skip => pure ()
  | .seq a b => do
    generate decl a
    generate decl b
  | .assign x e span => do
    let value ← e.generate decl
    Compiler.assign (← Demo.valueOf (decl _ x)) value span
  | .ifThen condition span body => do
    let condition ← condition.generate decl
    let done ← newLabel
    branchIfFalse condition done span
    generate decl body
    define done
  | .ifElse condition span a b => do
    let condition ← condition.generate decl
    let otherwise ← newLabel
    let done ← newLabel
    branchIfFalse condition otherwise span
    generate decl a
    jump done
    define otherwise
    generate decl b
    define done
  | .whileDo condition span body => do
    let top ← newLabel
    let done ← newLabel
    define top
    let condition ← condition.generate decl
    branchIfFalse condition done span
    generate decl body
    jump top
    define done
  | .writeInt e span => do
    let x ← e.load decl
    Demo.write .writeint [x] span
  | .writeBool e span => do
    let x ← e.load decl
    Demo.write .writebool [x] span
  | .writeLine span => Demo.write .writeln [] span
  | .writeText literal _ => writeString literal

end Stmt

/-! ### Programs -/

/-- A declared variable of a program. -/
structure Variable where
  /-- Its name. -/
  name : String
  /-- Its type. -/
  type : Scalar
  /-- Whether it is kept in the static segment. -/
  isGlobal : Bool
  /-- Tells declarations of one name apart. -/
  id : UInt32
  deriving DecidableEq, Repr

/-- The declaration of a variable that has no place yet. -/
def Variable.decl (v : Variable) : Decl :=
  ⟨v.name, .var, v.type.ty, v.isGlobal, false, none, v.id⟩

/-- A use of a variable of a type.  It carries the proof that the variable has the type, so that no
ill-typed program can be written down. -/
structure Ref (vars : List Variable) (t : Scalar) where
  /-- Which of the variables it is. -/
  index : Fin vars.length
  /-- It has the type. -/
  type_eq : (vars.get index).type = t
  deriving DecidableEq, Repr

/-- The declaration of a variable among those that have a place.  If there are too few of them, the
variable has no place. -/
def Ref.decl {vars : List Variable} (decls : List Decl) (t : Scalar) (x : Ref vars t) : Decl :=
  decls.getD x.index (vars.get x.index).decl

/-- A program that consists of its main procedure. -/
structure Program where
  /-- The variables that get their places before the procedure begins. -/
  outer : List Variable
  /-- The variables that get their places inside of it. -/
  inner : List Variable
  /-- What it does. -/
  body : Stmt (Ref (outer ++ inner))

namespace Program

open Compiler

/-- Gives variables their places. -/
def allocAll : List Variable → Compile (List Decl)
  | [] => pure []
  | v :: vs => do
    let d ← allocVariable v.decl
    let ds ← allocAll vs
    return d :: ds

/-- Compiles a program and gives the declarations of its variables. -/
def compile (p : Program) : Checked (List Decl) := do
  let outer ← allocAll p.outer
  enter none
  let inner ← allocAll p.inner
  p.body.generate (Ref.decl (outer ++ inner))
  exit none
  return outer ++ inner

end Program
end MJ
