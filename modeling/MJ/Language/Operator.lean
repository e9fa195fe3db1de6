import MJ.Instruction

/-!
# Operators

The operators of the compiled language and how they are written.

## Main definitions

* `Unary`, `Binary`, `Relation`, `Equality`, and their `symbol`s.

## References

The MJ specification, §4.5 *Code Generator*, under `op1/op2/relOp/equalOp`, and §E6 *Supplemented
features* for the operators that were added.
-/

namespace MJ

/-- The operators before an operand.  The first two take numbers and the last one truth values. -/
inductive Unary where
  /-- The number itself. -/
  | plus
  /-- The number with the other sign. -/
  | minus
  /-- The other truth value. -/
  | not
  deriving DecidableEq, Repr

/-- How the operator is written. -/
def Unary.symbol : Unary → String
  | plus => "+"
  | minus => "-"
  | not => "Not"

/-- The operators between two operands of one type.  Which type it is depends on the operator. -/
inductive Binary where
  /-- Sum. -/
  | add
  /-- Difference. -/
  | sub
  /-- Product. -/
  | mul
  /-- Quotient. -/
  | div
  /-- Remainder. -/
  | mod
  /-- Conjunction. -/
  | and
  /-- Disjunction. -/
  | or
  deriving DecidableEq, Repr

namespace Binary

/-- How the operator is written. -/
def symbol : Binary → String
  | add => "+"
  | sub => "-"
  | mul => "*"
  | div => "/"
  | mod => "%"
  | and => "And"
  | or => "Or"

/-- Whether the operator takes truth values.  All the others take numbers. -/
def isLogical : Binary → Bool
  | and | or => true
  | _ => false

end Binary

/-- The operators that compare two numbers.  They leave a truth value. -/
inductive Relation where
  /-- Less. -/
  | lt
  /-- Less or equal. -/
  | le
  /-- Greater. -/
  | gt
  /-- Greater or equal. -/
  | ge
  deriving DecidableEq, Repr

namespace Relation

/-- How the operator is written. -/
def symbol : Relation → String
  | lt => "<"
  | le => "<="
  | gt => ">"
  | ge => ">="

/-- The comparison that the operator stands for. -/
def comparison : Relation → Comparison
  | lt => .lt
  | le => .le
  | gt => .gt
  | ge => .ge

end Relation

/-- The operators that tell whether two values are equal.  The values are numbers or truth values,
both of the same kind. -/
inductive Equality where
  /-- Equal. -/
  | eq
  /-- Not equal. -/
  | ne
  deriving DecidableEq, Repr

namespace Equality

/-- How the operator is written. -/
def symbol : Equality → String
  | eq => "=="
  | ne => "!="

/-- The comparison that the operator stands for. -/
def comparison : Equality → Comparison
  | eq => .eq
  | ne => .ne

end Equality
end MJ
