/-!
# Diagnostics

What can be wrong with the program that is compiled.  Each defect has a number that does not
change.

## Main definitions

* `Span` — a place in the program.
* `Defect`, `Defect.number`, `Defect.message`
* `Diagnostic` — a defect at a place.

## References

The MJ specification, §7 *Error Handling Design*, under *Source-level semantic errors*, and §E2
*Error handling* for the list of them.
-/

namespace MJ

/-- A place in the program, counted from 1.  It is not looked at, only passed on. -/
structure Span where
  /-- The line. -/
  line : Nat
  /-- The column. -/
  column : Nat
  deriving DecidableEq, Repr

/-- What is wrong with the program.  It is found before any code of the construct is emitted. -/
inductive Defect where
  /-- An index after something that is no array. -/
  | selectorNotArray
  /-- An index or length that is no number. -/
  | badArraySelector
  /-- The length of something that is no array. -/
  | lengthNotArray
  /-- An operand of the wrong type after a unary operator. -/
  | illegalUnary (op : String)
  /-- An operand of the wrong type beside a binary operator. -/
  | illegalBinary (op : String)
  /-- An operand of the wrong type beside a comparison. -/
  | illegalRelation (op : String)
  /-- An operand of the wrong type beside a test for equality. -/
  | illegalEquality (op : String)
  /-- A procedure without result in an expression. -/
  | notAFunction (procedure : String)
  /-- A value that may not be changed was assigned to. -/
  | readonlyAssign
  /-- A value of another type was assigned. -/
  | typeMismatch
  /-- An argument of the wrong type. -/
  | badArgument (index : Nat) (procedure : String)
  /-- Fewer arguments than parameters. -/
  | tooFewArguments (procedure : String)
  /-- More arguments than parameters. -/
  | tooManyArguments (procedure : String)
  /-- A condition that is no truth value. -/
  | conditionNotBool
  /-- A field of something that is no record. -/
  | selectorNotRecord
  /-- A field that the record does not have. -/
  | invalidField (field record : String)
  /-- A new object of a type that has none. -/
  | invalidNewType
  /-- More dimensions than an array may have. -/
  | tooManyDimensions (max : Nat)
  deriving DecidableEq, Repr

namespace Defect

/-- The number of the defect in diagnostics.  The numbers are not consecutive. -/
def number : Defect → Nat
  | selectorNotArray => 20
  | badArraySelector => 21
  | lengthNotArray => 22
  | illegalUnary _ => 23
  | illegalBinary _ => 24
  | illegalRelation _ => 25
  | illegalEquality _ => 26
  | notAFunction _ => 27
  | readonlyAssign => 28
  | typeMismatch => 29
  | badArgument _ _ => 30
  | tooFewArguments _ => 32
  | tooManyArguments _ => 33
  | conditionNotBool => 34
  | selectorNotRecord => 40
  | invalidField _ _ => 41
  | invalidNewType => 42
  | tooManyDimensions _ => 51

/-- The text of the defect.  It does not tell the place, which comes in front. -/
def message : Defect → String
  | selectorNotArray => "expression before '[' is not an array type"
  | badArraySelector => "array index or dimension is not an integer type"
  | lengthNotArray => "expression after '#' is not an array type"
  | illegalUnary op => s!"illegal operand type for unary operator '{op}'"
  | illegalBinary op => s!"illegal operand type for binary operator '{op}'"
  | illegalRelation op => s!"illegal operand type for relational operator '{op}'"
  | illegalEquality op => s!"illegal operand type for equality operator '{op}'"
  | notAFunction procedure => s!"using procedure '{procedure}' (not a function) in expression"
  | readonlyAssign => "read-only l-value in assignment"
  | typeMismatch => "type mismatch in assignment"
  | badArgument index procedure =>
    s!"argument #{index} not applicable to procedure '{procedure}'"
  | tooFewArguments procedure => s!"too few arguments for procedure '{procedure}'"
  | tooManyArguments procedure => s!"too many arguments for procedure '{procedure}'"
  | conditionNotBool => "condition is not a boolean expression"
  | selectorNotRecord => "expression before '.' is not a record type"
  | invalidField field record => s!"invalid field '{field}' of record '{record}'"
  | invalidNewType => "invalid type used with 'new' operator"
  | tooManyDimensions max => s!"too many array dimensions (at most {max})"

end Defect

/-- A defect at a place of the program.  The caller says where, and the compiler says what. -/
structure Diagnostic where
  /-- What is wrong. -/
  defect : Defect
  /-- Where it is. -/
  span : Span
  deriving DecidableEq, Repr

/-- The text of a diagnostic. -/
def Diagnostic.message (e : Diagnostic) : String :=
  s!"{e.span.line}:{e.span.column}: error {e.defect.number}: " ++ e.defect.message

end MJ
