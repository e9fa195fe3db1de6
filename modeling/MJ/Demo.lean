import MJ.Compiler.Object
import MJ.Compiler.Procedure

/-!
# The demonstration program

The code of

```text
program demo
  const LIMIT = 6;
  int total;
  record Point { int x; int y; }

  int fact(int n) {
    if (n <= 1) return 1;
    return n * fact(n - 1);
  }

{
  int i;
  i = 1;
  while (i <= LIMIT) {
    writeint(i); writestring("! = "); writeint(fact(i)); writeln();
    total = total + i;
    i = i + 1;
  }
  writestring("sum = "); writeint(total); writeln();
  writebool(total % 2 == 1); writeln();

  int[] squares; Point p;
  squares = new int[LIMIT];
  squares[LIMIT - 1] = -total;
  p = new Point;
  p.x = #squares;
  p.y = squares[5];
  writeint(p.x + p.y); writeln();
  writebool(!(p.x < p.y)); writeln();
}
```

## Main definitions

* `Demo.assembler` — the program, ready to be finished.

## References

The MJ specification, §E4 *Configuration*, `--demo`.
-/

namespace MJ
namespace Demo

open Compiler

/-- The place of a construct: the line of the program.  The column does not matter here. -/
def line (n : Nat) : Span := ⟨n, 1⟩

/-- The value of a variable.  A name without storage is a misuse, which would be a mistake in this
module. -/
def valueOf (s : Decl) : Checked Operand :=
  match Operand.ofDecl s with
  | .ok x => return x
  | .error misuse => throwThe Misuse misuse

/-- Pushes the value of a variable.  The operand is on the stack afterwards. -/
def load (s : Decl) : Checked Operand := do loadValue (← valueOf s)

/-- Pushes a number.  The operators expect both operands on the stack. -/
def loadInt (v : Word) : Checked Operand := loadValue (.int v)

/-- Pushes a field of the record in a variable.  The record is pushed first, and the field takes its
place. -/
def loadField (s : Decl) (field : String) (span : Span) : Checked Operand := do
  loadValue (← selectField (← valueOf s) field span)

/-- Calls a builtin procedure.  It has no result that could be used. -/
def write (b : Builtin) (args : List Operand) (span : Span) : Checked Unit := do
  let _ ← callProcedure b.decl args span

/-- Prints a number and ends the line. -/
def writeIntLine (x : Operand) (span : Span) : Checked Unit := do
  write .writeint [x] span
  write .writeln [] span

/-- Prints a truth value and ends the line. -/
def writeBoolLine (x : Operand) (span : Span) : Checked Unit := do
  write .writebool [x] span
  write .writeln [] span

/-- The type of the points.  The fields are numbered, so that they can be selected. -/
def point : Ty := Ty.numberFields (.record "Point" [⟨"x", .int, none⟩, ⟨"y", .int, none⟩])

/-- The procedure that computes factorials.  It calls itself, and so it is declared before it is
compiled. -/
def fact : Decl :=
  ⟨"fact", .procedure, .procedure "fact" .int [⟨"n", .int⟩] none, true, false, none, 1⟩

/-- The program.  It stands for the main procedure. -/
def program : Decl := .ofKind "demo" .program .void 0

/-- Compiles the procedure that computes factorials.  The result of each return is left on the
stack. -/
def compileFact : Checked Unit := do
  let n := setParamOffset (.ofKind "n" .parameter .int 2) 0
  enter (some fact)
  let x ← load n
  let one ← loadInt 1
  let small ← relation x .le (line 7) one
  let recurse ← newLabel
  branchIfFalse small recurse (line 7)
  let _ ← loadInt 1
  returnFrom
  define recurse
  let x ← load n
  let y ← load n
  let one ← loadInt 1
  let previous ← binary y .sub (line 8) one
  let rest ← callFunction fact [previous] (line 8)
  let _ ← binary x .mul (line 8) rest
  returnFrom
  exit (some fact)

/-- Compiles the loop that prints factorials.  The bound is a constant, which is loaded anew each
time. -/
def compileLoop (limit total i : Decl) : Checked Unit := do
  let top ← newLabel
  let done ← newLabel
  define top
  let x ← load i
  let bound ← load limit
  let going ← relation x .le (line 14) bound
  branchIfFalse going done (line 14)
  let x ← load i
  write .writeint [x] (line 15)
  writeString "\"! = \""
  let x ← load i
  let f ← callFunction fact [x] (line 15)
  writeIntLine f (line 15)
  let sum ← load total
  let x ← load i
  let sum ← binary sum .add (line 16) x
  assign (← valueOf total) sum (line 16)
  let x ← load i
  let one ← loadInt 1
  let next ← binary x .add (line 17) one
  assign (← valueOf i) next (line 17)
  jump top
  define done

/-- Compiles the part of the program that prints the sum.  The remainder tells whether it is odd. -/
def compileSum (total : Decl) : Checked Unit := do
  writeString "\"sum = \""
  let sum ← load total
  writeIntLine sum (line 19)
  let sum ← load total
  let two ← loadInt 2
  let remainder ← binary sum .mod (line 20) two
  let one ← loadInt 1
  let odd ← equality remainder .eq (line 20) one
  writeBoolLine odd (line 20)

/-- Compiles the part of the program that uses an array and a record.  Both are kept in variables of
the main procedure. -/
def compileObjects (limit total : Decl) : Checked Unit := do
  let ints := Ty.array 0 .int
  let squares ← allocVariable (.ofKind "squares" .var ints 4)
  let p ← allocVariable (.ofKind "p" .var point 5)
  let length ← load limit
  storeLength 0 length (line 23)
  let array ← allocArray ints (line 23)
  assign (← valueOf squares) array (line 23)
  let base ← loadAddress (← valueOf squares)
  let bound ← load limit
  let one ← loadInt 1
  let last ← binary bound .sub (line 24) one
  let element ← selectElement base last (line 24)
  let sum ← load total
  let negative ← unary (some .minus) (line 24) sum
  assign element negative (line 24)
  let record ← allocRecord point (line 25)
  assign (← valueOf p) record (line 25)
  let field ← selectField (← valueOf p) "x" (line 26)
  let (_, length) ← arrayLength (← valueOf squares) (line 26)
  assign field length (line 26)
  let field ← selectField (← valueOf p) "y" (line 27)
  let base ← loadAddress (← valueOf squares)
  let element ← loadValue (← selectElement base (.int 5) (line 27))
  assign field element (line 27)
  let x ← loadField p "x" (line 28)
  let y ← loadField p "y" (line 28)
  let sum ← binary x .add (line 28) y
  writeIntLine sum (line 28)
  let x ← loadField p "x" (line 29)
  let y ← loadField p "y" (line 29)
  let less ← relation x .lt (line 29) y
  let notLess ← unary (some .not) (line 29) less
  writeBoolLine notLess (line 29)

/-- Compiles the whole program.  The constant is declared before the main procedure, and is set when
that starts. -/
def compile : Checked Unit := do
  let limit ← allocVariable ⟨"LIMIT", .constant, .int, true, true, none, 0⟩
  assign (← valueOf limit) (.int 6) (line 2)
  let total ← allocVariable ⟨"total", .var, .int, true, false, none, 0⟩
  compileFact
  enter (some program)
  let i ← allocVariable (.ofKind "i" .var .int 3)
  assign (← valueOf i) (.int 1) (line 13)
  compileLoop limit total i
  compileSum total
  compileObjects limit total
  exit (some program)

/-- The program, ready to be finished.  Nothing goes wrong in it, but that is not visible in its
type. -/
def assembler : Except Misuse (Except Diagnostic Assembler) :=
  match compile.run Compiler.empty with
  | .ok (.ok ()) c => .ok (.ok c.assembler)
  | .ok (.error e) _ => .ok (.error e)
  | .error misuse _ => .error misuse

end Demo
end MJ
