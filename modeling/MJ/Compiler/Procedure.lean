import MJ.Compiler.Expression

/-!
# Procedures and calls

## Main definitions

* `Compiler.enter`, `Compiler.exit` — the two ends of a procedure.
* `Compiler.returnFrom` — leaves the open procedure.
* `Compiler.callProcedure`, `Compiler.callFunction` — calls, with builtin procedures compiled in
  place.
* `Compiler.writeString` — prints a text of the program.

## References

The MJ specification, §4.5 *Code Generator*, under `enterProc/exitProc/returnFromProc/callProc` and
*Predefined I/O procedures*, and §E6 *Supplemented features* for the checks of a call.
-/

namespace MJ
namespace Compiler

/-! ### Texts -/

/-- Prints a text.  It is stored anew each time, even if the same text was stored before. -/
def writeText (text : String) : Asm Unit := do
  let address ← Assembler.allocString text
  Assembler.printString address

/-- A text of the program without the quotes around it, if it has both. -/
def unquote (literal : String) : String :=
  match literal.toList with
  | '"' :: rest => if rest.getLast? = some '"' then String.ofList rest.dropLast else literal
  | _ => literal

/-- Prints a text of the program.  The quotes belong to how the program is written, and not to the
text. -/
def writeString (literal : String) : Compile Unit := writeText (unquote literal)

/-! ### The two ends of a procedure -/

/-- Sets global constants, in the order in which they were assigned to. -/
def setConstants : List (Word × Word) → Asm Unit
  | [] => pure ()
  | (offset, value) :: rest => do
    setConstant offset value
    setConstants rest

/-- Notes that the main procedure is entered, and gives the constants still to be set.  From then on
constants are set at once, and so none are left to note. -/
def startMain : Compile (List (Word × Word)) := fun c =>
  .ok c.constants { c with mainEntered := true, constants := [] }

/-- Opens the procedure between two labels.  The constants are set right after the main procedure is
entered, before any of its own code. -/
def enterAt (label endLabel : String) (params : Nat) (isMain : Bool) : Compile Unit := do
  Assembler.enter label params isMain
  modify fun c => { c with exitLabel? := some endLabel }
  if isMain then
    let constants ← startMain
    setConstants constants

/-- Opens a procedure; no name, or that of the program, stands for the main one. -/
def enter (procedure? : Option Decl) : Compile Unit :=
  match procedure? with
  | none => enterAt "$main" "$main_end" 0 true
  | some s =>
    if s.kind = .program then enterAt s.label s.endLabel 0 true
    else
      match s.type with
      | .procedure _ _ params _ => enterAt s.label s.endLabel params.length false
      | type => throw (.notAProcedure s.name type.name)

/-- Takes the label at the end of the open procedure, which must be that of the given one.  What was
noted of arrays whose allocation never came is dropped with it. -/
def takeExitLabel (procedure? : Option Decl) : Compile String := fun c =>
  match c.exitLabel? with
  | none => .error .noOpenProcedure c
  | some endLabel =>
    let taken : EStateM.Result Misuse Compiler String :=
      .ok endLabel { c with exitLabel? := none, pendingLengths := [] }
    match procedure? with
    | none => taken
    | some s =>
      if s.endLabel = endLabel then taken
      else .error (.exitMismatch s.name s.endLabel endLabel) c

/-- Closes the open procedure.  The label at its end is defined here, for all the returns before. -/
def exit (procedure? : Option Decl) : Compile Unit := do
  let endLabel ← takeExitLabel procedure?
  Assembler.exit endLabel

/-- Leaves the open procedure; its result, if any, is on the stack.  This is a jump to the end of
the procedure, where its frame is dropped. -/
def returnFrom : Compile Unit := do
  match (← get).exitLabel? with
  | none => throw .returnOutside
  | some endLabel => Assembler.jump endLabel

/-! ### Calls -/

/-- The static address of the text that ends a line, which is stored once.  It is stored when a line
is ended for the first time. -/
def newline : Compile Nat := do
  match (← get).newline? with
  | some address => return address
  | none =>
    let address ← Assembler.allocString "\n"
    modify fun c => { c with newline? := some address }
    return address

/-- Compiles a call of a builtin procedure in place.  The arguments are on the stack, as they are
for a call. -/
def callBuiltin : Builtin → Compile Unit
  | .writeint => Assembler.printInteger
  | .writebool => do
    let otherwise ← newLabel
    let done ← newLabel
    Assembler.branchIf false otherwise
    writeText "True"
    jump done
    define otherwise
    writeText "False"
    define done
  | .writeln => do
    let address ← newline
    Assembler.printString address
  | .readint => Assembler.emit .read

/-- The position of the first argument whose type is not that of its parameter, counted from
`index`. -/
def badArgument? (index : Nat) : List Operand → List (Param Ty) → Option Nat
  | x :: xs, p :: ps => if x.type != p.type then some index else badArgument? (index + 1) xs ps
  | _, _ => none

/-- Calls a procedure whose arguments are on the stack.  Gives its result, if it has one.  The
number of the arguments is checked before their types, and both before any code. -/
def callProcedure (s : Decl) (args : List Operand) (span : Span) : Checked (Option Operand) := do
  match s.type with
  | .procedure _ result params builtin? =>
    if args.length < params.length then reject (.tooFewArguments s.name) span
    else if params.length < args.length then reject (.tooManyArguments s.name) span
    else match badArgument? 1 args params with
      | some index => reject (.badArgument index s.name) span
      | none =>
        match builtin? with
        | some b => callBuiltin b
        | none => Assembler.call s.label
        return if result.isVoid then none else some (.ofType result)
  | type => throwThe Misuse (.notAProcedure s.name type.name)

/-- Calls a procedure in an expression; it must have a result.  The check of the result comes first,
before those of the arguments. -/
def callFunction (s : Decl) (args : List Operand) (span : Span) : Checked Operand := do
  match s.type with
  | .procedure _ .void _ _ => reject (.notAFunction s.name) span
  | _ =>
    match ← callProcedure s args span with
    | some x => return x
    | none => reject (.notAFunction s.name) span

end Compiler
end MJ
