import MJ.Compiler.Basic

/-!
# The operand in hand

Some constructs change an operand that their caller goes on with: what is selected takes the place
of the array or record that it is selected from, and an object that is pushed is on the stack from
then on.  The caller lends the operand, and has it back as the construct left it, whether the
construct was compiled or found wrong.

## Main definitions

* `Desk`, `Handling` — a compilation with the operand in hand, and actions on both.
* `Handling.ofChecked` — actions that leave the operand in hand alone.
* `Handling.loadInHand`, `Handling.changeInHand` — the two ways to change it.
* `Compiler.lend` — an action on an operand, for a caller that goes on if nothing is wrong.

## References

The MJ specification, §3 *Data Model*, under *Attrib*: the operand in hand is one that the Code
Generator of §4.5 is given to change.  What holds of it after an error is from §7 *Error Handling
Design*.
-/

namespace MJ

/-- What a construct may change: the compilation, and the operand that the caller has in hand.  Both
are kept together, so that what was done before an error is seen in both. -/
structure Desk where
  /-- The compilation. -/
  compiler : Compiler
  /-- The operand in hand. -/
  inHand : Operand

/-- An action on the operand in hand that may find the program wrong.  It keeps what it has changed
by then: nothing is put back. -/
abbrev Handling := ExceptT Diagnostic (EStateM Misuse Desk)

namespace Handling

/-- An action of the compiler, which does not see the operand in hand.  The desk is taken apart, so
that the compilation changes in place. -/
def ofChecked {α : Type} (action : Checked α) : Handling α := fun ⟨compiler, inHand⟩ =>
  match action compiler with
  | .ok r compiler => .ok r ⟨compiler, inHand⟩
  | .error misuse compiler => .error misuse ⟨compiler, inHand⟩

instance : MonadLift Checked Handling := ⟨ofChecked⟩

/-- Finds the program wrong.  The operand in hand stays as it was left. -/
def reject {α : Type} (defect : Defect) (span : Span) : Handling α := throw ⟨defect, span⟩

/-- The operand in hand.  An action that looks at it twice may see two different operands. -/
def inHand : Handling Operand := return (← getThe Desk).inHand

/-- Changes the operand in hand.  The compilation is not touched. -/
def changeInHand (f : Operand → Operand) : Handling Unit :=
  modifyThe Desk fun desk => { desk with inHand := f desk.inHand }

/-- Pushes the address of the object in hand, unless it is on the stack already.  From then on the
operand in hand is the one on the stack. -/
def loadInHand : Handling Unit := do
  let x ← Compiler.loadAddress (← inHand)
  changeInHand fun _ => x

end Handling

/-- Lends an operand to an action.  Gives the operand as it is then, and the result. -/
def Compiler.lend {α : Type} (x : Operand) (action : Handling α) : Checked (Operand × α) := fun c =>
  match action ⟨c, x⟩ with
  | .ok (.ok v) desk => .ok (.ok (desk.inHand, v)) desk.compiler
  | .ok (.error d) desk => .ok (.error d) desk.compiler
  | .error misuse desk => .error misuse desk.compiler

end MJ
