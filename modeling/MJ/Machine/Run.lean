import MJ.Machine.Step

/-!
# Running a program

## Main definitions

* `Machine.Outcome` — how a run ended and the state it left.
* `Machine.runFor` — a run of at most a given number of steps.
* `Machine.run` — a run of an image from its start address.

## References

The MJ specification, §E6 *Supplemented features*, under *Stack machine*, and §E4 *Configuration*
for the limit on steps.
-/

namespace MJ
namespace Machine

/-- How a run ended.  A run that was cut off is told apart from one that ended by itself. -/
inductive Ending where
  /-- The outermost procedure returned. -/
  | returned
  /-- The instruction at `pc` stopped the run. -/
  | stopped (pc : Nat) (cause : Stop)
  /-- The steps to be made were used up. -/
  | unfinished
  deriving DecidableEq, Repr

/-- How a run ended and the state it left.  The state is kept also after a fault, since what was
printed before counts. -/
structure Outcome where
  /-- How the run ended. -/
  ending : Ending
  /-- The state it left. -/
  state : State
  deriving DecidableEq, Repr

/-- Makes at most `n` steps.  This is the loop of the machine, bounded so that it is a function. -/
def runFor (limits : Limits) (code : Array UInt8) : (n : Nat) → State → Outcome
  | 0, s => ⟨.unfinished, s⟩
  | n + 1, s =>
    let pc := s.pc
    match step limits code s with
    | .ok true s => runFor limits code n s
    | .ok false s => ⟨.returned, s⟩
    | .error cause s => ⟨.stopped pc cause, s⟩

/-- How many steps a run can start: the step that exceeds the limit is the last.  Without a limit
the run ends when a counter of 64 bits does. -/
def stepBound (limits : Limits) : Nat :=
  match limits.maxSteps with
  | some max => max + 1
  | none => UInt64.size

/-- Runs an image from its start address.  Every run ends, because its steps are counted. -/
def run (limits : Limits) (image : Image) (input : List UInt8) : Outcome :=
  runFor limits image.code.toArray (stepBound limits) (.load image input)

/-- The failure that ended a run, if a fault did. -/
def Outcome.failure? (o : Outcome) : Option Failure :=
  match o.ending with
  | .stopped pc (.fault cause) => some ⟨cause, pc, o.state.returns.toList⟩
  | _ => none

end Machine
end MJ
