import Mathlib.Data.List.Forall2
import MJ.Proofs.Rejection
import MJ.Proofs.TypeShape

/-!
# Equality of types in assignments and calls

An assignment compares the type of its target with that of the value, and a call compares the types
of parameters with those of arguments.  Neither looks at more of a type than its shape.  So an
operand whose type is replaced by an equal one is compiled to the same code or rejected for the same
reason.

## Main definitions

* `Operand.Retyped` — an operand whose type was replaced by an equal one.
* `Compiler.argumentDefect?` — why the arguments of a call are rejected.

## Main results

* `Compiler.assign_retyped`, `Compiler.callProcedure_retyped` — an assignment and a call are
  compiled alike when types of operands are replaced by equal ones.
* `Compiler.callProcedure_rejects_iff` — why a call is rejected.
* `Ty.equality_respected` — **equality of types is an equivalence that the compiler respects.**
-/

namespace MJ

namespace Ty

variable {t : Ty}

/-! ### Equality of procedures -/

/-- Parameters of the same shapes have equal types, one by one.  By induction on both lists, whose
lengths are equal because the shapes are. -/
theorem forall₂_of_shapes {ps qs : List (Param Ty)} (h : shapes ps = shapes qs) :
    List.Forall₂ (fun p q => (p.type == q.type) = true) ps qs := by
  induction ps generalizing qs with
  | nil =>
    cases qs with
    | nil => exact .nil
    | cons q qs => simp [shapes] at h
  | cons p ps ih =>
    cases qs with
    | nil => simp [shapes] at h
    | cons q qs =>
      obtain ⟨hfirst, hrest⟩ : p.type.shape = q.type.shape ∧ shapes ps = shapes qs := by
        simpa only [shapes, List.cons.injEq] using h
      exact .cons (beq_iff_shape.mpr hfirst) (ih hrest)

/-- Equal procedures have equal results and equal parameters. -/
theorem signature_of_beq {f g : String} {r r' : Ty} {ps qs : List (Param Ty)}
    {b b' : Option Builtin} (h : (procedure f r ps b == procedure g r' qs b') = true) :
    (r == r') = true ∧ List.Forall₂ (fun p q => (p.type == q.type) = true) ps qs := by
  obtain ⟨hresult, hparams⟩ : r.shape = r'.shape ∧ shapes ps = shapes qs := by
    simpa only [beq_iff_shape, shape, Shape.procedure.injEq] using h
  exact ⟨beq_iff_shape.mpr hresult, forall₂_of_shapes hparams⟩

/-- What is equal to a procedure is one, but it may have another name and be built in. -/
theorem exists_procedure_of_beq {f : String} {r : Ty} {ps : List (Param Ty)} {b : Option Builtin}
    (h : (procedure f r ps b == t) = true) : ∃ g r' qs b', t = procedure g r' qs b' := by
  have hshape := beq_iff_shape.mp h
  cases t with
  | procedure g r' qs b' => exact ⟨g, r', qs, b', rfl⟩
  | _ => simp [shape] at hshape

end Ty

/-! ### Verdicts -/

/-- What is accepted is not rejected. -/
theorem Checked.Accepts.not_rejects {α : Type} {x : Checked α} (h : x.Accepts) (d : Diagnostic) :
    ¬ x.Rejects d := by
  intro hrejects
  obtain ⟨v, hv⟩ := h trivial (hrejects .empty trivial)
  cases hv

/-- What is settled is accepted if it is not rejected.  The verdict does not depend on the program
so far, and so there is nothing in between. -/
theorem Checked.Settled.accepts_iff {α : Type} {x : Checked α} (h : x.Settled) :
    x.Accepts ↔ ∀ d, ¬ x.Rejects d := by
  refine ⟨Checked.Accepts.not_rejects, fun hnone => ?_⟩
  rcases h with ⟨d, hrejects⟩ | haccepts
  · exact absurd hrejects (hnone d)
  · exact haccepts

/-! ### Replacing the types of operands -/

/-- The same operand, but for its type, which is replaced by an equal one. -/
def Operand.Retyped (x y : Operand) : Prop :=
  ∃ t, (x.type == t) = true ∧ y = { x with type := t }

theorem Operand.Retyped.type {x y : Operand} (h : x.Retyped y) : (x.type == y.type) = true := by
  obtain ⟨t, ht, rfl⟩ := h
  exact ht

namespace Compiler

/-- An assignment looks at types only to compare them, and gives no operand back.  So the two are
equal as actions. -/
theorem assign_retyped {target target' x x' : Operand} (htarget : target.Retyped target')
    (hx : x.Retyped x') (span : Span) : assign target x span = assign target' x' span := by
  obtain ⟨t, ht, rfl⟩ := htarget
  obtain ⟨u, hu, rfl⟩ := hx
  have hcheck : (target.type != x.type) = (t != u) := congrArg not (Ty.beq_congr ht hu)
  rw [assign, hcheck]
  rfl

/-- Arguments are compared with parameters one by one, and only for equality.  By induction on the
arguments. -/
theorem badArgument?_congr {args args' : List Operand} {ps qs : List (Param Ty)}
    (hargs : List.Forall₂ Operand.Retyped args args')
    (hps : List.Forall₂ (fun p q => (p.type == q.type) = true) ps qs) (index : Nat) :
    badArgument? index args ps = badArgument? index args' qs := by
  induction hargs generalizing ps qs index with
  | nil => rfl
  | @cons x y args args' hx _ ih =>
    cases hps with
    | nil => rfl
    | @cons p q ps qs hp hrest =>
      have hcheck : (x.type != p.type) = (y.type != q.type) :=
        congrArg not (Ty.beq_congr hx.type hp)
      rw [badArgument?, badArgument?, hcheck, ih hrest]

/-- Why the arguments of a call are rejected, if they are.  Their number is looked at before their
types, and of those the first that is wrong is named. -/
def argumentDefect? (name : String) (args : List Operand) (params : List (Param Ty)) :
    Option Defect :=
  if args.length < params.length then some (.tooFewArguments name)
  else if params.length < args.length then some (.tooManyArguments name)
  else (badArgument? 1 args params).map (.badArgument · name)

theorem argumentDefect?_congr (name : String) {args args' : List Operand} {ps qs : List (Param Ty)}
    (hargs : List.Forall₂ Operand.Retyped args args')
    (hps : List.Forall₂ (fun p q => (p.type == q.type) = true) ps qs) :
    argumentDefect? name args ps = argumentDefect? name args' qs := by
  rw [argumentDefect?, argumentDefect?, hargs.length_eq, hps.length_eq,
    badArgument?_congr hargs hps]

/-- The same arguments with equal types are compiled to the same call.  They have been pushed
before, and the call does nothing with them but compare. -/
theorem callProcedure_retyped (f : Decl) {args args' : List Operand}
    (hargs : List.Forall₂ Operand.Retyped args args') (span : Span) :
    callProcedure f args span = callProcedure f args' span := by
  have hself (ps : List (Param Ty)) :
      List.Forall₂ (fun p q => (p.type == q.type) = true) ps ps :=
    List.forall₂_same.mpr fun p _ => Ty.beq_equivalence.refl p.type
  unfold callProcedure
  split
  · rw [hargs.length_eq, badArgument?_congr hargs (hself _)]
  · rfl

/-! ### The verdict on a call -/

variable {f : Decl} {name : String} {result : Ty} {params : List (Param Ty)}
  {builtin? : Option Builtin} {args args' : List Operand} {span : Span} {d : Diagnostic}

/-- A call whose arguments are wrong is rejected, before any code is written. -/
theorem callProcedure_of_defect (htype : f.type = .procedure name result params builtin?)
    {defect : Defect} (h : argumentDefect? f.name args params = some defect) :
    callProcedure f args span = reject defect span := by
  unfold argumentDefect? at h
  rw [callProcedure, htype]
  dsimp only
  split at h
  · rename_i hfew
    cases h
    rw [if_pos hfew]
  · rename_i hfew
    rw [if_neg hfew]
    split at h
    · rename_i hmany
      cases h
      rw [if_pos hmany]
    · rename_i hmany
      obtain ⟨index, hindex, rfl⟩ := Option.map_eq_some_iff.mp h
      rw [if_neg hmany, hindex]

/-- A call whose arguments are right is accepted.  What is left to do is to write code, which finds
nothing wrong. -/
theorem accepts_callProcedure (htype : f.type = .procedure name result params builtin?)
    (h : argumentDefect? f.name args params = none) : (callProcedure f args span).Accepts := by
  unfold argumentDefect? at h
  rw [callProcedure, htype]
  dsimp only
  split at h
  · cases h
  · rename_i hfew
    rw [if_neg hfew]
    split at h
    · cases h
    · rename_i hmany
      rw [if_neg hmany, Option.map_eq_none_iff.mp h]
      cases builtin? with
      | some b => exact .after_lift _ fun _ => .pure _
      | none => exact .after_assemble _ fun _ => .pure _

/-- Why a call is rejected: for nothing but its arguments.  The report is at the place of the call.
-/
theorem callProcedure_rejects_iff (htype : f.type = .procedure name result params builtin?) :
    (callProcedure f args span).Rejects d ↔
      ∃ defect, argumentDefect? f.name args params = some defect ∧ d = ⟨defect, span⟩ := by
  cases hdefect : argumentDefect? f.name args params with
  | none =>
    refine ⟨fun h => absurd h ((accepts_callProcedure htype hdefect).not_rejects d), ?_⟩
    rintro ⟨defect, hnone, -⟩
    cases hnone
  | some defect =>
    rw [callProcedure_of_defect htype hdefect]
    constructor
    · intro h
      obtain ⟨hd, -⟩ := EStateM.Result.ok.inj (h .empty trivial)
      exact ⟨defect, rfl, (Except.error.inj hd).symm⟩
    · rintro ⟨_, hsome, rfl⟩ c _
      cases hsome
      rfl

/-- Only calls of procedures are rejected.  To call anything else is a misuse. -/
theorem exists_procedure_of_rejects (h : (callProcedure f args span).Rejects d) :
    ∃ name result params builtin?, f.type = .procedure name result params builtin? := by
  unfold callProcedure at h
  split at h
  · rename_i name result params builtin? htype
    exact ⟨name, result, params, builtin?, htype⟩
  · cases h .empty trivial

/-- A call is rejected for the same reason when the types of the procedure and of the arguments are
replaced by equal ones. -/
theorem callProcedure_rejects_congr {t : Ty} (ht : (f.type == t) = true)
    (hargs : List.Forall₂ Operand.Retyped args args') :
    (callProcedure f args span).Rejects d ↔
      (callProcedure { f with type := t } args' span).Rejects d := by
  by_cases hprocedure : ∃ name result params builtin?,
      f.type = .procedure name result params builtin?
  · obtain ⟨name, result, params, builtin?, htype⟩ := hprocedure
    rw [htype] at ht
    obtain ⟨name', result', params', builtin', rfl⟩ := Ty.exists_procedure_of_beq ht
    obtain ⟨-, hparams⟩ := Ty.signature_of_beq ht
    rw [callProcedure_rejects_iff htype, callProcedure_rejects_iff rfl,
      argumentDefect?_congr f.name hargs hparams]
  · constructor
    · intro h
      exact absurd (exists_procedure_of_rejects h) hprocedure
    · intro h
      obtain ⟨_, _, _, _, rfl⟩ := exists_procedure_of_rejects h
      exact absurd (Ty.exists_procedure_of_beq (Ty.beq_equivalence.symm ht)) hprocedure

theorem callProcedure_accepts_congr {t : Ty} (ht : (f.type == t) = true)
    (hargs : List.Forall₂ Operand.Retyped args args') :
    (callProcedure f args span).Accepts ↔
      (callProcedure { f with type := t } args' span).Accepts := by
  rw [(settled_callProcedure _ _ _).accepts_iff, (settled_callProcedure _ _ _).accepts_iff]
  exact forall_congr' fun d => not_congr (callProcedure_rejects_congr ht hargs)

end Compiler

namespace Ty

open Compiler (assign callProcedure)

/-- **Equality of types is an equivalence that the compiler respects.**  Equal types are of the same
kind, equal arrays have equal elements, and equal procedures have as many parameters, of equal
types, and both a result or none.  When types of operands are replaced by equal ones, an assignment
or a call stays what it is; and when the type of the procedure is replaced too, the call is still
rejected for the same reason, or accepted. -/
theorem equality_respected :
    Equivalence (fun s t : Ty => (s == t) = true) ∧
    (∀ s t : Ty, (s == t) = true →
      s.isInt = t.isInt ∧ s.isBool = t.isBool ∧ s.isVoid = t.isVoid ∧ s.isArray = t.isArray ∧
        s.isRecord = t.isRecord ∧ s.isReference = t.isReference) ∧
    (∀ m n s t, (array m s == array n t) = true → (element m s == element n t) = true) ∧
    (∀ f g r r' ps qs b b', (procedure f r ps b == procedure g r' qs b') = true →
      ps.length = qs.length ∧ List.Forall₂ (fun p q => (p.type == q.type) = true) ps qs ∧
        r.isVoid = r'.isVoid) ∧
    (∀ target target' x x' span, Operand.Retyped target target' → Operand.Retyped x x' →
      assign target x span = assign target' x' span) ∧
    (∀ f args args' span, List.Forall₂ Operand.Retyped args args' →
      callProcedure f args span = callProcedure f args' span) ∧
    ∀ (f : Decl) t args args' span, (f.type == t) = true →
      List.Forall₂ Operand.Retyped args args' →
        (∀ d, (callProcedure f args span).Rejects d ↔
          (callProcedure { f with type := t } args' span).Rejects d) ∧
        ((callProcedure f args span).Accepts ↔
          (callProcedure { f with type := t } args' span).Accepts) := by
  refine ⟨beq_equivalence, fun s t => kinds_of_beq, fun m n s t => element_of_beq, ?_, ?_, ?_, ?_⟩
  · intro f g r r' ps qs b b' h
    obtain ⟨hresult, hparams⟩ := signature_of_beq h
    obtain ⟨-, -, hvoid, -⟩ := kinds_of_beq hresult
    exact ⟨hparams.length_eq, hparams, hvoid⟩
  · intro target target' x x' span htarget hx
    exact Compiler.assign_retyped htarget hx span
  · intro f args args' span hargs
    exact Compiler.callProcedure_retyped f hargs span
  · intro f t args args' span ht hargs
    exact ⟨fun d => Compiler.callProcedure_rejects_congr ht hargs,
      Compiler.callProcedure_accepts_congr ht hargs⟩

/-- Points as they are declared. -/
def point : Ty := record "point" [⟨"x", int, none⟩, ⟨"y", int, none⟩]

/-- Points with other fields, which count as the same. -/
def namesake : Ty := record "point" [⟨"name", array 0 bool, some 0⟩, ⟨"next", point, some 1⟩]

/-- A procedure that takes rows of points and a number. -/
def plot : Ty := procedure "plot" int [⟨"rows", array 1 point⟩, ⟨"scale", int⟩] none

/-- A procedure of the same signature that is compiled in place. -/
def look : Ty := procedure "look" int [⟨"grid", array 1 namesake⟩, ⟨"unit", int⟩] (some .readint)

/-- Rows of points and of their namesakes are equal, and so are the two procedures.  With the one
type in place of the other, an assignment is the same, and so is a call with a missing argument. -/
theorem equality_respected_points :
    (array 1 point == array 1 namesake) = true ∧
      (element 1 point == element 1 namesake) = true ∧
      (array 1 point).isReference = (array 1 namesake).isReference ∧
    (plot == look) = true ∧
      List.Forall₂ (fun p q : Param Ty => (p.type == q.type) = true)
        [⟨"rows", array 1 point⟩, ⟨"scale", int⟩] [⟨"grid", array 1 namesake⟩, ⟨"unit", int⟩] ∧
    (∀ span, assign (.ofType (array 1 point)) (.ofType (array 1 point)) span
      = assign (.ofType (array 1 namesake)) (.ofType (array 1 point)) span) ∧
    ∀ span d,
      (callProcedure (.ofKind "p" .procedure plot 1) [.ofType (array 1 point)] span).Rejects d ↔
        (callProcedure (.ofKind "p" .procedure look 1) [.ofType (array 1 namesake)] span).Rejects
          d := by
  have hrows : (array 1 point == array 1 namesake) = true := by decide
  have hplot : (plot == look) = true := by decide
  have hretyped : Operand.Retyped (.ofType (array 1 point)) (.ofType (array 1 namesake)) :=
    ⟨_, hrows, rfl⟩
  have hsame : Operand.Retyped (.ofType (array 1 point)) (.ofType (array 1 point)) :=
    ⟨_, by decide, rfl⟩
  obtain ⟨-, hkinds, helements, hsignatures, hassign, -, hcall⟩ := equality_respected
  obtain ⟨-, -, -, -, -, hreference⟩ := hkinds _ _ hrows
  obtain ⟨-, hparams, -⟩ := hsignatures _ _ _ _ _ _ _ _ hplot
  refine ⟨hrows, helements _ _ _ _ hrows, hreference, hplot, hparams, ?_, ?_⟩
  · exact fun span => hassign _ _ _ _ span hretyped hsame
  · exact fun span d => (hcall (.ofKind "p" .procedure plot 1) look _ _ span hplot
      (.cons hretyped .nil)).1 d

end Ty
end MJ
