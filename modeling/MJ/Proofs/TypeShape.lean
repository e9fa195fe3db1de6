import MJ.Language.Ty

/-!
# Shapes of types

Two types count as equal if they have the same shape: names of procedures and of parameters do not
matter, and of a record only the name and the number of fields do.  The comparison recurses through
both types at once, so that symmetry and transitivity are awkward to see from it; as equality of
shapes it is an equivalence for free, and whatever is decided by the shape of a type is the same for
equal types.

## Main definitions

* `Shape`, `Ty.shape` — what the equality of types looks at.
* `Shape.depth`, `Ty.depth` — how many dimensions an array has in all.

## Main results

* `Ty.same_iff_shape`, `Ty.beq_iff_shape` — types are equal if their shapes are.
* `Ty.beq_equivalence` — equality of types is an equivalence.
* `Ty.kinds_of_beq`, `Ty.element_of_beq`, `Ty.depth_of_beq` — what equal types have in common.
-/

namespace MJ

/-- What the equality of types looks at.  Of the fields of a record only the number is kept, since
no more of them is compared. -/
inductive Shape where
  /-- Numbers. -/
  | int
  /-- Truth values. -/
  | bool
  /-- No value. -/
  | void
  /-- Arrays with `inner + 1` dimensions. -/
  | array (inner : Nat) (base : Shape)
  /-- Records with a name and a number of fields. -/
  | record (name : String) (fields : Nat)
  /-- Procedures. -/
  | procedure (result : Shape) (params : List Shape)

/-- How many dimensions arrays of a shape have, those of their elements included.  An element has
fewer, which bounds how deep a path of indices can be. -/
def Shape.depth : Shape → Nat
  | array inner base => inner + 1 + base.depth
  | _ => 0

namespace Ty

mutual

/-- The shape of a type. -/
def shape : Ty → Shape
  | int => .int
  | bool => .bool
  | void => .void
  | array inner base => .array inner base.shape
  | record name fields => .record name fields.length
  | procedure _ result params _ => .procedure result.shape (shapes params)

/-- The shapes of parameters. -/
def shapes : List (Param Ty) → List Shape
  | [] => []
  | ⟨_, type⟩ :: params => type.shape :: shapes params

end

/-- How many dimensions an array type has, those of its base type included. -/
def depth (t : Ty) : Nat := t.shape.depth

/-! ### Equality of shapes -/

mutual

theorem same_iff_shape (s t : Ty) : same s t = true ↔ s.shape = t.shape := by
  cases s with
  | array m b =>
    cases t with
    | array n c => simp [same, shape, same_iff_shape b c]
    | _ => simp [same, shape]
  | record a fs =>
    cases t with
    | record b gs => simp [same, shape]
    | _ => simp [same, shape]
  | procedure f r ps b =>
    cases t with
    | procedure g r' qs b' => simp [same, shape, same_iff_shape r r', sameParams_iff_shapes ps qs]
    | _ => simp [same, shape]
  | _ => cases t <;> simp [same, shape]

theorem sameParams_iff_shapes (ps qs : List (Param Ty)) :
    sameParams ps qs = true ↔ shapes ps = shapes qs := by
  cases ps with
  | nil => cases qs <;> simp [sameParams, shapes]
  | cons p ps =>
    cases qs with
    | nil => simp [sameParams, shapes]
    | cons q qs =>
      obtain ⟨_, s⟩ := p
      obtain ⟨_, t⟩ := q
      simp [sameParams, shapes, same_iff_shape s t, sameParams_iff_shapes ps qs]

end

variable {s t : Ty}

theorem beq_iff_shape : (s == t) = true ↔ s.shape = t.shape := same_iff_shape s t

/-- Equality of types is an equivalence, since it is equality of something. -/
theorem beq_equivalence : Equivalence fun s t : Ty => (s == t) = true where
  refl _ := beq_iff_shape.mpr rfl
  symm h := beq_iff_shape.mpr (beq_iff_shape.mp h).symm
  trans h h' := beq_iff_shape.mpr ((beq_iff_shape.mp h).trans (beq_iff_shape.mp h'))

/-- Whether two types are equal does not change when both are replaced by equal ones. -/
theorem beq_congr {s' t' : Ty} (hs : (s == s') = true) (ht : (t == t') = true) :
    (s == t) = (s' == t') := by
  rw [Bool.eq_iff_iff, beq_iff_shape, beq_iff_shape, beq_iff_shape.mp hs, beq_iff_shape.mp ht]

/-- Equal types are of the same kind, since this can be told from the shape. -/
theorem kinds_of_beq (h : (s == t) = true) :
    s.isInt = t.isInt ∧ s.isBool = t.isBool ∧ s.isVoid = t.isVoid ∧ s.isArray = t.isArray ∧
      s.isRecord = t.isRecord ∧ s.isReference = t.isReference := by
  have hshape := beq_iff_shape.mp h
  cases s <;> cases t <;> simp only [shape, reduceCtorEq] at hshape <;>
    exact ⟨rfl, rfl, rfl, rfl, rfl, rfl⟩

/-- The elements of equal arrays are of equal types.  The element of an array with one dimension is
of the base type, and otherwise it is an array. -/
theorem element_of_beq {m n : Nat} (h : (array m s == array n t) = true) :
    (element m s == element n t) = true := by
  obtain ⟨rfl, hbase⟩ : m = n ∧ s.shape = t.shape := by
    simpa only [beq_iff_shape, shape, Shape.array.injEq] using h
  rw [beq_iff_shape]
  cases m with
  | zero => exact hbase
  | succ inner => rw [element, element, shape, shape, hbase]

/-- Equal types have as many dimensions. -/
theorem depth_of_beq (h : (s == t) = true) : s.depth = t.depth :=
  congrArg Shape.depth (beq_iff_shape.mp h)

end Ty
end MJ
