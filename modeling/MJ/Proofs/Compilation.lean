import MJ.Demo
import MJ.Proofs.Session

/-!
# Actions of the compiler

The compiler works on the program under construction through the actions of the assembler.  These
are the lemmas that take its actions apart.

## Main definitions

* `Compiler.withAssembler` — a compilation with another program under construction.

## Main results

* `Checked.bind_of_ok` — sequences of actions that may find the program wrong.
* `Checked.assemble_eq_ok` — an action of the assembler as an action of the compiler.
* `Compiler.loadValue_of_ok` — pushing the value of an operand.
* `Compiler.lend_bind` — an operand that is lent to two actions in a row.
* `Compiler.selectElement_of_array`, `Compiler.selectField_of_field`, `Compiler.arrayLength_eq` —
  what becomes of an array or record that is lent.
-/

namespace MJ

namespace Compiler

/-- The compilation with another program under construction.  Most actions of the compiler change
nothing else. -/
def withAssembler (c : Compiler) (a : Assembler) : Compiler := { c with assembler := a }

@[simp] theorem assembler_withAssembler (c : Compiler) (a : Assembler) :
    (c.withAssembler a).assembler = a := rfl

@[simp] theorem withAssembler_withAssembler (c : Compiler) (a b : Assembler) :
    (c.withAssembler a).withAssembler b = c.withAssembler b := rfl

/-- An action of the assembler changes the program under construction only. -/
theorem assemble_of_ok {α : Type} {action : Asm α} {c : Compiler} {v : α} {a : Assembler}
    (h : action c.assembler = .ok v a) :
    (liftM action : Compile α) c = .ok v (c.withAssembler a) := by
  show assemble action c = _
  rw [assemble, h]
  rfl

theorem assemble_eq_ok {α : Type} {action : Asm α} {c c' : Compiler} {v : α} :
    (liftM action : Compile α) c = .ok v c' ↔
      ∃ a, action c.assembler = .ok v a ∧ c' = c.withAssembler a := by
  constructor
  · intro h
    change assemble action c = _ at h
    rw [assemble] at h
    cases haction : action c.assembler with
    | error misuse a =>
      rw [haction] at h
      cases h
    | ok w a =>
      rw [haction] at h
      obtain ⟨rfl, rfl⟩ := EStateM.Result.ok.inj h
      exact ⟨a, rfl, rfl⟩
  · rintro ⟨a, haction, rfl⟩
    exact assemble_of_ok haction

/-- Two actions of the assembler in a row are two actions of the compiler in a row. -/
theorem assemble_bind {α β : Type} (x : Asm α) (f : α → Asm β) :
    (liftM (x >>= f) : Compile β) = liftM x >>= fun v => liftM (f v) := by
  funext c
  show assemble (EStateM.bind x f) c = EStateM.bind (assemble x) (fun v => assemble (f v)) c
  rw [assemble, EStateM.bind, EStateM.bind, assemble]
  cases x c.assembler with
  | ok v a => rfl
  | error misuse a => rfl

end Compiler

namespace Checked

section Sequences

variable {σ α β : Type} {s s' s'' : σ} {v : α} {x : ExceptT Diagnostic (EStateM Misuse σ) α}
  {f : α → ExceptT Diagnostic (EStateM Misuse σ) β}

/-- After an action that succeeds the next one goes on, in the state that it has left. -/
theorem bind_of_ok (h : x.run s = .ok (.ok v) s') : (x >>= f).run s = (f v).run s' :=
  Action.bind_of_ok h

/-- The first part of a sequence that ends without misuse ends so; it may have found a defect, and
then there is no second part. -/
theorem exists_ok_of_bind {r : Except Diagnostic β} (h : (x >>= f).run s = .ok r s'') :
    ∃ r' s', x.run s = .ok r' s' := by
  obtain ⟨r', s', hx, -⟩ := Action.bind_eq_ok.mp h
  exact ⟨r', s', hx⟩

/-- A sequence that finds nothing wrong consists of two actions that find nothing wrong. -/
theorem bind_eq_ok {w : β} (h : (x >>= f).run s = .ok (.ok w) s'') :
    ∃ v s', x.run s = .ok (.ok v) s' ∧ (f v).run s' = .ok (.ok w) s'' := by
  obtain ⟨r, s', hrun⟩ := exists_ok_of_bind h
  cases r with
  | ok v =>
    rw [bind_of_ok hrun] at h
    exact ⟨v, s', hrun, h⟩
  | error d => cases h.symm.trans (Action.bind_of_ok hrun)

end Sequences

variable {α β : Type} {c c' : Compiler} {v : α}

theorem lift_of_ok {x : Compile α} (h : x c = .ok v c') :
    (liftM x : Checked α).run c = .ok (.ok v) c' := by
  show EStateM.map Except.ok x c = _
  rw [EStateM.map, h]

theorem lift_eq_ok {x : Compile α} {r : Except Diagnostic α} :
    (liftM x : Checked α).run c = .ok r c' ↔ ∃ v, x c = .ok v c' ∧ r = .ok v := by
  constructor
  · intro h
    change EStateM.map Except.ok x c = _ at h
    rw [EStateM.map] at h
    cases hx : x c with
    | error misuse c₁ =>
      rw [hx] at h
      cases h
    | ok w c₁ =>
      rw [hx] at h
      obtain ⟨rfl, rfl⟩ := EStateM.Result.ok.inj h
      exact ⟨w, rfl, rfl⟩
  · rintro ⟨v, hx, rfl⟩
    exact lift_of_ok hx

theorem assemble_of_ok {action : Asm α} {a : Assembler} (h : action c.assembler = .ok v a) :
    (liftM action : Checked α).run c = .ok (.ok v) (c.withAssembler a) :=
  lift_of_ok (x := liftM action) (Compiler.assemble_of_ok h)

theorem assemble_eq_ok {action : Asm α} {r : Except Diagnostic α} :
    (liftM action : Checked α).run c = .ok r c' ↔
      ∃ v a, action c.assembler = .ok v a ∧ c' = c.withAssembler a ∧ r = .ok v := by
  refine (lift_eq_ok (x := (liftM action : Compile α))).trans ?_
  constructor
  · rintro ⟨v, h, rfl⟩
    obtain ⟨a, haction, rfl⟩ := Compiler.assemble_eq_ok.mp h
    exact ⟨v, a, haction, rfl, rfl⟩
  · rintro ⟨v, a, haction, rfl, rfl⟩
    exact ⟨v, Compiler.assemble_of_ok haction, rfl⟩

end Checked

/-! ### Pushing operands -/

namespace Operand

/-- The operand as it is when its value is on the stack.  An array or record is there as an address,
and all else as a value. -/
def loaded (x : Operand) : Operand :=
  if x.isOnStack then x else { x with place := stackPlace x.type }

@[simp] theorem type_loaded (x : Operand) : x.loaded.type = x.type := by
  rw [loaded]
  split <;> rfl

@[simp] theorem isReadonly_loaded (x : Operand) : x.loaded.isReadonly = x.isReadonly := by
  rw [loaded]
  split <;> rfl

@[simp] theorem isOnStack_loaded (x : Operand) : x.loaded.isOnStack = true := by
  rw [loaded]
  split
  · assumption
  · unfold isOnStack stackPlace
    cases x.type.isReference <;> rfl

end Operand

namespace Compiler

/-- Nothing is pushed for an operand that is on the stack. -/
theorem pushFrom_of_isOnStack {x : Operand} (h : x.isOnStack = true) (a : Assembler) :
    pushFrom x a = .ok () a := by
  rw [Operand.isOnStack] at h
  split at h
  · rename_i hplace
    rw [pushFrom, hplace]
    rfl
  · rename_i hplace
    rw [pushFrom, hplace]
    rfl
  · cases h

theorem loadValue_of_ok {x : Operand} {c : Compiler} {a : Assembler}
    (h : pushFrom x c.assembler = .ok () a) :
    loadValue x c = .ok x.loaded (c.withAssembler a) := by
  cases hstack : x.isOnStack with
  | true =>
    rw [pushFrom_of_isOnStack hstack] at h
    obtain ⟨-, rfl⟩ := EStateM.Result.ok.inj h
    rw [loadValue, hstack, Operand.loaded, hstack]
    rfl
  | false =>
    rw [loadValue, hstack, Operand.loaded, hstack]
    exact Action.bind_of_ok (assemble_of_ok h)

theorem pushFrom_of_loadValue {x y : Operand} {c c' : Compiler} (h : loadValue x c = .ok y c') :
    ∃ a, pushFrom x c.assembler = .ok () a := by
  cases hstack : x.isOnStack with
  | true => exact ⟨_, pushFrom_of_isOnStack hstack _⟩
  | false =>
    rw [loadValue, hstack] at h
    obtain ⟨_, c₁, hpush, -⟩ := Action.bind_eq_ok.mp h
    obtain ⟨a, hpush, -⟩ := assemble_eq_ok.mp hpush
    exact ⟨a, hpush⟩

end Compiler

/-! ### The operand in hand -/

/-- An action of the compiler leaves the operand in hand alone. -/
theorem Handling.ofChecked_eq_ok {α : Type} {a : Checked α} {desk desk' : Desk}
    {r : Except Diagnostic α} :
    (Handling.ofChecked a).run desk = .ok r desk' ↔
      ∃ c, a.run desk.compiler = .ok r c ∧ desk' = { desk with compiler := c } := by
  simp only [Handling.ofChecked, ExceptT.run]
  cases a desk.compiler with
  | ok r' c =>
    constructor
    · intro h
      obtain ⟨rfl, rfl⟩ := EStateM.Result.ok.inj h
      exact ⟨c, rfl, rfl⟩
    · rintro ⟨c', h, rfl⟩
      obtain ⟨rfl, rfl⟩ := EStateM.Result.ok.inj h
      rfl
  | error misuse c =>
    constructor
    · intro h
      cases h
    · rintro ⟨c', h, -⟩
      cases h

namespace Compiler

section Lend

variable {α β : Type} (x : Operand)

@[simp] theorem lend_pure (v : α) : lend x (pure v) = pure (x, v) := rfl

/-- An operand that is lent to two actions in a row is given back by the first and lent to the
second. -/
theorem lend_bind (a : Handling α) (f : α → Handling β) :
    lend x (a >>= f) = lend x a >>= fun p => lend p.1 (f p.2) := by
  funext c
  have hbind : (a >>= f) ⟨c, x⟩ = EStateM.bind a (ExceptT.bindCont f) ⟨c, x⟩ := rfl
  have hlend : (lend x a >>= fun p => lend p.1 (f p.2)) c
      = EStateM.bind (lend x a) (ExceptT.bindCont fun p => lend p.1 (f p.2)) c := rfl
  rw [hlend, lend, hbind, EStateM.bind, EStateM.bind, lend]
  cases a ⟨c, x⟩ with
  | error misuse desk => rfl
  | ok r desk =>
    cases r with
    | error d => rfl
    | ok v => rfl

@[simp] theorem lend_ofChecked (a : Checked α) :
    lend x (Handling.ofChecked a) = a >>= fun v => pure (x, v) := by
  funext c
  have hbind : (a >>= fun v => pure (x, v)) c
      = EStateM.bind a (ExceptT.bindCont fun v => pure (x, v)) c := rfl
  rw [hbind, EStateM.bind, lend, Handling.ofChecked]
  cases a c with
  | error misuse c => rfl
  | ok r c =>
    cases r with
    | error d => rfl
    | ok v => rfl

@[simp] theorem lend_inHand : lend x Handling.inHand = pure (x, x) := rfl

@[simp] theorem lend_changeInHand (f : Operand → Operand) :
    lend x (Handling.changeInHand f) = pure (f x, ()) := rfl

/-- An action of the compiler that cannot find anything wrong leaves the operand in hand alone. -/
@[simp] theorem lend_lift (a : Compile α) :
    lend x (liftM a) = (liftM a : Checked α) >>= fun v => pure (x, v) :=
  lend_ofChecked x (liftM a)

@[simp] theorem lend_assemble (a : Asm α) :
    lend x (liftM a) = (liftM a : Checked α) >>= fun v => pure (x, v) :=
  lend_ofChecked x (liftM a)

@[simp] theorem lend_loadInHand : lend x Handling.loadInHand = do
    let y ← loadAddress x
    return (y, ()) := by
  simp only [Handling.loadInHand, lend_bind, lend_inHand, pure_bind, lend_lift, bind_assoc,
    lend_changeInHand]

variable {x}

/-- An action on a lent operand that finds nothing wrong.  The caller gets the operand back in the
state in which the action has left it. -/
theorem lend_eq_ok {a : Handling α} {p : Operand × α} {c c' : Compiler} :
    (lend x a).run c = .ok (.ok p) c' ↔ a.run ⟨c, x⟩ = .ok (.ok p.2) ⟨c', p.1⟩ := by
  show lend x a c = _ ↔ a ⟨c, x⟩ = _
  rw [lend]
  cases a ⟨c, x⟩ with
  | error misuse desk => exact ⟨nofun, nofun⟩
  | ok r desk =>
    cases r with
    | error d => exact ⟨nofun, nofun⟩
    | ok v =>
      constructor
      · intro h
        obtain ⟨hp, rfl⟩ := EStateM.Result.ok.inj h
        cases hp
        rfl
      · intro h
        obtain ⟨hv, rfl⟩ := EStateM.Result.ok.inj h
        cases hv
        rfl

/-- An action on a lent operand that finds the program wrong; the caller does not see the operand
then. -/
theorem lend_eq_error {a : Handling α} {d : Diagnostic} {c c' : Compiler} :
    (lend x a).run c = .ok (.error d) c' ↔ ∃ y, a.run ⟨c, x⟩ = .ok (.error d) ⟨c', y⟩ := by
  show lend x a c = _ ↔ ∃ y, a ⟨c, x⟩ = _
  rw [lend]
  cases a ⟨c, x⟩ with
  | error misuse desk => exact ⟨nofun, nofun⟩
  | ok r desk =>
    cases r with
    | ok v => exact ⟨nofun, nofun⟩
    | error d' =>
      constructor
      · intro h
        obtain ⟨hd, rfl⟩ := EStateM.Result.ok.inj h
        cases hd
        exact ⟨desk.inHand, rfl⟩
      · rintro ⟨y, h⟩
        obtain ⟨hd, rfl⟩ := EStateM.Result.ok.inj h
        cases hd
        rfl

/-- An action of the compiler has its result whatever operand is lent. -/
theorem lend_ofChecked_eq_ok {a : Checked α} {p : Operand × α} {c c' : Compiler} :
    (lend x (Handling.ofChecked a)).run c = .ok (.ok p) c' ↔
      a.run c = .ok (.ok p.2) c' ∧ p.1 = x := by
  rw [lend_eq_ok, Handling.ofChecked_eq_ok]
  constructor
  · rintro ⟨c₁, hrun, hdesk⟩
    cases hdesk
    exact ⟨hrun, rfl⟩
  · rintro ⟨hrun, hp⟩
    exact ⟨c', hrun, congrArg (Desk.mk c') hp⟩

theorem lend_return_eq_ok {a : Checked α} {f : α → β} {p : Operand × β} {c c' : Compiler} :
    (lend x (do return f (← a) : Handling β)).run c = .ok (.ok p) c' ↔
      ∃ v, a.run c = .ok (.ok v) c' ∧ p = (x, f v) := by
  rw [lend_bind]
  constructor
  · intro h
    obtain ⟨q, c₁, hlend, hresult⟩ := Checked.bind_eq_ok h
    obtain ⟨hp, rfl⟩ := EStateM.Result.ok.inj hresult
    obtain ⟨hrun, rfl⟩ := lend_ofChecked_eq_ok.mp hlend
    exact ⟨q.2, hrun, (Except.ok.inj hp).symm⟩
  · rintro ⟨v, hrun, rfl⟩
    exact Checked.bind_of_ok (lend_ofChecked_eq_ok (p := (x, v)).mpr ⟨hrun, rfl⟩)

end Lend

/-- Selecting an element of an array: the index is checked, then that the array has been pushed, and
the index is pushed on it. -/
theorem selectElement_of_array {array : Operand} {inner : Nat} {base : Ty}
    (h : array.type = .array inner base) (index : Operand) (span : Span) :
    selectElement array index span =
      if !index.type.isInt then reject .badArraySelector span
      else if !array.isOnStack then throwThe Misuse .baseNotLoaded
      else do
        loadIfNeeded index
        return { array with
          place := .element, type := Ty.element inner base, isGlobal := false,
          isConstant := false } := by
  rw [selectElement, Handling.selectElement, lend_bind, lend_inHand, pure_bind]
  simp only [h]
  split
  · rfl
  · split
    · rfl
    · simp only [lend_bind, lend_lift, bind_assoc, pure_bind, lend_changeInHand]

/-- Selecting a field that has a number.  The record is pushed, and the field keeps whether it may
be changed. -/
theorem selectField_of_field {record : Operand} {name field : String} {fields : List (Field Ty)}
    {found : Field Ty} {offset : Word} (h : record.type = .record name fields)
    (hfound : Ty.findField? fields field = some found) (hoffset : found.offset? = some offset)
    (span : Span) :
    selectField record field span = do
      let record ← loadAddress record
      return { record with
        place := .field, type := found.type, offset := offset, isGlobal := false,
        isConstant := false } := by
  rw [selectField, Handling.selectField, lend_bind, lend_inHand, pure_bind]
  simp only [h, hfound, hoffset, lend_bind, lend_loadInHand, bind_assoc, pure_bind,
    lend_changeInHand]

theorem arrayLength_eq (array : Operand) (span : Span) :
    arrayLength array span =
      if !array.type.isArray then reject .lengthNotArray span
      else do
        let array ← loadAddress array
        Assembler.emit .arraylength
        return (array, .ofType .int) := by
  rw [arrayLength, Handling.arrayLength, lend_bind, lend_inHand, pure_bind]
  split
  · rfl
  · simp only [lend_bind, lend_loadInHand, lend_assemble, bind_assoc, pure_bind, lend_pure]

end Compiler
end MJ
