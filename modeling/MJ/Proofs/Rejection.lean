import MJ.Proofs.Compilation

/-!
# Rejected constructs

The compiler checks the operands of a construct before it does anything else.  Whether a construct
is rejected therefore depends on its operands alone, and a rejected construct leaves everything as
it was: the program under construction, what the compiler has noted, and the operand that the
caller handed over to be changed.

## Main definitions

* `Action.Rejects`, `Action.Accepts` — an action finds a defect, or finds none.
* `Action.Settled` — an action finds a defect in all of some states, or in none of them.
* `Construct`, `Construct.compile` — everything that the compiler checks.

## Main results

* `Action.Settled.check` — a check before an action.
* `Handling.settled_selectElement`, `Handling.settled_selectField`, `Handling.settled_arrayLength` —
  the operand in hand is checked before it is changed.
* `Construct.settled` — the check of every construct depends on its operands only.
* `Construct.rejected_unchanged` — **a rejected construct leaves no trace.**
-/

namespace MJ

/-! ### Checks -/

namespace Action

variable {σ α β : Type} {P : σ → Prop}

/-- An action finds the program wrong in each of some states, and leaves the state as it is. -/
def Rejects (P : σ → Prop) (d : Diagnostic) (x : ExceptT Diagnostic (EStateM Misuse σ) α) : Prop :=
  ∀ s, P s → x.run s = .ok (.error d) s

/-- An action does not find the program wrong in any of some states. -/
def Accepts (P : σ → Prop) (x : ExceptT Diagnostic (EStateM Misuse σ) α) : Prop :=
  ∀ ⦃s s' : σ⦄ ⦃r : Except Diagnostic α⦄, P s → x.run s = .ok r s' → ∃ v, r = .ok v

/-- An action finds the program wrong in all of some states, or in none of them.  That it changes
nothing when it does is a part of this, and so the two are proved together. -/
def Settled (P : σ → Prop) (x : ExceptT Diagnostic (EStateM Misuse σ) α) : Prop :=
  (∃ d, Rejects P d x) ∨ Accepts P x

/-- No condition on the state. -/
abbrev Anywhere : σ → Prop := fun _ => True

namespace Accepts

theorem pure (v : α) : Accepts P (Pure.pure v) := by
  intro s s' r _ h
  obtain ⟨rfl, -⟩ := EStateM.Result.ok.inj h
  exact ⟨v, rfl⟩

/-- A misuse is no defect of the program. -/
theorem misuse (m : Misuse) :
    Accepts P (throwThe Misuse m : ExceptT Diagnostic (EStateM Misuse σ) α) := by
  intro s s' r _ h
  cases h

/-- The second action may start in any state that the first one leaves, and therefore has to accept
all of them. -/
theorem bind {x : ExceptT Diagnostic (EStateM Misuse σ) α}
    {f : α → ExceptT Diagnostic (EStateM Misuse σ) β} (hx : Accepts P x)
    (hf : ∀ v, Accepts Anywhere (f v)) : Accepts P (x >>= f) := by
  intro s s'' r hs h
  obtain ⟨r', s', hrun⟩ := Checked.exists_ok_of_bind h
  obtain ⟨v, rfl⟩ := hx hs hrun
  rw [Checked.bind_of_ok hrun] at h
  exact hf v trivial h

theorem lift {P : Compiler → Prop} (x : Compile α) : Accepts P (liftM x : Checked α) := by
  intro c c' r _ h
  obtain ⟨v, -, hr⟩ := Checked.lift_eq_ok.mp h
  exact ⟨v, hr⟩

theorem assemble {P : Compiler → Prop} (x : Asm α) : Accepts P (liftM x : Checked α) := by
  intro c c' r _ h
  obtain ⟨v, -, -, -, hr⟩ := Checked.assemble_eq_ok.mp h
  exact ⟨v, hr⟩

/-- What comes out if an action that finds nothing wrong is followed by a result. -/
theorem result {x : Checked β} (hx : Accepts Anywhere x) {v : α} {c c' : Compiler}
    {r : Except Diagnostic α} (h : (x >>= fun _ => Pure.pure v).run c = .ok r c') : r = .ok v := by
  obtain ⟨r', c₁, hrun⟩ := Checked.exists_ok_of_bind h
  obtain ⟨w, rfl⟩ := hx trivial hrun
  rw [Checked.bind_of_ok hrun] at h
  exact (EStateM.Result.ok.inj h).1.symm

/-- An action of the compiler before one that finds nothing wrong. -/
theorem after_lift {P : Compiler → Prop} (x : Compile α) {f : α → Checked β}
    (hf : ∀ v, Accepts Anywhere (f v)) : Accepts P (liftM x >>= f) :=
  (lift x).bind hf

/-- An action of the assembler before one that finds nothing wrong. -/
theorem after_assemble {P : Compiler → Prop} (x : Asm α) {f : α → Checked β}
    (hf : ∀ v, Accepts Anywhere (f v)) : Accepts P (liftM x >>= f) :=
  (assemble x).bind hf

end Accepts

theorem Rejects.bind {x : ExceptT Diagnostic (EStateM Misuse σ) α} {d : Diagnostic}
    (hx : Rejects P d x) (f : α → ExceptT Diagnostic (EStateM Misuse σ) β) :
    Rejects P d (x >>= f) :=
  fun s hs => Action.bind_of_ok (hx s hs)

namespace Settled

variable {x : ExceptT Diagnostic (EStateM Misuse σ) α}

theorem accepted (hx : Accepts P x) : Settled P x := Or.inr hx

theorem rejected (d : Diagnostic) :
    Settled P (throw d : ExceptT Diagnostic (EStateM Misuse σ) α) :=
  Or.inl ⟨d, fun _ _ => rfl⟩

/-- A check before an action.  The condition must not depend on the state, and in the compiler it
never does. -/
theorem check {p : Prop} [Decidable p] {d : Diagnostic} (hx : Settled P x) :
    Settled P (if p then throw d else x) := by
  split
  · exact rejected d
  · exact hx

/-- What is done with the result of an action, if it has one, must not be able to reject: a check
that came after a change would find things changed. -/
theorem bind {f : α → ExceptT Diagnostic (EStateM Misuse σ) β} (hx : Settled P x)
    (hf : ∀ v, Accepts Anywhere (f v)) : Settled P (x >>= f) := by
  rcases hx with ⟨d, hrejects⟩ | haccepts
  · exact Or.inl ⟨d, hrejects.bind f⟩
  · exact Or.inr (haccepts.bind hf)

/-- A settled action that finds the program wrong has changed nothing. -/
theorem eq_of_error (hx : Settled P x) {s s' : σ} {d : Diagnostic} (hs : P s)
    (h : x.run s = .ok (.error d) s') : s' = s ∧ Rejects P d x := by
  rcases hx with ⟨d', hrejects⟩ | haccepts
  · obtain ⟨hd, rfl⟩ := EStateM.Result.ok.inj ((hrejects s hs).symm.trans h)
    cases hd
    exact ⟨rfl, hrejects⟩
  · obtain ⟨v, hv⟩ := haccepts hs h
    cases hv

end Settled
end Action

namespace Checked

variable {α : Type}

/-- An action finds the program wrong in every compilation, and does nothing else. -/
abbrev Rejects (d : Diagnostic) (x : Checked α) : Prop := Action.Rejects Action.Anywhere d x

/-- An action does not find the program wrong in any compilation. -/
abbrev Accepts (x : Checked α) : Prop := Action.Accepts Action.Anywhere x

/-- An action finds the program wrong in every compilation or in none. -/
abbrev Settled (x : Checked α) : Prop := Action.Settled Action.Anywhere x

end Checked

/-! ### The operand in hand -/

namespace Handling

open MJ.Action

variable {α : Type} {P : Desk → Prop} {x : Operand}

theorem accepts_ofChecked {a : Checked α} (ha : a.Accepts) : Accepts P (ofChecked a) := by
  intro desk desk' r _ h
  obtain ⟨c, hrun, -⟩ := ofChecked_eq_ok.mp h
  exact ha trivial hrun

theorem settled_ofChecked {a : Checked α} (ha : a.Settled) : Settled P (ofChecked a) := by
  rcases ha with ⟨d, hrejects⟩ | haccepts
  · exact Or.inl ⟨d, fun desk _ => ofChecked_eq_ok.mpr ⟨_, hrejects desk.compiler trivial, rfl⟩⟩
  · exact .accepted (accepts_ofChecked haccepts)

theorem accepts_changeInHand (f : Operand → Operand) : Accepts P (changeInHand f) := by
  intro desk desk' r _ h
  obtain ⟨rfl, -⟩ := EStateM.Result.ok.inj h
  exact ⟨(), rfl⟩

theorem accepts_inHand : Accepts P inHand := by
  intro desk desk' r _ h
  obtain ⟨rfl, -⟩ := EStateM.Result.ok.inj h
  exact ⟨desk.inHand, rfl⟩

theorem accepts_loadInHand : Accepts P loadInHand :=
  accepts_inHand.bind fun _ => (accepts_ofChecked (.lift _)).bind fun _ => accepts_changeInHand _

/-- What is done with the operand in hand is settled if it is for this operand.  The condition on
the state fixes the operand, and nothing else of the state is looked at. -/
theorem settled_inHand {f : Operand → Handling α} (h : Settled (·.inHand = x) (f x)) :
    Settled (·.inHand = x) (inHand >>= f) := by
  have hrun : ∀ desk : Desk, desk.inHand = x → (inHand >>= f).run desk = (f x).run desk := by
    rintro desk rfl
    rfl
  rcases h with ⟨d, hrejects⟩ | haccepts
  · refine Or.inl ⟨d, fun desk hdesk => ?_⟩
    rw [hrun desk hdesk, hrejects desk hdesk]
  · refine .accepted fun desk desk' r hdesk h => ?_
    rw [hrun desk hdesk] at h
    exact haccepts hdesk h

/-! The operand is changed after all checks. -/

theorem settled_selectElement (index : Operand) (span : Span) :
    Settled (·.inHand = x) (selectElement index span) := by
  refine settled_inHand ?_
  split
  · refine .check (.accepted ?_)
    split
    · exact .misuse _
    · exact (accepts_ofChecked (.lift _)).bind fun _ => accepts_changeInHand _
  · exact .rejected _

theorem settled_selectField (field : String) (span : Span) :
    Settled (·.inHand = x) (selectField field span) := by
  refine settled_inHand ?_
  split
  · split
    · exact .rejected _
    · split
      · exact .accepted (.misuse _)
      · exact .accepted (accepts_loadInHand.bind fun _ => accepts_changeInHand _)
  · exact .rejected _

theorem settled_arrayLength (span : Span) : Settled (·.inHand = x) (arrayLength span) :=
  settled_inHand (.check (.accepted (accepts_loadInHand.bind fun _ =>
    (accepts_ofChecked (.assemble _)).bind fun _ => .pure _)))

end Handling

namespace Compiler

open Checked

/-! ### Expressions and assignments -/

theorem settled_unary (op? : Option Unary) (span : Span) (x : Operand) :
    (unary op? span x).Settled := by
  cases op? with
  | none => exact .accepted (.pure x)
  | some op =>
    cases op with
    | plus => exact .check (.accepted (.after_lift _ fun _ => .pure _))
    | minus => exact .check (.accepted (.after_lift _ fun _ => .after_assemble _ fun _ => .pure _))
    | not => exact .check (.accepted (.after_lift _ fun _ => .after_assemble _ fun _ => .pure _))

theorem settled_binary (x : Operand) (op : Binary) (span : Span) (y : Operand) :
    (binary x op span y).Settled :=
  .check (.accepted (.after_assemble _ fun _ => .pure _))

theorem settled_relation (x : Operand) (op : Relation) (span : Span) (y : Operand) :
    (relation x op span y).Settled :=
  .check (.accepted (.after_assemble _ fun _ => .pure _))

theorem settled_equality (x : Operand) (op : Equality) (span : Span) (y : Operand) :
    (equality x op span y).Settled :=
  .check (.accepted (.after_assemble _ fun _ => .pure _))

theorem settled_assign (target x : Operand) (span : Span) : (assign target x span).Settled := by
  refine .check (.check (.accepted ?_))
  split
  · split
    · exact .misuse _
    · exact .lift _
  · exact .after_lift _ fun _ => .lift _

theorem settled_branchIfFalse (condition : Operand) (label : String) (span : Span) :
    (branchIfFalse condition label span).Settled :=
  .check (.accepted (.after_lift _ fun _ => .assemble _))

/-! ### Arrays and records -/

theorem settled_storeLength (dimension : Nat) (length : Operand) (span : Span) :
    (storeLength dimension length span).Settled := by
  refine .check (.check (.accepted (.after_lift _ fun _ => ?_)))
  split
  · exact .after_lift _ fun _ => .after_assemble _ fun _ => .lift _
  · exact .pure ()

theorem settled_allocArray (type : Ty) (span : Span) : (allocArray type span).Settled := by
  cases type with
  | array inner base =>
    refine .check (.accepted ?_)
    split
    · exact .after_assemble _ fun _ => .pure _
    · exact .after_lift _ fun _ => .after_lift _ fun _ => .after_assemble _ fun _ =>
        .after_lift _ fun _ => .pure _
  | _ => exact .rejected _

theorem settled_allocRecord (type : Ty) (span : Span) : (allocRecord type span).Settled := by
  cases type with
  | record name fields => exact .accepted (.after_assemble _ fun _ => .pure _)
  | _ => exact .rejected _

/-! ### Calls -/

/-- A call is rejected, or else gives a result exactly if the procedure has one.  The second part is
needed for calls in expressions, which ask for a result. -/
theorem callProcedure_cases (s : Decl) (args : List Operand) (span : Span) :
    (∃ d, (callProcedure s args span).Rejects d) ∨
      ∀ ⦃c c' : Compiler⦄ ⦃r : Except Diagnostic (Option Operand)⦄,
        (callProcedure s args span).run c = .ok r c' →
        ∃ name result params builtin?, s.type = .procedure name result params builtin? ∧
          r = .ok (if result.isVoid then none else some (.ofType result)) := by
  unfold callProcedure
  split
  · rename_i name result params builtin? htype
    split
    · exact Or.inl ⟨_, fun _ _ => rfl⟩
    · split
      · exact Or.inl ⟨_, fun _ _ => rfl⟩
      · split
        · exact Or.inl ⟨_, fun _ _ => rfl⟩
        · -- all checks are passed, and the code of the call finds nothing wrong
          refine Or.inr fun c c' r h => ⟨name, result, params, builtin?, htype, ?_⟩
          cases hvoid : result.isVoid with
          | true =>
            rw [hvoid] at h
            cases builtin? with
            | some b => exact (Action.Accepts.lift _).result h
            | none => exact (Action.Accepts.assemble _).result h
          | false =>
            rw [hvoid] at h
            cases builtin? with
            | some b => exact (Action.Accepts.lift _).result h
            | none => exact (Action.Accepts.assemble _).result h
  · exact Or.inr fun c c' r h => nomatch h

theorem settled_callProcedure (s : Decl) (args : List Operand) (span : Span) :
    (callProcedure s args span).Settled := by
  rcases callProcedure_cases s args span with hrejects | hresult
  · exact Or.inl hrejects
  · refine .accepted fun c c' r _ h => ?_
    obtain ⟨_, _, _, _, _, hr⟩ := hresult h
    exact ⟨_, hr⟩

/-- A call in an expression is rejected before it is compiled: the result of a procedure that has
one is not missing afterwards. -/
theorem settled_callFunction (s : Decl) (args : List Operand) (span : Span) :
    (callFunction s args span).Settled := by
  unfold callFunction
  split
  · exact .rejected _
  · rename_i hvoid
    rcases callProcedure_cases s args span with ⟨d, hrejects⟩ | hresult
    · exact Or.inl ⟨d, hrejects.bind _⟩
    · refine .accepted fun c c' r _ h => ?_
      obtain ⟨r', c₁, hcall⟩ := exists_ok_of_bind h
      obtain ⟨name, result, params, builtin?, htype, rfl⟩ := hresult hcall
      rw [bind_of_ok hcall] at h
      cases result with
      | void => exact absurd htype (hvoid name params builtin?)
      | _ => exact Action.Accepts.pure (P := Action.Anywhere) _ trivial h

end Compiler

/-! ### Constructs -/

/-- A construct that the compiler checks.  Three of them change an operand that their caller has in
hand: the element or field that is selected replaces the array or record, and an array whose length
is asked for is on the stack afterwards. -/
inductive Construct where
  /-- The length of a dimension of a new array. -/
  | storeLength (dimension : Nat) (length : Operand)
  /-- A new array. -/
  | allocArray (type : Ty)
  /-- A new record. -/
  | allocRecord (type : Ty)
  /-- The element of the array in hand at an index. -/
  | selectElement (index : Operand)
  /-- A field of the record in hand. -/
  | selectField (field : String)
  /-- The length of the array in hand. -/
  | arrayLength
  /-- An assignment. -/
  | assign (target x : Operand)
  /-- An operator before an operand. -/
  | unary (op? : Option Unary) (x : Operand)
  /-- An operator between two operands. -/
  | binary (x : Operand) (op : Binary) (y : Operand)
  /-- A comparison of two operands. -/
  | relation (x : Operand) (op : Relation) (y : Operand)
  /-- A test of two operands for equality. -/
  | equality (x : Operand) (op : Equality) (y : Operand)
  /-- A call. -/
  | callProcedure (s : Decl) (args : List Operand)
  /-- A call in an expression. -/
  | callFunction (s : Decl) (args : List Operand)
  /-- The jump of a condition. -/
  | branchIfFalse (condition : Operand) (label : String)

namespace Construct

/-- Compiles a construct at a place of the program.  Gives the operand that the construct results
in, if there is one. -/
def compile (span : Span) : Construct → Handling (Option Operand)
  | storeLength dimension length => do
    Compiler.storeLength dimension length span
    return none
  | allocArray type => do return some (← Compiler.allocArray type span)
  | allocRecord type => do return some (← Compiler.allocRecord type span)
  | selectElement index => do
    Handling.selectElement index span
    return none
  | selectField field => do
    Handling.selectField field span
    return none
  | arrayLength => do return some (← Handling.arrayLength span)
  | assign target x => do
    Compiler.assign target x span
    return none
  | unary op? x => do return some (← Compiler.unary op? span x)
  | binary x op y => do return some (← Compiler.binary x op span y)
  | relation x op y => do return some (← Compiler.relation x op span y)
  | equality x op y => do return some (← Compiler.equality x op span y)
  | callProcedure s args => Compiler.callProcedure s args span
  | callFunction s args => do return some (← Compiler.callFunction s args span)
  | branchIfFalse condition label => do
    Compiler.branchIfFalse condition label span
    return none

open Compiler MJ.Action in
/-- The check of a construct depends on its operands only, the one in hand among them.  This is the
one walk over all constructs, each of which is settled by the order of its checks. -/
theorem settled (k : Construct) (span : Span) (x : Operand) :
    Settled (·.inHand = x) (k.compile span) := by
  have checked {α : Type} {a : Checked α} {f : α → Option Operand} (ha : a.Settled) :
      Settled (·.inHand = x) (do return f (← a) : Handling (Option Operand)) :=
    (Handling.settled_ofChecked ha).bind fun _ => .pure _
  cases k with
  | storeLength dimension length => exact checked (settled_storeLength dimension length span)
  | allocArray type => exact checked (settled_allocArray type span)
  | allocRecord type => exact checked (settled_allocRecord type span)
  | selectElement index => exact (Handling.settled_selectElement index span).bind fun _ => .pure _
  | selectField field => exact (Handling.settled_selectField field span).bind fun _ => .pure _
  | arrayLength => exact (Handling.settled_arrayLength span).bind fun _ => .pure _
  | assign target x => exact checked (settled_assign target x span)
  | unary op? x => exact checked (settled_unary op? span x)
  | binary x op y => exact checked (settled_binary x op span y)
  | relation x op y => exact checked (settled_relation x op span y)
  | equality x op y => exact checked (settled_equality x op span y)
  | callProcedure s args => exact Handling.settled_ofChecked (settled_callProcedure s args span)
  | callFunction s args => exact checked (settled_callFunction s args span)
  | branchIfFalse condition label => exact checked (settled_branchIfFalse condition label span)

/-- A construct that is rejected leaves the compilation as it is. -/
theorem compiler_of_lend_error {k : Construct} {span : Span} {x : Operand} {c c' : Compiler}
    {d : Diagnostic} (h : (Compiler.lend x (k.compile span)).run c = .ok (.error d) c') :
    c' = c := by
  obtain ⟨y, hrun⟩ := Compiler.lend_eq_error.mp h
  exact congrArg Desk.compiler ((k.settled span x).eq_of_error rfl hrun).1

/-- **A rejected construct leaves no trace.**  The compilation and the operand in hand are exactly
as they were, and the same construct is rejected in every other compilation.  Nothing is put back to
get there: the three constructs that change the operand in hand do so after their last check. -/
theorem rejected_unchanged (k : Construct) (span : Span) {desk desk' : Desk} {d : Diagnostic}
    (h : (k.compile span).run desk = .ok (.error d) desk') :
    desk' = desk ∧ ∀ c, (k.compile span).run { desk with compiler := c }
      = .ok (.error d) { desk with compiler := c } := by
  obtain ⟨rfl, hrejects⟩ := (k.settled span desk.inHand).eq_of_error rfl h
  exact ⟨rfl, fun c => hrejects _ rfl⟩

/-- A bad index for an array that is on the stack, a missing field of a record that is not, and the
length of a number.  The same array with a good index does become an element. -/
theorem rejected_unchanged_in_hand :
    let c : Compiler := { Compiler.empty with
      labelCount := 2, constants := [(0, 7)], exitLabel? := some "end", pendingLengths := [[3]] }
    let array : Operand := ⟨.address, .array 1 .int, true, false, false, 4⟩
    let record : Operand := ⟨.memory, .record "P" [⟨"x", .int, some 0⟩], true, true, false, 5⟩
    let index : Construct := .selectElement (.bool true)
    let field : Construct := .selectField "y"
    (index.compile ⟨3, 7⟩).run ⟨c, array⟩ = .ok (.error ⟨.badArraySelector, ⟨3, 7⟩⟩) ⟨c, array⟩ ∧
    (∀ c', (index.compile ⟨3, 7⟩).run ⟨c', array⟩
      = .ok (.error ⟨.badArraySelector, ⟨3, 7⟩⟩) ⟨c', array⟩) ∧
    (field.compile ⟨4, 2⟩).run ⟨c, record⟩
      = .ok (.error ⟨.invalidField "y" "P", ⟨4, 2⟩⟩) ⟨c, record⟩ ∧
    (∀ c', (field.compile ⟨4, 2⟩).run ⟨c', record⟩
      = .ok (.error ⟨.invalidField "y" "P", ⟨4, 2⟩⟩) ⟨c', record⟩) ∧
    (∀ c', (arrayLength.compile ⟨5, 1⟩).run ⟨c', .int 6⟩
      = .ok (.error ⟨.lengthNotArray, ⟨5, 1⟩⟩) ⟨c', .int 6⟩) ∧
    ∃ desk, (Construct.compile ⟨3, 7⟩ (.selectElement (.int 1))).run ⟨c, array⟩
        = .ok (.ok none) desk ∧
      desk.inHand.place = .element := by
  intro c array record index field
  have hindex : (index.compile ⟨3, 7⟩).run ⟨c, array⟩
      = .ok (.error ⟨.badArraySelector, ⟨3, 7⟩⟩) ⟨c, array⟩ := rfl
  have hfield : (field.compile ⟨4, 2⟩).run ⟨c, record⟩
      = .ok (.error ⟨.invalidField "y" "P", ⟨4, 2⟩⟩) ⟨c, record⟩ := rfl
  have hlength : (arrayLength.compile ⟨5, 1⟩).run ⟨c, .int 6⟩
      = .ok (.error ⟨.lengthNotArray, ⟨5, 1⟩⟩) ⟨c, .int 6⟩ := rfl
  exact ⟨hindex, (rejected_unchanged _ _ hindex).2, hfield, (rejected_unchanged _ _ hfield).2,
    (rejected_unchanged _ _ hlength).2, _, rfl, rfl⟩

end Construct
end MJ
