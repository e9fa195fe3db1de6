import MJ.Proofs.Array.Mirroring
import MJ.Proofs.Expression.Term

/-!
# Arrays inside of the lengths of arrays

The length of a dimension may be any number that the program computes, and may need new arrays
itself.  The compiler notes the words of the frame where lengths are, and finds them again when the
array is allocated.  Here its notes are compared with a compilation that makes none: each new array
holds the words of its own lengths in a variable, where no other array can get at them.

## Main definitions

* `Creation.lexical` — the way to create an array without notes, to be compared with
  `Creation.noted`.
* `Term.HasType` — the types that terms have.

## Main results

* `Creation.mirrors_noted` — both ways create the same array if their lengths are evaluated alike.
* `Term.lengths_kept_apart` — **new arrays do not take each other's lengths.**
-/

namespace MJ

open Assembler Compiler

/-! ### An array without notes -/

namespace Creation

/-- Puts a length into a word of the frame that is set aside for it, and gives the word.  The caller
holds the word from then on, where the compiler would note it. -/
def keepLength (length : Operand) : Checked Word := do
  loadIfNeeded length
  let slot ← allocTemp
  Assembler.storeWord .stack slot
  return slot

/-- Evaluates lengths and gives the words that hold them. -/
def keepLengths : List Evaluation → Checked (List Word)
  | [] => return []
  | (length, _) :: later => do
    let slot ← keepLength (← length)
    return slot :: (← keepLengths later)

/-- Allocates an array.  Its first length is on the stack, and the others are in the given words of
the frame. -/
def allocFrom (slots : List Word) (type : Ty) : Checked Operand :=
  if slots.isEmpty then do
    Assembler.newArray
    return .ofType type
  else do
    let first ← allocTemp
    Assembler.storeWord .stack first
    allocLevels (first :: slots)
    return .ofType type

/-- The array is created from the words that its own lengths have been put into.  They are bound to
a variable here, and so they cannot be mixed up with those of other arrays. -/
def lexical : Creation := fun base first later _ => do
  loadIfNeeded (← first.1)
  let slots ← keepLengths later
  allocFrom slots (.array later.length base)

end Creation

/-! ### Types -/

mutual

/-- The types of terms.  What a term names can be named by an instruction, so that only the words
and labels that the compiler makes up may be out of reach. -/
inductive Term.HasType : Term → Ty → Prop
  | operand {x : Operand} (hname : x.IsNameable) : Term.HasType (.operand x) x.type
  | var {d : Decl} (hd : d.HasOffset) (hname : d.IsAddressable) : Term.HasType (.var d) d.type
  | load {t : Term} {type : Ty} (h : Term.HasType t type) : Term.HasType (.load t) type
  | unary {op : Unary} {span : Span} {t : Term} (h : Term.HasType t op.scalar.ty) :
    Term.HasType (.unary op span t) op.scalar.ty
  | binary {s t : Term} {op : Binary} {span : Span} (hs : Term.HasType s op.scalar.ty)
    (ht : Term.HasType t op.scalar.ty) : Term.HasType (.binary s op span t) op.scalar.ty
  | relation {s t : Term} {op : Relation} {span : Span} (hs : Term.HasType s .int)
    (ht : Term.HasType t .int) : Term.HasType (.relation s op span t) .bool
  | equality {s t : Term} {op : Equality} {span : Span} {k : Scalar} (hs : Term.HasType s k.ty)
    (ht : Term.HasType t k.ty) : Term.HasType (.equality s op span t) .bool
  | length {array : Term} {span : Span} {inner : Nat} {base : Ty}
    (h : Term.HasType array (.array inner base)) : Term.HasType (.length array span) .int
  | element {array index : Term} {span : Span} {inner : Nat} {base : Ty}
    (harray : Term.HasType array (.array inner base)) (hindex : Term.HasType index .int) :
    Term.HasType (.element array index span) (.element inner base)
  | field {record : Term} {span : Span} {name : String} {fields : List (Field Ty)}
    {found : Field Ty} {offset : Word} {recordName : String}
    (h : Term.HasType record (.record recordName fields))
    (hfound : Ty.findField? fields name = some found) (hoffset : found.offset? = some offset)
    (hname : Region.heap.offsetWidth.holds offset = true) :
    Term.HasType (.field record name span) found.type
  | call {s : Decl} {arguments : Terms} {span : Span} {name : String} {result : Ty}
    {params : List (Param Ty)} {builtin? : Option Builtin} {types : List Ty}
    (hs : s.type = .procedure name result params builtin?)
    (hbuiltin : builtin? = none ∨ builtin? = some .readint) (hresult : result.isVoid = false)
    (harguments : Terms.HaveTypes arguments types)
    (hparams : List.Forall₂ (fun type p => (type == p.type) = true) types params) :
    Term.HasType (.call s arguments span) result
  | newRecord {name : String} {fields : List (Field Ty)} {span : Span}
    (hsize : fields.length ≤ 65535) :
    Term.HasType (.newRecord (.record name fields) span) (.record name fields)
  | newArray {base : Ty} {first : Term} {firstSpan : Span} {later : Terms} {span : Span} {n : Nat}
    (hfirst : Term.HasType first .int) (hlater : Terms.HaveTypes later (List.replicate n .int))
    (hmax : n + 1 ≤ maxDimensions) :
    Term.HasType (.newArray base first firstSpan later span) (.array n base)

/-- The types of terms one after the other. -/
inductive Terms.HaveTypes : Terms → List Ty → Prop
  | nil : Terms.HaveTypes .nil []
  | cons {t : Term} {span : Span} {rest : Terms} {type : Ty} {types : List Ty}
    (h : Term.HasType t type) (hrest : Terms.HaveTypes rest types) :
    Terms.HaveTypes (.cons t span rest) (type :: types)

end

/-! ### Constructs -/

/-- An operand of the given type, whose place can be named. -/
def Operand.IsOf (type : Ty) (x : Operand) : Prop := x.type = type ∧ x.IsNameable

theorem Operand.isOf_ofType (type : Ty) : (Operand.ofType type).IsOf type := by
  refine ⟨rfl, ?_⟩
  unfold Operand.IsNameable Operand.ofType Operand.ofPlace Operand.stackPlace
  cases type.isReference with
  | true => trivial
  | false => trivial

/-- An operand that has been pushed is on the stack. -/
theorem Operand.IsOf.loaded {type : Ty} {x : Operand} (h : x.IsOf type) :
    x.loaded.IsOf type ∧ x.loaded.isOnStack = true := by
  cases hstack : x.isOnStack with
  | true =>
    rw [Operand.loaded, hstack, if_pos rfl]
    exact ⟨h, hstack⟩
  | false =>
    rw [Operand.loaded, hstack, if_neg Bool.false_ne_true]
    unfold Operand.IsOf Operand.IsNameable Operand.isOnStack Operand.stackPlace
    cases x.type.isReference with
    | true => exact ⟨⟨h.1, trivial⟩, rfl⟩
    | false => exact ⟨⟨h.1, trivial⟩, rfl⟩

namespace Checked.Mirrors

variable {c₀ c : Compiler} {span : Span} {x y : Operand}

theorem unary (h : c₀.Evolves c) {op : Unary} (hx : x.IsOf op.scalar.ty) :
    Mirrors c (Compiler.unary (some op) span x) (Compiler.unary (some op) span x)
      fun v c' => c₀.Evolves c' ∧ v.IsOf op.scalar.ty := by
  obtain ⟨htype, hname⟩ := hx
  have hload := lift (Compile.Mirrors.loadIfNeeded h hname)
  have hresult : (Operand.ofType x.type).IsOf op.scalar.ty := htype ▸ Operand.isOf_ofType x.type
  cases op with
  | plus =>
    refine check (by rw [htype]; decide) (hload.bind fun _ c₁ h₁ => ?_)
    exact pure ⟨h₁, hresult⟩
  | minus =>
    refine check (by rw [htype]; decide) (hload.bind fun _ c₁ h₁ => ?_)
    exact (assemble (Compile.Mirrors.emit h₁ rfl)).bind fun _ c₂ h₂ => pure ⟨h₂, hresult⟩
  | not =>
    refine check (by rw [htype]; decide) (hload.bind fun _ c₁ h₁ => ?_)
    exact (assemble (Compile.Mirrors.code h₁ (negation_eq _))).bind
      fun _ c₂ h₂ => pure ⟨h₂, hresult⟩

theorem emitBinary (h : c₀.Evolves c) (op : Binary) :
    Mirrors c (liftM (Compiler.emitBinary op)) (liftM (Compiler.emitBinary op))
      fun _ c' => c₀.Evolves c' := by
  cases op with
  | add | sub | mul | div | mod => exact assemble (Compile.Mirrors.emit h rfl)
  | and => exact assemble (Compile.Mirrors.code h (conjunction_eq _))
  | or => exact assemble (Compile.Mirrors.code h (disjunction_eq _))

theorem binary (h : c₀.Evolves c) {op : Binary} (hx : x.IsOf op.scalar.ty)
    (hy : y.IsOf op.scalar.ty) :
    Mirrors c (Compiler.binary x op span y) (Compiler.binary x op span y)
      fun v c' => c₀.Evolves c' ∧ v.IsOf op.scalar.ty := by
  have hlegal : ¬(x.type != y.type
      || !if op.isLogical then x.type.isBool else x.type.isInt) = true := by
    rw [hx.1, hy.1]
    cases op <;> decide
  refine check hlegal ((emitBinary h op).bind fun _ c₁ h₁ => pure ⟨h₁, ?_⟩)
  rw [hx.1]
  exact Operand.isOf_ofType _

theorem relation (h : c₀.Evolves c) {op : Relation} (hx : x.IsOf .int) (hy : y.IsOf .int) :
    Mirrors c (Compiler.relation x op span y) (Compiler.relation x op span y)
      fun v c' => c₀.Evolves c' ∧ v.IsOf .bool := by
  refine check (by rw [hx.1, hy.1]; decide) ?_
  exact (assemble (Compile.Mirrors.compare h _)).bind
    fun _ c₁ h₁ => pure ⟨h₁, Operand.isOf_ofType _⟩

theorem equality (h : c₀.Evolves c) {op : Equality} {k : Scalar} (hx : x.IsOf k.ty)
    (hy : y.IsOf k.ty) :
    Mirrors c (Compiler.equality x op span y) (Compiler.equality x op span y)
      fun v c' => c₀.Evolves c' ∧ v.IsOf .bool := by
  refine check (by rw [hx.1, hy.1]; cases k <;> decide) ?_
  exact (assemble (Compile.Mirrors.compare h _)).bind
    fun _ c₁ h₁ => pure ⟨h₁, Operand.isOf_ofType _⟩

theorem arrayLength (h : c₀.Evolves c) {inner : Nat} {base : Ty} (hx : x.IsOf (.array inner base)) :
    Mirrors c (Compiler.arrayLength x span) (Compiler.arrayLength x span)
      fun v c' => c₀.Evolves c' ∧ v.2.IsOf .int := by
  rw [arrayLength_eq]
  refine check (by rw [hx.1]; exact Bool.false_ne_true) ?_
  refine (lift (Compile.Mirrors.loadValue h hx.2)).bind fun _ c₁ ⟨h₁, _⟩ => ?_
  exact (assemble (Compile.Mirrors.emit h₁ rfl)).bind
    fun _ c₂ h₂ => pure ⟨h₂, Operand.isOf_ofType _⟩

theorem selectElement (h : c₀.Evolves c) {inner : Nat} {base : Ty}
    (hx : x.IsOf (.array inner base)) (hstack : x.isOnStack = true) (hy : y.IsOf .int) :
    Mirrors c (Compiler.selectElement x y span) (Compiler.selectElement x y span)
      fun v c' => c₀.Evolves c' ∧ v.IsOf (.element inner base) := by
  rw [selectElement_of_array hx.1, hy.1, hstack]
  exact (lift (Compile.Mirrors.loadIfNeeded h hy.2)).bind fun _ c₁ h₁ => pure ⟨h₁, rfl, trivial⟩

theorem selectField (h : c₀.Evolves c) {recordName name : String} {fields : List (Field Ty)}
    {found : Field Ty} {offset : Word} (hx : x.IsOf (.record recordName fields))
    (hfound : Ty.findField? fields name = some found) (hoffset : found.offset? = some offset)
    (hname : Region.heap.offsetWidth.holds offset = true) :
    Mirrors c (Compiler.selectField x name span) (Compiler.selectField x name span)
      fun v c' => c₀.Evolves c' ∧ v.IsOf found.type := by
  rw [selectField_of_field hx.1 hfound hoffset]
  exact (lift (Compile.Mirrors.loadValue h hx.2)).bind
    fun _ _ ⟨h₁, _⟩ => pure ⟨h₁, rfl, hname⟩

theorem allocRecord (h : c₀.Evolves c) {name : String} {fields : List (Field Ty)}
    (hsize : fields.length ≤ 65535) :
    Mirrors c (Compiler.allocRecord (.record name fields) span)
      (Compiler.allocRecord (.record name fields) span)
      fun v c' => c₀.Evolves c' ∧ v.IsOf (.record name fields) :=
  have hholds : Width.s16.holds (Int32.ofNat fields.length) = true :=
    Width.holds_of_le (by omega) (show (fields.length : Int) ≤ 65535 by omega)
  (assemble (Compile.Mirrors.code h (emitWith_eq rfl hholds _))).bind
    fun _ _ h₁ => pure ⟨h₁, Operand.isOf_ofType _⟩

/-- Arguments of the right types are no defect, wherever their numbering starts. -/
theorem badArgument?_eq_none {xs : List Operand} {types : List Ty} {params : List (Param Ty)}
    (hxs : List.Forall₂ Operand.IsOf types xs)
    (hparams : List.Forall₂ (fun type p => (type == p.type) = true) types params) (index : Nat) :
    badArgument? index xs params = none := by
  induction hxs generalizing params index with
  | nil =>
    cases hparams
    rfl
  | @cons type x types xs hx _ ih =>
    cases hparams with
    | @cons _ p _ ps hp hps =>
      rw [badArgument?, hx.1, bne, hp]
      exact ih hps (index + 1)

section Calls

variable {s : Decl} {xs : List Operand} {name : String} {result : Ty} {params : List (Param Ty)}
  {builtin? : Option Builtin} {types : List Ty}

theorem callProcedure (h : c₀.Evolves c) (hs : s.type = .procedure name result params builtin?)
    (hbuiltin : builtin? = none ∨ builtin? = some .readint) (hresult : result.isVoid = false)
    (hxs : List.Forall₂ Operand.IsOf types xs)
    (hparams : List.Forall₂ (fun type p => (type == p.type) = true) types params) :
    Mirrors c (Compiler.callProcedure s xs span) (Compiler.callProcedure s xs span)
      fun v c' => c₀.Evolves c' ∧ v = some (.ofType result) := by
  have hlength : xs.length = params.length := hxs.length_eq.symm.trans hparams.length_eq
  unfold Compiler.callProcedure
  simp only [hs, hlength, Nat.lt_irrefl, if_false, badArgument?_eq_none hxs hparams, hresult]
  rcases hbuiltin with rfl | rfl
  · exact (assemble (Compile.Mirrors.transfer h .call s.label)).bind
      fun _ _ h₁ => pure ⟨h₁, rfl⟩
  · exact (assemble (Compile.Mirrors.emit h rfl)).bind fun _ _ h₁ => pure ⟨h₁, rfl⟩

theorem callFunction (h : c₀.Evolves c) (hs : s.type = .procedure name result params builtin?)
    (hbuiltin : builtin? = none ∨ builtin? = some .readint) (hresult : result.isVoid = false)
    (hxs : List.Forall₂ Operand.IsOf types xs)
    (hparams : List.Forall₂ (fun type p => (type == p.type) = true) types params) :
    Mirrors c (Compiler.callFunction s xs span) (Compiler.callFunction s xs span)
      fun v c' => c₀.Evolves c' ∧ v.IsOf result := by
  unfold Compiler.callFunction
  simp only [hs]
  cases result with
  | void => cases hresult
  | _ =>
    refine (callProcedure h hs hbuiltin hresult hxs hparams).bind fun v c₁ ⟨h₁, hv⟩ => ?_
    subst hv
    exact pure ⟨h₁, Operand.isOf_ofType _⟩

end Calls

end Checked.Mirrors

/-! ### Creating an array -/

/-- The code of a term of the given type, once with notes on lengths and once without.  This is what
the induction on terms carries. -/
def Evaluates (type : Ty) (x y : Checked Operand) : Prop :=
  ∀ c, c.Ready → Checked.Mirrors c x y fun v c' => c.Evolves c' ∧ v.IsOf type

namespace Evaluates

variable {s t type : Ty} {x x' y y' : Checked Operand}

/-- A construct with one operand. -/
theorem bind {f : Operand → Checked Operand} (hx : Evaluates s x x')
    (hf : ∀ {c₀ c : Compiler} {v : Operand}, c₀.Evolves c → v.IsOf s →
      Checked.Mirrors c (f v) (f v) fun u c' => c₀.Evolves c' ∧ u.IsOf type) :
    Evaluates type (x >>= f) (x' >>= f) :=
  fun c hready => (hx c hready).bind fun _ _ ⟨h₁, hv⟩ => hf h₁ hv

/-- A construct with two operands, which are evaluated in order. -/
theorem bind₂ {f : Operand → Operand → Checked Operand} (hx : Evaluates s x x')
    (hy : Evaluates t y y')
    (hf : ∀ {c₀ c : Compiler} {v w : Operand}, c₀.Evolves c → v.IsOf s → w.IsOf t →
      Checked.Mirrors c (f v w) (f v w) fun u c' => c₀.Evolves c' ∧ u.IsOf type) :
    Evaluates type (x >>= fun v => y >>= f v) (x' >>= fun v => y' >>= f v) := by
  intro c hready
  refine (hx c hready).bind fun v c₁ ⟨h₁, hv⟩ => ?_
  refine (hy c₁ h₁.ready).bind fun w c₂ ⟨h₂, hw⟩ => ?_
  exact hf (h₁.trans h₂) hv hw

end Evaluates

/-- The code of terms one after the other, once with notes and once without. -/
inductive EvaluatesAll : List Ty → List Evaluation → List Evaluation → Prop
  /-- No terms. -/
  | nil : EvaluatesAll [] [] []
  /-- A term before others. -/
  | cons {type : Ty} {types : List Ty} {x y : Checked Operand} {span : Span}
    {xs ys : List Evaluation} (h : Evaluates type x y) (hrest : EvaluatesAll types xs ys) :
    EvaluatesAll (type :: types) ((x, span) :: xs) ((y, span) :: ys)

namespace EvaluatesAll

variable {types : List Ty} {xs ys : List Evaluation}

theorem mirrors {c₀ c : Compiler} (h : EvaluatesAll types xs ys) (hc : c₀.Evolves c) :
    Checked.Mirrors c (evaluateAll xs) (evaluateAll ys) fun vs c' =>
      c₀.Evolves c' ∧ List.Forall₂ Operand.IsOf types vs := by
  induction h generalizing c with
  | nil => exact Checked.Mirrors.pure ⟨hc, .nil⟩
  | cons h _ ih =>
    refine (h c hc.ready).bind fun v c₁ ⟨h₁, hv⟩ => ?_
    refine (ih (hc.trans h₁)).bind fun vs c₂ ⟨h₂, hvs⟩ => ?_
    exact Checked.Mirrors.pure ⟨h₂, .cons hv hvs⟩

theorem length_eq (h : EvaluatesAll types xs ys) : xs.length = types.length := by
  induction h with
  | nil => rfl
  | cons _ _ ih => exact congrArg (· + 1) ih

theorem ints (h : EvaluatesAll types xs ys) (hints : ∀ type ∈ types, type = .int) :
    List.Forall₂ (fun x y => Evaluates .int x.1 y.1) xs ys := by
  induction h with
  | nil => exact .nil
  | cons h _ ih =>
    obtain ⟨rfl, hrest⟩ := List.forall_mem_cons.mp hints
    exact .cons h (ih hrest)

end EvaluatesAll

namespace Creation

/-- The notes on lengths while an array under construction has its later lengths in these words.
Nothing is noted until there is such a length, as the first one stays on the stack. -/
def notes (slots : List Word) (outer : List (List Word)) : List (List Word) :=
  if slots.isEmpty then outer else slots :: outer

/-- A length is added to the notes of the array under construction, or starts them. -/
theorem noteLength_eq {slots : List Word} {outer : List (List Word)} {c : Compiler}
    (h : c.pendingLengths = notes slots outer) (slot : Word) :
    noteLength (slots.length + 1) slot c
      = .ok () (c.withPending (notes (slots ++ [slot]) outer)) := by
  cases slots with
  | nil =>
    have hone : ([] : List Word).length + 1 = 1 := rfl
    rw [noteLength, if_pos hone, h]
    rfl
  | cons s slots =>
    have hne : (s :: slots).length + 1 ≠ 1 := Nat.succ_ne_succ_iff.mpr (Nat.succ_ne_zero _)
    have hpending : c.pendingLengths = (s :: slots) :: outer := h
    simp only [noteLength, if_neg hne, hpending, if_true]
    rfl

/-- A later length is stored alike, and is noted in addition. -/
theorem simulates_storeLength {c : Compiler} {slots : List Word} {outer : List (List Word)}
    {x : Operand} {span : Span} (hready : c.Ready) (hx : x.IsOf .int)
    (hpending : c.pendingLengths = notes slots outer)
    (hmax : slots.length + 1 < maxDimensions) :
    Checked.Simulates c (storeLength (slots.length + 1) x span) (keepLength x)
      fun _ slot c' => c.Evolves (c'.withPending c.pendingLengths) ∧
        c'.pendingLengths = notes (slots ++ [slot]) outer ∧
        Region.stack.offsetWidth.holds slot = true := by
  unfold storeLength keepLength
  rw [if_neg (Nat.not_le.mpr hmax), hx.1]
  refine (Checked.Mirrors.lift (.loadIfNeeded (.refl hready) hx.2)).bind fun _ c₁ h₁ => ?_
  rw [if_pos (Nat.succ_ne_zero _)]
  refine (Checked.Mirrors.lift (.allocTemp h₁)).bind fun slot c₂ ⟨h₂, hslot⟩ => ?_
  refine (Checked.Mirrors.assemble (.storeWord h₂ hslot)).bind fun _ c₃ ⟨h₃, hslot⟩ => ?_
  have hnote := noteLength_eq (h₃.pendingLengths.trans hpending) slot
  refine Or.inl ⟨.ok (), .ok slot, _, Checked.lift_of_ok hnote, fun _ => rfl, (), slot, rfl, rfl,
    ?_, rfl, hslot⟩
  rw [withPending_withPending, h₃.withPending_eq]
  exact h₃

/-- Lengths are stored alike one after the other.  Evaluating a length may create arrays, but these
have taken back their own notes when it is stored.  By induction on the lengths, with those that
were noted before as a parameter. -/
theorem simulates_storeLengths {later later' : List Evaluation}
    (hlater : List.Forall₂ (fun x y => Evaluates .int x.1 y.1) later later')
    {c : Compiler} {slots : List Word} {outer : List (List Word)} (hready : c.Ready)
    (hpending : c.pendingLengths = notes slots outer)
    (hmax : slots.length + 1 + later.length ≤ maxDimensions) :
    Checked.Simulates c (storeLengths (slots.length + 1) later) (keepLengths later')
      fun _ new c' => c.Evolves (c'.withPending c.pendingLengths) ∧
        c'.pendingLengths = notes (slots ++ new) outer ∧ new.length = later.length ∧
        ∀ slot ∈ new, Region.stack.offsetWidth.holds slot = true := by
  induction hlater generalizing c slots with
  | nil =>
    refine Or.inl ⟨.ok (), .ok [], c, rfl, fun _ => rfl, (), [], rfl, rfl, .refl hready, ?_, rfl,
      fun slot hslot => absurd hslot List.not_mem_nil⟩
    rw [List.append_nil]
    exact hpending
  | @cons x y later later' hx _ ih =>
    rw [List.length_cons] at hmax
    refine (hx c hready).bind fun v c₁ ⟨h₁, hv⟩ => ?_
    refine (simulates_storeLength h₁.ready hv (h₁.pendingLengths.trans hpending)
      (by omega)).bind fun _ slot c₂ ⟨h₂, hpending₂, hslot⟩ => ?_
    have hlength : (slots ++ [slot]).length = slots.length + 1 := List.length_append
    have hready₂ : c₂.Ready := h₂.ready.withPending c₂.pendingLengths
    -- the notes have one word more now, which is the parameter for the later lengths
    have hlater := ih hready₂ hpending₂ (by omega)
    rw [hlength] at hlater
    refine hlater.mapRight fun _ new c₃ ⟨h₃, hpending₃, hnew, hslots⟩ => ?_
    refine ⟨?_, ?_, congrArg (· + 1) hnew, List.forall_mem_cons.mpr ⟨hslot, hslots⟩⟩
    · have h₁₂ := h₁.trans h₂
      have h₂₃ := h₃.withPending c.pendingLengths
      rw [h₁.pendingLengths] at h₁₂
      exact h₁₂.trans h₂₃
    · rw [hpending₃, List.append_assoc]
      rfl

/-- The first length stays on the stack, where no other array can get at it; no word is noted. -/
theorem mirrors_firstLength {c : Compiler} {x : Operand} {span : Span} (hready : c.Ready)
    (hx : x.IsOf .int) :
    Checked.Mirrors c (storeLength 0 x span) (liftM (loadIfNeeded x)) fun _ c' => c.Evolves c' := by
  unfold storeLength
  rw [if_neg (by decide), hx.1]
  simp only [ne_eq, not_true_eq_false, if_false, bind_pure_unit]
  exact Checked.Mirrors.lift (.loadIfNeeded (.refl hready) hx.2)

/-- The compiler takes the words that it has noted last.  These are the ones of this array, and what
is left are the notes from outside of it. -/
theorem mirrors_allocArray {c : Compiler} {slots : List Word} {outer : List (List Word)}
    (hready : c.Ready) (hpending : c.pendingLengths = notes slots outer)
    (hslots : ∀ slot ∈ slots, Region.stack.offsetWidth.holds slot = true)
    (hmax : slots.length + 1 ≤ maxDimensions) (base : Ty) (span : Span) :
    Checked.Mirrors c (allocArray (.array slots.length base) span)
      (allocFrom slots (.array slots.length base)) fun v c' =>
        (c.withPending outer).Evolves c' ∧ v.IsOf (.array slots.length base) := by
  unfold allocArray allocFrom
  simp only [if_neg (Nat.not_lt.mpr hmax)]
  cases slots with
  | nil =>
    rw [show outer = c.pendingLengths from hpending.symm]
    exact (Checked.Mirrors.assemble (.newArray (.refl hready))).bind fun _ c₁ h₁ =>
      Checked.Mirrors.pure ⟨h₁, Operand.isOf_ofType _⟩
  | cons slot slots =>
    -- only one side takes the notes, and from there on both have the same words
    refine Checked.Simulates.after (Checked.lift_of_ok (takeLengths_eq hpending rfl)) ?_
    refine (Checked.Mirrors.lift (.allocTemp (.refl (hready.withPending outer)))).bind
      fun first c₁ ⟨h₁, hfirst⟩ => ?_
    refine (Checked.Mirrors.assemble (.storeWord h₁ hfirst)).bind fun _ c₂ ⟨h₂, hfirst⟩ => ?_
    have hall : ∀ s ∈ first :: slot :: slots, Region.stack.offsetWidth.holds s = true :=
      List.forall_mem_cons.mpr ⟨hfirst, hslots⟩
    exact (Checked.Mirrors.lift (.allocLevels hall h₂)).bind fun _ c₃ h₃ =>
      Checked.Mirrors.pure ⟨h₃, Operand.isOf_ofType _⟩

/-- **Both ways create the same array** if their lengths are evaluated alike: the words of its own
lengths are what an array is created from. -/
theorem mirrors_noted {base : Ty} {first first' : Checked Operand} {later later' : List Evaluation}
    {firstSpan span : Span} (hfirst : Evaluates .int first first')
    (hlater : List.Forall₂ (fun x y => Evaluates .int x.1 y.1) later later')
    (hmax : later.length + 1 ≤ maxDimensions) :
    Evaluates (.array later.length base) (noted base (first, firstSpan) later span)
      (lexical base (first', firstSpan) later' span) := by
  intro c hready
  unfold noted lexical storeLengths
  simp only [bind_assoc]
  refine (hfirst c hready).bind fun x c₁ ⟨h₁, hx⟩ => ?_
  refine (mirrors_firstLength h₁.ready hx).bind fun _ c₂ h₂ => ?_
  have hnotes : c₂.pendingLengths = notes [] c₂.pendingLengths := rfl
  refine (simulates_storeLengths hlater h₂.ready hnotes (by
    rw [List.length_nil]
    omega)).bind fun _ slots c₃ ⟨h₃, hpending, hlength, hslots⟩ => ?_
  have hready₃ : c₃.Ready := h₃.ready.withPending c₃.pendingLengths
  rw [List.nil_append] at hpending
  have halloc := mirrors_allocArray hready₃ hpending hslots (by omega) base span
  rw [hlength] at halloc
  rw [← hlater.length_eq]
  exact halloc.mono fun v c₄ ⟨h₄, hv⟩ => ⟨((h₁.trans h₂).trans h₃).trans h₄, hv⟩

end Creation

/-! ### The code of terms -/

mutual

/-- A term that has a type is compiled like without notes.  By induction on how it has its type; new
arrays are the only construct for which the two compilations differ. -/
theorem Term.evaluates_generate {t : Term} {type : Ty} (h : t.HasType type) :
    Evaluates type (t.generate .noted) (t.generate .lexical) := by
  cases h with
  | operand hname => exact fun c hready => Checked.Mirrors.pure ⟨.refl hready, rfl, hname⟩
  | @var d hd hname =>
    have hrun : (Demo.valueOf d).run = fun c => .ok (.ok d.operand) c := funext hd.valueOf_eq
    show Evaluates d.type (Demo.valueOf d) (Demo.valueOf d)
    rw [show Demo.valueOf d = (pure d.operand : Checked Operand) from hrun]
    exact fun c hready => Checked.Mirrors.pure ⟨.refl hready, rfl, hname⟩
  | load h =>
    refine Evaluates.bind (Term.evaluates_generate h) fun hc hx => ?_
    refine (Checked.Mirrors.lift (.loadValue hc hx.2)).mono fun y c₁ ⟨h₁, hy⟩ => ?_
    rw [hy]
    exact ⟨h₁, hx.loaded.1⟩
  | unary h =>
    exact Evaluates.bind (Term.evaluates_generate h) fun hc hx => Checked.Mirrors.unary hc hx
  | binary hs ht =>
    exact Evaluates.bind₂ (Term.evaluates_generate hs) (Term.evaluates_generate ht)
      fun hc hx hy => Checked.Mirrors.binary hc hx hy
  | relation hs ht =>
    exact Evaluates.bind₂ (Term.evaluates_generate hs) (Term.evaluates_generate ht)
      fun hc hx hy => Checked.Mirrors.relation hc hx hy
  | equality hs ht =>
    exact Evaluates.bind₂ (Term.evaluates_generate hs) (Term.evaluates_generate ht)
      fun hc hx hy => Checked.Mirrors.equality hc hx hy
  | length h =>
    refine Evaluates.bind (Term.evaluates_generate h) fun hc hx => ?_
    exact (Checked.Mirrors.arrayLength hc hx).bind fun v c₁ hv => Checked.Mirrors.pure hv
  | element harray hindex =>
    -- the array is pushed before its index is evaluated
    intro c hready
    refine (Term.evaluates_generate harray c hready).bind fun x c₁ ⟨h₁, hx⟩ => ?_
    refine (Checked.Mirrors.lift (.loadValue h₁ hx.2)).bind fun y c₂ ⟨h₂, hy⟩ => ?_
    refine (Term.evaluates_generate hindex c₂ h₂.ready).bind fun z c₃ ⟨h₃, hz⟩ => ?_
    subst hy
    exact Checked.Mirrors.selectElement (h₂.trans h₃) hx.loaded.1 hx.loaded.2 hz
  | field h hfound hoffset hname =>
    exact Evaluates.bind (Term.evaluates_generate h) fun hc hx =>
      Checked.Mirrors.selectField hc hx hfound hoffset hname
  | call hs hbuiltin hresult harguments hparams =>
    intro c hready
    refine ((Terms.evaluatesAll harguments).mirrors (.refl hready)).bind fun xs c₁ ⟨h₁, hxs⟩ => ?_
    exact Checked.Mirrors.callFunction h₁ hs hbuiltin hresult hxs hparams
  | newRecord hsize => exact fun c hready => Checked.Mirrors.allocRecord (.refl hready) hsize
  | newArray hfirst hlater hmax =>
    have hall := Terms.evaluatesAll hlater
    have hints := hall.ints fun _ => List.eq_of_mem_replicate
    obtain rfl := hall.length_eq.trans List.length_replicate
    exact Creation.mirrors_noted (Term.evaluates_generate hfirst) hints hmax

/-- Terms that have types are compiled one after the other like without notes. -/
theorem Terms.evaluatesAll {ts : Terms} {types : List Ty} (h : ts.HaveTypes types) :
    EvaluatesAll types (ts.generate .noted) (ts.generate .lexical) := by
  cases h with
  | nil => exact .nil
  | cons h hrest => exact .cons (Term.evaluates_generate h) (Terms.evaluatesAll hrest)

end

/-- **New arrays do not take each other's lengths.**  Inside of a procedure, whatever has been
compiled before and whatever notes on lengths are left over from it, a term that has a type is
compiled as if each new array kept the words of its own lengths to itself, and the notes are the
same afterwards.  The only other outcome is a misuse with a frame of more than 255 words or more
than 65535 bytes of code. -/
theorem Term.lengths_kept_apart {rs : List Request} {log : List Exchange} {c : Compiler} {t : Term}
    {type : Ty} (hsession : session rs .empty = .ok log c) (hlabels : ∀ e ∈ log, e.TakesLabels)
    (hopen : c.assembler.procedure?.isSome = true) (htype : t.HasType type) :
    (∃ x c', (t.generate .noted).run c = .ok (.ok x) c' ∧
      (t.generate .lexical).run c = .ok (.ok x) c' ∧ x.type = type ∧
      c'.pendingLengths = c.pendingLengths) ∨
    ∃ misuse c', (t.generate .noted).run c = .error misuse c' ∧ c'.Exceeds := by
  have hready := ready_of_session hsession hlabels hopen
  rcases Term.evaluates_generate htype c hready with
    ⟨_, _, c', hnoted, hlexical, x, _, rfl, rfl, rfl, hevolves, hx⟩ | hfailed
  · have hrun := hlexical c.pendingLengths
    rw [hevolves.withPending_eq] at hrun
    exact Or.inl ⟨x, c', hnoted, hrun, hx.1, hevolves.pendingLengths⟩
  · exact Or.inr hfailed

/-- An array with three dimensions, the last length of which is that of another new array. -/
def Term.nested : Term :=
  .newArray .int (.operand (.int 2)) ⟨1, 9⟩ (.cons (.operand (.int 3)) ⟨1, 12⟩
    (.cons (.length (.newArray .int (.operand (.int 4)) ⟨1, 27⟩
      (.cons (.operand (.int 5)) ⟨1, 30⟩ .nil) ⟨1, 19⟩) ⟨1, 15⟩) ⟨1, 15⟩ .nil)) ⟨1, 1⟩

/-- The inner array is created while a word of the outer one is noted, above one that has been
abandoned. -/
theorem Term.lengths_kept_apart_abandoned : ∃ (log : List Exchange) (c : Compiler),
    session [.enter none, .construct (.storeLength 0 (.int 1)) ⟨1, 1⟩ (.int 0),
      .construct (.storeLength 1 (.int 2)) ⟨1, 1⟩ (.int 0)] .empty = .ok log c ∧
    c.pendingLengths = [[0]] ∧ ∃ x c', (Term.nested.generate .noted).run c = .ok (.ok x) c' ∧
      (Term.nested.generate .lexical).run c = .ok (.ok x) c' ∧ x.type = .array 2 .int ∧
      c'.pendingLengths = [[0]] := by
  let inMain (code : Array Slot) (size : Nat) (pending : List (List Word)) : Compiler :=
    { Compiler.empty with
      assembler := {
        code := ⟨code⟩, statics := .empty, labels := ⟨[("$main", 0)], []⟩
        procedure? := some ⟨"$main", 0, 2, size⟩, main? := some "$main" }
      mainEntered := true, exitLabel? := some "$main_end", pendingLengths := pending }
  let c₁ := inMain #[.known 48, .known 0, .hole] 0 []
  let c₂ := inMain #[.known 48, .known 0, .hole, .known 16] 0 []
  let c₃ := inMain #[.known 48, .known 0, .hole, .known 16, .known 17, .known 6, .known 0] 1 [[0]]
  have henter : Compiler.enter none .empty = .ok () c₁ := by decide +kernel
  have hfirst : (storeLength 0 (.int 1) ⟨1, 1⟩).run c₁ = .ok (.ok ()) c₂ := by decide +kernel
  have hsecond : (storeLength 1 (.int 2) ⟨1, 1⟩).run c₂ = .ok (.ok ()) c₃ := by decide +kernel
  let log : List Exchange := [⟨.empty, .enter none, .done, c₁⟩,
    ⟨c₁, .construct (.storeLength 0 (.int 1)) ⟨1, 1⟩ (.int 0), .compiled (.int 0) none, c₂⟩,
    ⟨c₂, .construct (.storeLength 1 (.int 2)) ⟨1, 1⟩ (.int 0), .compiled (.int 0) none, c₃⟩]
  have hsession : session [.enter none, .construct (.storeLength 0 (.int 1)) ⟨1, 1⟩ (.int 0),
      .construct (.storeLength 1 (.int 2)) ⟨1, 1⟩ (.int 0)] .empty = .ok log c₃ := by
    have hstart : (Request.enter none).run .empty = .ok .done c₁ :=
      Action.bind_eq_ok.mpr ⟨(), c₁, henter, rfl⟩
    have hpush : (Request.construct (.storeLength 0 (.int 1)) ⟨1, 1⟩ (.int 0)).run c₁
        = .ok (.compiled (.int 0) none) c₂ :=
      Action.bind_eq_ok.mpr ⟨.ok (.int 0, none), c₂,
        lend_return_eq_ok.mpr ⟨(), hfirst, rfl⟩, rfl⟩
    have hnote : (Request.construct (.storeLength 1 (.int 2)) ⟨1, 1⟩ (.int 0)).run c₂
        = .ok (.compiled (.int 0) none) c₃ :=
      Action.bind_eq_ok.mpr ⟨.ok (.int 0, none), c₃,
        lend_return_eq_ok.mpr ⟨(), hsecond, rfl⟩, rfl⟩
    exact session_of_run hstart (session_of_run hpush (session_of_run hnote (session_nil c₃)))
  have hlabels : ∀ e ∈ log, e.TakesLabels := by
    simp only [log, List.forall_mem_cons]
    exact ⟨fun _ h => (nomatch h), fun _ h => (nomatch h), fun _ h => (nomatch h),
      fun e he => absurd he List.not_mem_nil⟩
  have hnumber (v : Word) : Term.HasType (.operand (.int v)) .int := .operand trivial
  have htype : Term.nested.HasType (.array 2 .int) :=
    .newArray (hnumber 2) (.cons (hnumber 3) (.cons (.length (.newArray (n := 1) (hnumber 4)
      (.cons (hnumber 5) .nil) (by decide))) .nil)) (by decide)
  refine ⟨log, c₃, hsession, rfl, ?_⟩
  rcases Term.lengths_kept_apart hsession hlabels rfl htype with hdone | ⟨misuse, c', hrun, -⟩
  · exact hdone
  · have hok : (EStateM.run' (Term.nested.generate .noted).run c₃).isSome = true := by
      decide +kernel
    obtain ⟨v, hv⟩ := Option.isSome_iff_exists.mp hok
    obtain ⟨t, ht⟩ := Action.exists_ok_of_run' hv
    cases hrun.symm.trans ht

end MJ
