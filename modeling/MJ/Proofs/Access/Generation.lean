import MJ.Proofs.Access.Heap
import MJ.Proofs.Array.Supply

/-!
# The code of accesses

Compiling an expression appends instructions that depend on the expression and on the address where
they start, and on nothing else.  For an element the array and the index are pushed, for a field the
record; one more instruction loads or stores the word.

The compiler may refuse an expression only because an instruction has no room for the place of a
variable or a field.  Both directions are proved by induction on the expression: what is addressable
is compiled to its code, and what is compiled is addressable.

## Main definitions

* `Phrase.code`, `Access.code` — the instructions for an expression, and those before an element or
  field is loaded or stored.
* `Phrase.Addressable` — instructions can name all variables and fields of an expression.
* `Delivers`, `Needs`, `Writable` — what an action gives that compiles an operand, what it takes to
  push this operand, and code that can be written anywhere.

## Main results

* `Phrase.delivers`, `Phrase.needs` — an addressable expression is compiled to its code, and no
  other is compiled.
* `Phrase.writable_code` — this code can be written anywhere.
* `Access.store_eq` — so is an assignment, if the types are the same and the object may be changed.
* `Access.addressable_of_store` — no other assignment is compiled.
-/

namespace MJ

open Compiler Assembler

/-! ### Code -/

namespace Phrase

/-- The instructions that push the value of an expression, from the address `base` on.  The address
matters, since a comparison has targets in its own code. -/
def code (base : Nat) : Phrase → List Instruction
  | int v => [.ofConst v]
  | bool b => [.ofConst (boolWord b)]
  | var d => [d.region.loadInstruction d.offset]
  | unary op _ x => x.code base ++ op.code
  | binary op _ x y => pairCode base (x.code base) (fun b => y.code b) fun b => op.code b
  | relation op _ x y =>
    pairCode base (x.code base) (fun b => y.code b) fun b => compareCode op.comparison b
  | equality op _ x y =>
    pairCode base (x.code base) (fun b => y.code b) fun b => compareCode op.comparison b
  | element array index _ =>
    pairCode base (array.code base) (fun b => index.code b) fun _ => [.loadElement]
  | field record name _ => record.code base ++
    [Region.heap.loadInstruction (Int32.ofNat (record.type.fieldOffset name))]
  | length array _ => array.code base ++ [.arrayLength]

/-- Whether instructions can name the places of all variables and fields of an expression. -/
def Addressable : Phrase → Prop
  | int _ => True
  | bool _ => True
  | var d => d.IsAddressable
  | unary _ _ x => x.Addressable
  | binary _ _ x y => x.Addressable ∧ y.Addressable
  | relation _ _ x y => x.Addressable ∧ y.Addressable
  | equality _ _ x y => x.Addressable ∧ y.Addressable
  | element array index _ => array.Addressable ∧ index.Addressable
  | field record name _ => record.Addressable ∧
    Region.heap.offsetWidth.holds (Int32.ofNat (record.type.fieldOffset name)) = true
  | length array _ => array.Addressable

/-- Whether the program may not change what an expression names. -/
def isReadonly : Phrase → Bool
  | var d => d.isReadonly
  | element array _ _ => array.isReadonly
  | field record _ _ => record.isReadonly
  | _ => false

end Phrase

namespace Access

/-- The instructions that push the array and the index, or the record. -/
def code (base : Nat) : Access → List Instruction
  | element array index _ => pairCode base (array.code base) (fun b => index.code b) fun _ => []
  | field record _ _ => record.code base

/-- The instruction that then stores a value. -/
def storeInstruction : Access → Instruction
  | element _ _ _ => .storeElement
  | field record name _ =>
    Region.heap.storeInstruction (Int32.ofNat (record.type.fieldOffset name))

end Access

/-! ### Operands that an action gives -/

/-- An action gives an operand of a type, and its code pushes the value of the operand.  The operand
is not pushed yet: an element or a field may be assigned to instead. -/
def Delivers (g : Checked Operand) (type : Ty) (readonly : Bool) (code : Nat → List Instruction) :
    Prop :=
  ∀ c : Compiler, ∃ x a, g.run c = .ok (.ok x) (c.withAssembler a) ∧ x.type = type ∧
    x.isReadonly = readonly ∧
    pushFrom x a = .ok () (c.assembler.append (code c.assembler.code.size))

/-- An action that ends without misuse gives an operand of a type; it can be pushed only if
instructions can name all that they have to.  The condition comes at the pushing, because a variable
that is only named takes no instruction. -/
def Needs (g : Checked Operand) (type : Ty) (addressable : Prop) : Prop :=
  ∀ c r c', g.run c = .ok r c' → ∃ x, r = .ok x ∧ x.type = type ∧
    ∀ a, pushFrom x c'.assembler = .ok () a → addressable

/-- Pushes two operands from left to right and goes on with them.  Binary operators, comparisons and
tests for equality are all compiled so. -/
def pushPair (gx gy : Checked Operand) (k : Operand → Operand → Checked Operand) :
    Checked Operand := do
  let x ← (do loadValue (← gx) : Checked Operand)
  let y ← (do loadValue (← gy) : Checked Operand)
  k x y

/-- A value on the stack is not pushed again. -/
theorem pushFrom_ofType (t : Scalar) (a : Assembler) : pushFrom (.ofType t.ty) a = .ok () a :=
  pushFrom_of_isOnStack (by cases t <;> rfl) a

namespace Delivers

variable {g : Checked Operand} {type : Ty} {readonly : Bool} {code : Nat → List Instruction}

theorem of_value {t : Scalar} (h : ∀ c : Compiler, g.run c = .ok (.ok (.ofType t.ty))
    (c.withAssembler (c.assembler.append (code c.assembler.code.size)))) :
    Delivers g t.ty false code :=
  fun c => ⟨_, _, h c, rfl, rfl, pushFrom_ofType t _⟩

/-- Pushing the operand that an action gives. -/
theorem load (h : Delivers g type readonly code) (c : Compiler) :
    ∃ x : Operand, (do loadValue (← g) : Checked Operand).run c = .ok (.ok x)
        (c.withAssembler (c.assembler.append (code c.assembler.code.size))) ∧
      x.type = type ∧ x.isReadonly = readonly ∧ x.isOnStack = true := by
  obtain ⟨x, a, hrun, htype, hreadonly, hpush⟩ := h c
  refine ⟨x.loaded, ?_, by rw [Operand.type_loaded, htype],
    by rw [Operand.isReadonly_loaded, hreadonly], x.isOnStack_loaded⟩
  rw [Checked.bind_of_ok hrun]
  exact Checked.lift_of_ok (loadValue_of_ok (c := c.withAssembler a) hpush)

/-- The result of an operator between two operands is on the stack, after the code of both and that
of the operator. -/
theorem pair {gx gy : Checked Operand} {k : Operand → Operand → Checked Operand} {t u : Scalar}
    {rx ry : Bool} {cx cy op : Nat → List Instruction} (hx : Delivers gx t.ty rx cx)
    (hy : Delivers gy t.ty ry cy) (hk : Completes k t u op) :
    Delivers (pushPair gx gy k) u.ty false fun base => pairCode base (cx base) cy op := by
  refine .of_value fun c => ?_
  obtain ⟨x, hxrun, hxtype, -⟩ := hx.load c
  obtain ⟨y, hyrun, hytype, -⟩ := hy.load (c.withAssembler
    (c.assembler.append (cx c.assembler.code.size)))
  rw [pushPair, Checked.bind_of_ok hxrun, Checked.bind_of_ok hyrun, hk _ x y hxtype hytype]
  simp only [assembler_withAssembler, withAssembler_withAssembler, Assembler.append_append,
    Assembler.size_append, pairCode, Code.ofInstructions_append, List.length_append,
    Nat.add_assoc, List.append_assoc]

end Delivers

namespace Needs

variable {g : Checked Operand} {type : Ty} {addressable : Prop}

/-- An operand that was pushed. -/
theorem load (h : Needs g type addressable) {c c' : Compiler} {r : Except Diagnostic Operand}
    (hrun : (do loadValue (← g) : Checked Operand).run c = .ok r c') :
    addressable ∧ ∃ x, r = .ok x ∧ x.type = type := by
  obtain ⟨r₁, c₁, hg, hrest⟩ := Action.bind_eq_ok.mp hrun
  obtain ⟨x, rfl, htype, hneeds⟩ := h c r₁ c₁ hg
  obtain ⟨y, hload, rfl⟩ := Checked.lift_eq_ok.mp hrest
  obtain ⟨a, hpush⟩ := pushFrom_of_loadValue hload
  refine ⟨hneeds a hpush, y, rfl, ?_⟩
  obtain ⟨rfl, -⟩ := EStateM.Result.ok.inj ((loadValue_of_ok hpush).symm.trans hload)
  rw [Operand.type_loaded, htype]

/-- Both operands were pushed before the operator was compiled, and so both could be. -/
theorem pair {gx gy : Checked Operand} {k : Operand → Operand → Checked Operand} {t u : Scalar}
    {px py : Prop} {op : Nat → List Instruction} (hx : Needs gx t.ty px) (hy : Needs gy t.ty py)
    (hk : Completes k t u op) : Needs (pushPair gx gy k) u.ty (px ∧ py) := by
  intro c r c' hrun
  obtain ⟨r₁, c₁, hgx, hrun⟩ := Action.bind_eq_ok.mp hrun
  obtain ⟨hpx, x, rfl, hxtype⟩ := hx.load hgx
  obtain ⟨r₂, c₂, hgy, hrun⟩ := Action.bind_eq_ok.mp hrun
  obtain ⟨hpy, y, rfl, hytype⟩ := hy.load hgy
  obtain ⟨rfl, -⟩ := EStateM.Result.ok.inj ((hk c₂ x y hxtype hytype).symm.trans hrun)
  exact ⟨_, rfl, rfl, fun _ _ => ⟨hpx, hpy⟩⟩

end Needs

/-! ### What compiling an expression gives -/

/-- An element or field, whose object (and index) is on the stack.  All fields of the operand that
the compiler looks at later are here. -/
structure Operand.Selected (x : Operand) (place : Place) (type : Ty) (readonly : Bool) : Prop where
  place : x.place = place
  type : x.type = type
  isReadonly : x.isReadonly = readonly
  isGlobal : x.isGlobal = false
  isConstant : x.isConstant = false

namespace Compiler

theorem selectElement_eq {x y : Operand} {c : Compiler} {a : Assembler} {t : Ty}
    (ht : t.isArray = true) (hx : x.type = t) (hstack : x.isOnStack = true) (hy : y.type = .int)
    (hpush : pushFrom y c.assembler = .ok () a) (span : Span) :
    ∃ z : Operand, (selectElement x y span).run c = .ok (.ok z) (c.withAssembler a) ∧
      z.Selected .element t.elements x.isReadonly := by
  cases t with
  | array inner base =>
    have hload : (liftM (loadIfNeeded y) : Checked Unit).run c = .ok (.ok ()) (c.withAssembler a) :=
      Checked.lift_of_ok (assemble_of_ok hpush)
    rw [selectElement_of_array hx, hy, hstack]
    exact ⟨_, Checked.bind_of_ok hload, rfl, rfl, rfl, rfl, rfl⟩
  | _ => cases ht

theorem selectField_eq {schema : Schema} {x : Operand} {name : String} {c : Compiler} {t : Ty}
    (ht : t.HasField schema name) (hx : x.type = t) (hstack : x.isOnStack = true) (span : Span) :
    ∃ z : Operand, (selectField x name span).run c = .ok (.ok z) c ∧
      z.Selected .field (t.fieldType name) x.isReadonly ∧
      z.offset = Int32.ofNat (t.fieldOffset name) := by
  obtain ⟨rname, fields, found, rfl, hnumbered, hfound, -⟩ := ht
  obtain ⟨hoffset, -⟩ := Ty.offset_of_numbered hnumbered hfound
  have hload : (liftM (loadAddress x) : Checked Operand).run c = .ok (.ok x.loaded) c :=
    Checked.lift_of_ok (loadValue_of_ok (pushFrom_of_isOnStack hstack c.assembler))
  rw [selectField_of_field hx hfound hoffset]
  refine ⟨_, Checked.bind_of_ok hload, ⟨rfl, ?_, x.isReadonly_loaded, rfl, rfl⟩, rfl⟩
  rw [Ty.fieldType, hfound]
  rfl

end Compiler

namespace Phrase

variable {array index record : Phrase} {name : String} {span : Span} {readonly readonly' : Bool}
  {ca ci : Nat → List Instruction}

theorem generate_element_eq : (element array index span).generate
    = (do loadValue (← array.generate) : Checked Operand) >>= fun x =>
      index.generate >>= fun y => selectElement x y span := by
  show ((array.term.generate .noted >>= fun x => _) : Checked Operand) = _
  rw [bind_assoc]
  rfl

/-- The array and the index of an element are pushed. -/
theorem generate_element (harray : Delivers array.generate array.type readonly ca)
    (ht : array.type.isArray = true) (hindex : Delivers index.generate .int readonly' ci)
    (c : Compiler) :
    ∃ x : Operand, (element array index span).generate.run c = .ok (.ok x) (c.withAssembler
        (c.assembler.append (pairCode c.assembler.code.size (ca c.assembler.code.size) ci
          fun _ => []))) ∧
      x.Selected .element array.type.elements readonly := by
  obtain ⟨x, hxrun, hxtype, rfl, hstack⟩ := harray.load c
  obtain ⟨y, a, hyrun, hytype, -, hpush⟩ := hindex (c.withAssembler
    (c.assembler.append (ca c.assembler.code.size)))
  obtain ⟨z, hzrun, hz⟩ := selectElement_eq (c := c.withAssembler a) ht hxtype hstack hytype
    hpush span
  refine ⟨z, ?_, hz⟩
  rw [generate_element_eq, Checked.bind_of_ok hxrun, Checked.bind_of_ok hyrun,
    withAssembler_withAssembler, hzrun]
  simp only [pairCode, assembler_withAssembler, withAssembler_withAssembler,
    Assembler.append_append, Assembler.size_append, List.append_nil]

/-- The record of a field is pushed. -/
theorem generate_field {schema : Schema}
    (hrecord : Delivers record.generate record.type readonly ca)
    (ht : record.type.HasField schema name) (c : Compiler) :
    ∃ x : Operand, (field record name span).generate.run c = .ok (.ok x) (c.withAssembler
        (c.assembler.append (ca c.assembler.code.size))) ∧
      x.Selected .field (record.type.fieldType name) readonly ∧
      x.offset = Int32.ofNat (record.type.fieldOffset name) := by
  obtain ⟨x, hxrun, hxtype, rfl, hstack⟩ := hrecord.load c
  obtain ⟨z, hzrun, hz⟩ := selectField_eq ht hxtype hstack span
  refine ⟨z, ?_, hz⟩
  exact (Checked.bind_of_ok hxrun).trans hzrun

/-- The length of an array is pushed. -/
theorem generate_length (harray : Delivers array.generate array.type readonly ca)
    (ht : array.type.isArray = true) (c : Compiler) :
    (length array span).generate.run c = .ok (.ok (.ofType .int)) (c.withAssembler
      (c.assembler.append (ca c.assembler.code.size ++ [.arrayLength]))) := by
  obtain ⟨x, a, hxrun, hxtype, -, hpush⟩ := harray c
  have hload : (liftM (loadAddress x) : Checked Operand).run (c.withAssembler a)
      = .ok (.ok x.loaded) (c.withAssembler (c.assembler.append (ca c.assembler.code.size))) :=
    Checked.lift_of_ok (loadValue_of_ok (c := c.withAssembler a) hpush)
  have hlength : (arrayLength x span).run (c.withAssembler a) = .ok (.ok (x.loaded, .ofType .int))
      (c.withAssembler (c.assembler.append (ca c.assembler.code.size ++ [.arrayLength]))) := by
    rw [arrayLength_eq, hxtype, ht, ← Assembler.append_append]
    refine (Checked.bind_of_ok hload).trans ?_
    exact Checked.bind_of_ok
      (Checked.assemble_of_ok (Assembler.emit_instruction .arrayLength rfl _))
  refine (Checked.bind_of_ok hxrun).trans ?_
  exact Checked.bind_of_ok hlength

variable {schema : Schema} {vars : Vocabulary}

/-- **An addressable expression is compiled to its code.**  By induction on the expression: the
operands are compiled to theirs, and each constructor adds its own instructions. -/
theorem delivers {e : Phrase} (he : e.Typed schema vars) (h : e.Addressable) :
    Delivers e.generate e.type e.isReadonly fun base => e.code base := by
  induction e with
  | int v => exact fun c => ⟨_, c.assembler, rfl, rfl, rfl, Assembler.pushConst_eq v _⟩
  | bool b =>
    exact fun c => ⟨_, c.assembler, rfl, rfl, rfl, Assembler.pushConst_eq (boolWord b) _⟩
  | var d =>
    -- naming a variable takes no code; it is loaded when the operand is pushed
    intro c
    refine ⟨_, c.assembler, (vars.hasOffset d he).valueOf_eq c, rfl, rfl, ?_⟩
    rw [Decl.pushFrom_operand]
    exact Assembler.loadWord_eq h _
  | unary op span x ih =>
    refine .of_value fun c => ?_
    obtain ⟨y, a, hrun, htype, -, hpush⟩ := ih he.1 h c
    refine (Checked.bind_of_ok hrun).trans ?_
    refine (unary_eq (c := c.withAssembler a) (htype.trans he.2) hpush).trans ?_
    rw [Assembler.append_append]
    rfl
  | binary op span x y ihx ihy =>
    have hx := ihx he.1.1 h.1
    have hy := ihy he.2.1 h.2
    rw [he.1.2] at hx
    rw [he.2.2] at hy
    exact hx.pair hy (completes_binary op span)
  | relation op span x y ihx ihy =>
    have hx := ihx he.1.1 h.1
    have hy := ihy he.2.1 h.2
    rw [he.1.2] at hx
    rw [he.2.2] at hy
    exact Delivers.pair (t := .int) (u := .bool) hx hy (completes_relation op span)
  | equality op span x y ihx ihy =>
    obtain ⟨t, ⟨hxt, hx⟩, hyt, hy⟩ := he
    have hdx := ihx hxt h.1
    have hdy := ihy hyt h.2
    rw [hx] at hdx
    rw [hy] at hdy
    exact Delivers.pair (u := .bool) hdx hdy (completes_equality op t span)
  | element array index span iharray ihindex =>
    -- the operand is the place of the element, and its word is loaded when it is pushed
    intro c
    have hindex := ihindex he.2.1 h.2
    rw [he.2.2] at hindex
    obtain ⟨x, hrun, hx⟩ := generate_element (iharray he.1.1 h.1) he.1.2 hindex c
    refine ⟨x, _, hrun, hx.type, hx.isReadonly, ?_⟩
    rw [pushFrom, hx.place]
    refine (Assembler.emit_instruction .loadElement rfl _).trans ?_
    simp only [code, pairCode, Assembler.append_append, List.append_assoc, List.append_nil]
  | field record name span ih =>
    intro c
    obtain ⟨x, hrun, hx, hoffset⟩ := generate_field (ih he.1 h.1) he.2 c
    refine ⟨x, _, hrun, hx.type, hx.isReadonly, ?_⟩
    rw [pushFrom, hx.place, hoffset]
    refine (Assembler.loadWord_eq h.2 _).trans ?_
    rw [Assembler.append_append]
    rfl
  | length array span ih => exact .of_value (t := .int) (generate_length (ih he.1 h) he.2)

/-! ### What can be compiled -/

/-- The index of an element was pushed. -/
theorem pushFrom_of_selectElement {x y : Operand} {c c' : Compiler}
    {r : Except Diagnostic Operand} {t : Ty} (ht : t.isArray = true) (hx : x.type = t)
    (hy : y.type = .int) (h : (selectElement x y span).run c = .ok r c') :
    ∃ a, pushFrom y c.assembler = .ok () a := by
  cases t with
  | array inner base =>
    rw [selectElement_of_array hx, hy] at h
    cases hstack : x.isOnStack with
    | false =>
      -- the array has to be loaded before
      rw [hstack] at h
      cases h
    | true =>
      rw [hstack] at h
      obtain ⟨r₁, c₁, hload⟩ := Checked.exists_ok_of_bind h
      obtain ⟨v, hload, -⟩ := Checked.lift_eq_ok.mp hload
      obtain ⟨a, hpush, -⟩ := assemble_eq_ok.mp hload
      exact ⟨a, hpush⟩
  | _ => cases ht

theorem pushFrom_of_arrayLength {x : Operand} {c c' : Compiler}
    {r : Except Diagnostic (Operand × Operand)} (hx : x.type.isArray = true)
    (h : (arrayLength x span).run c = .ok r c') : ∃ a, pushFrom x c.assembler = .ok () a := by
  rw [arrayLength_eq, hx] at h
  obtain ⟨r₁, c₁, hload⟩ := Checked.exists_ok_of_bind h
  obtain ⟨y, hload, -⟩ := Checked.lift_eq_ok.mp hload
  exact pushFrom_of_loadValue hload

/-- The array and the index of an element were pushed. -/
theorem of_generate_element {pa pi : Prop} (harray : Needs array.generate array.type pa)
    (ht : array.type.isArray = true) (hindex : Needs index.generate .int pi) {c c' : Compiler}
    {r : Except Diagnostic Operand}
    (h : (element array index span).generate.run c = .ok r c') : pa ∧ pi := by
  rw [generate_element_eq] at h
  obtain ⟨r₁, c₁, hload, h⟩ := Action.bind_eq_ok.mp h
  obtain ⟨hpa, x, rfl, hx⟩ := harray.load hload
  obtain ⟨r₂, c₂, hrun, h⟩ := Action.bind_eq_ok.mp h
  obtain ⟨y, rfl, hy, hneeds⟩ := hindex _ _ _ hrun
  obtain ⟨a, hpush⟩ := pushFrom_of_selectElement ht hx hy h
  exact ⟨hpa, hneeds a hpush⟩

/-- The record of a field was pushed. -/
theorem of_generate_field {p : Prop} (hrecord : Needs record.generate record.type p)
    {c c' : Compiler} {r : Except Diagnostic Operand}
    (h : (field record name span).generate.run c = .ok r c') : p := by
  obtain ⟨r₁, c₁, hload, -⟩ := Action.bind_eq_ok.mp h
  exact (hrecord.load hload).1

/-- **Only addressable expressions can be compiled.**  By induction on the expression; once its
parts are known to be addressable, they are compiled to their code, and the last operand is known.
-/
theorem needs {e : Phrase} (he : e.Typed schema vars) :
    Needs e.generate e.type e.Addressable := by
  induction e with
  | int v | bool b =>
    intro c r c' hrun
    obtain ⟨rfl, -⟩ := EStateM.Result.ok.inj hrun
    exact ⟨_, rfl, rfl, fun _ _ => trivial⟩
  | var d =>
    intro c r c' hrun
    obtain ⟨rfl, -⟩ :=
      EStateM.Result.ok.inj (((vars.hasOffset d he).valueOf_eq c).symm.trans hrun)
    refine ⟨_, rfl, rfl, fun a hpush => ?_⟩
    rw [Decl.pushFrom_operand] at hpush
    exact Assembler.holds_of_emitWith hpush
  | unary op span x ih =>
    intro c r c' hrun
    obtain ⟨r₁, c₁, hgenerate, hunary⟩ := Action.bind_eq_ok.mp hrun
    obtain ⟨y, rfl, htype, hneeds⟩ := ih he.1 c r₁ c₁ hgenerate
    have htype := htype.trans he.2
    obtain ⟨a, hpush⟩ := pushFrom_of_unary htype hunary
    obtain ⟨rfl, -⟩ := EStateM.Result.ok.inj ((unary_eq htype hpush).symm.trans hunary)
    exact ⟨_, rfl, rfl, fun _ _ => hneeds a hpush⟩
  | binary op span x y ihx ihy =>
    have hx := ihx he.1.1
    have hy := ihy he.2.1
    rw [he.1.2] at hx
    rw [he.2.2] at hy
    exact hx.pair hy (completes_binary op span)
  | relation op span x y ihx ihy =>
    have hx := ihx he.1.1
    have hy := ihy he.2.1
    rw [he.1.2] at hx
    rw [he.2.2] at hy
    exact Needs.pair (t := .int) (u := .bool) hx hy (completes_relation op span)
  | equality op span x y ihx ihy =>
    obtain ⟨t, ⟨hxt, hx⟩, hyt, hy⟩ := he
    have hnx := ihx hxt
    have hny := ihy hyt
    rw [hx] at hnx
    rw [hy] at hny
    exact Needs.pair (u := .bool) hnx hny (completes_equality op t span)
  | element array index span iharray ihindex =>
    intro c r c' hrun
    have hneeds := ihindex he.2.1
    rw [he.2.2] at hneeds
    -- the array and the index have been pushed, so that the operand is known
    have haddressable := of_generate_element (iharray he.1.1) he.1.2 hneeds hrun
    have hindex := delivers he.2.1 haddressable.2
    rw [he.2.2] at hindex
    obtain ⟨x, hrun', hx⟩ := generate_element (delivers he.1.1 haddressable.1) he.1.2 hindex c
    obtain ⟨rfl, -⟩ := EStateM.Result.ok.inj (hrun'.symm.trans hrun)
    exact ⟨x, rfl, hx.type, fun _ _ => haddressable⟩
  | field record name span ih =>
    intro c r c' hrun
    have haddressable := of_generate_field (ih he.1) hrun
    obtain ⟨x, hrun', hx, hoffset⟩ := generate_field (delivers he.1 haddressable) he.2 c
    obtain ⟨rfl, -⟩ := EStateM.Result.ok.inj (hrun'.symm.trans hrun)
    refine ⟨x, rfl, hx.type, fun a hpush => ⟨haddressable, ?_⟩⟩
    rw [pushFrom, hx.place, hoffset] at hpush
    exact Assembler.holds_of_emitWith hpush
  | length array span ih =>
    intro c r c' hrun
    obtain ⟨r₁, c₁, hgenerate, hlength⟩ := Action.bind_eq_ok.mp hrun
    obtain ⟨x, rfl, htype, hneeds⟩ := ih he.1 c r₁ c₁ hgenerate
    obtain ⟨r₂, c₂, hlength, -⟩ := Action.bind_eq_ok.mp hlength
    have hx : x.type.isArray = true := by rw [htype, he.2]
    obtain ⟨a, hpush⟩ := pushFrom_of_arrayLength hx hlength
    have haddressable := hneeds a hpush
    obtain ⟨rfl, -⟩ := EStateM.Result.ok.inj
      ((generate_length (delivers he.1 haddressable) he.2 c).symm.trans hrun)
    exact ⟨_, rfl, rfl, fun _ _ => haddressable⟩

end Phrase

/-! ### The code as a sequence of effects -/

/-- Code that can be written at any address, after whatever program there is. -/
def Writable (code : Nat → List Instruction) : Prop :=
  ∀ a : Assembler, Assembler.Effects a (a.append (code a.code.size))

namespace Writable

theorem of_regular {x : Asm Unit} {code : Nat → List Instruction} (hx : x.Regular)
    (h : ∀ a, x a = .ok () (a.append (code a.code.size))) : Writable code :=
  fun a => hx (h a)

/-- Code and the instructions that follow it. -/
theorem append {code : Nat → List Instruction} {is : List Instruction} (h : Writable code)
    (his : Writable fun _ => is) : Writable fun base => code base ++ is := by
  intro a
  have heffects := (h a).trans (his _)
  rw [Assembler.append_append] at heffects
  exact heffects

theorem pair {cx cy op : Nat → List Instruction} (hx : Writable cx) (hy : Writable cy)
    (hop : Writable op) : Writable fun base => pairCode base (cx base) cy op := by
  intro a
  have heffects := ((hx a).trans (hy _)).trans (hop _)
  simp only [Assembler.append_append, Assembler.size_append, Code.ofInstructions_append,
    List.length_append, ← Nat.add_assoc, List.append_assoc] at heffects
  exact heffects

theorem unary (op : Unary) : Writable fun _ => op.code := by
  cases op with
  | plus => exact fun a => .refl
  | minus => exact .of_regular Command.neg.regular (emit_instruction .neg rfl)
  | not => exact .of_regular Command.negation.regular negation_eq

theorem binary (op : Binary) : Writable fun base => op.code base := by
  refine .of_regular ?_ (emitBinary_eq op)
  cases op with
  | or => exact Command.disjunction.regular
  | add | sub | mul | div | mod | and => exact (Asm.Writes.emit rfl (by decide)).regular

theorem compare (test : Comparison) : Writable fun base => compareCode test base :=
  .of_regular (Command.compare test).regular (compare_eq test)

end Writable

/-- The code of an addressable expression can be written.  The invariants of programs hold of it
then, for which the commands are enough. -/
theorem Phrase.writable_code {e : Phrase} (h : e.Addressable) :
    Writable fun base => e.code base := by
  induction e with
  | int v => exact .of_regular (Command.pushConst v).regular (pushConst_eq v)
  | bool b => exact .of_regular (Command.pushConst _).regular (pushConst_eq (boolWord b))
  | var d => exact .of_regular (Command.loadWord _ _).regular (loadWord_eq h)
  | unary op span x ih => exact (ih h).append (.unary op)
  | binary op span x y ihx ihy => exact (ihx h.1).pair (ihy h.2) (.binary op)
  | relation op span x y ihx ihy => exact (ihx h.1).pair (ihy h.2) (.compare _)
  | equality op span x y ihx ihy => exact (ihx h.1).pair (ihy h.2) (.compare _)
  | element array index span iharray ihindex =>
    exact (iharray h.1).pair (ihindex h.2)
      (.of_regular Command.loadElement.regular (emit_instruction .loadElement rfl))
  | field record name span ih =>
    exact (ih h.1).append (.of_regular (Command.loadWord _ _).regular (loadWord_eq h.2))
  | length array span ih =>
    exact (ih h).append
      (.of_regular Command.arrayLength.regular (emit_instruction .arrayLength rfl))

/-! ### Assignments -/

namespace Compiler

/-- An element or a field is assigned to just if it may be changed and the value is of its type.  No
code is written before this is known. -/
theorem assign_eq_ok {x y : Operand} {place : Place} {type : Ty} {readonly : Bool} {span : Span}
    {c c' : Compiler} (hx : x.Selected place type readonly) :
    (assign x y span).run c = .ok (.ok ()) c' ↔ readonly = false ∧ type.same y.type = true ∧
      ∃ a, pushFrom y c.assembler = .ok () a ∧ store x (c.withAssembler a) = .ok () c' := by
  obtain ⟨-, rfl, rfl, hglobal, hconstant⟩ := hx
  -- the two checks of the compiler, in their order
  cases hreadonly : x.isReadonly with
  | true =>
    rw [assign, hreadonly, hconstant]
    exact ⟨nofun, nofun⟩
  | false =>
    cases hsame : x.type.same y.type with
    | false =>
      have hne : (x.type != y.type) = true := by
        show (!x.type.same y.type) = true
        rw [hsame]
        rfl
      rw [assign, hreadonly, hne]
      exact ⟨nofun, nofun⟩
    | true =>
      have hne : (x.type != y.type) = false := by
        show (!x.type.same y.type) = false
        rw [hsame]
        rfl
      rw [assign, hreadonly, hne, hglobal]
      constructor
      · intro h
        obtain ⟨r₁, c₁, hload, hrest⟩ := Action.bind_eq_ok.mp h
        obtain ⟨u, hassemble, rfl⟩ := Checked.lift_eq_ok.mp hload
        obtain ⟨a, hpush, rfl⟩ := assemble_eq_ok.mp hassemble
        obtain ⟨u, hstore, -⟩ := Checked.lift_eq_ok.mp hrest
        exact ⟨rfl, rfl, a, hpush, hstore⟩
      · rintro ⟨-, -, a, hpush, hstore⟩
        have hload : (liftM (loadIfNeeded y) : Checked Unit).run c
            = .ok (.ok ()) (c.withAssembler a) :=
          Checked.lift_of_ok (assemble_of_ok hpush)
        exact (Checked.bind_of_ok hload).trans (Checked.lift_of_ok hstore)

end Compiler

namespace Access

variable {schema : Schema} {scope : Scope} {x : Access} {e : Phrase} {span : Span}

/-- The instructions of an assignment. -/
def storeCode (base : Nat) (x : Access) (e : Phrase) : List Instruction :=
  pairCode base (x.code base) (fun b => e.code b) fun _ => [x.storeInstruction]

/-- Whether instructions can name all that comes before the element or field. -/
def Reachable : Access → Prop
  | element array index _ => array.Addressable ∧ index.Addressable
  | field record _ _ => record.Addressable

/-- The kind of place. -/
def kind : Access → Place
  | element _ _ _ => .element
  | field _ _ _ => .field

/-- The object is pushed.  Whether the word in it can be loaded or stored depends on the field. -/
theorem generate_eq (hx : x.phrase.WellTyped schema scope) (h : x.Reachable) (c : Compiler) :
    ∃ z : Operand, x.phrase.generate.run c = .ok (.ok z)
        (c.withAssembler (c.assembler.append (x.code c.assembler.code.size))) ∧
      z.Selected x.kind x.phrase.type x.phrase.isReadonly ∧
      ∀ c', (x.phrase.Addressable → Compiler.store z c' = .ok ()
          (c'.withAssembler (c'.assembler.append [x.storeInstruction]))) ∧
        ∀ c'', Compiler.store z c' = .ok () c'' → x.phrase.Addressable := by
  cases x with
  | element array index span =>
    have hindex := Phrase.delivers hx.2.1 h.2
    rw [hx.2.2] at hindex
    obtain ⟨z, hrun, hz⟩ := Phrase.generate_element (Phrase.delivers hx.1.1 h.1) hx.1.2 hindex c
    refine ⟨z, hrun, hz, fun c' => ⟨fun _ => ?_, fun _ _ => h⟩⟩
    rw [Compiler.store, hz.place]
    exact assemble_of_ok (Assembler.emit_instruction .storeElement rfl _)
  | field record name span =>
    obtain ⟨z, hrun, hz, hoffset⟩ := Phrase.generate_field (Phrase.delivers hx.1 h) hx.2 c
    refine ⟨z, hrun, hz, fun c' => ⟨fun h' => ?_, fun c'' hstore => ⟨h, ?_⟩⟩⟩
    -- the number of a field is an operand, and so it has to fit; an index is on the stack
    · rw [Compiler.store, hz.place, hoffset]
      exact assemble_of_ok (Assembler.storeWord_eq h'.2 _)
    · rw [Compiler.store, hz.place, hoffset] at hstore
      obtain ⟨a, hstore, -⟩ := assemble_eq_ok.mp hstore
      exact Assembler.holds_of_emitWith hstore

theorem reachable_of_generate (hx : x.phrase.WellTyped schema scope) {c c' : Compiler}
    {r : Except Diagnostic Operand} (h : x.phrase.generate.run c = .ok r c') : x.Reachable := by
  cases x with
  | element array index span =>
    have hindex := Phrase.needs hx.2.1
    rw [hx.2.2] at hindex
    exact Phrase.of_generate_element (Phrase.needs hx.1.1) hx.1.2 hindex h
  | field record name span => exact Phrase.of_generate_field (Phrase.needs hx.1) h

theorem reachable_of_addressable (h : x.phrase.Addressable) : x.Reachable := by
  cases x with
  | element array index span => exact h
  | field record name span => exact h.1

/-- **An assignment is compiled to its code**, if instructions can name all its places, the object
may be changed and the value is of the right type. -/
theorem store_eq (hx : x.phrase.WellTyped schema scope) (he : e.WellTyped schema scope)
    (hxa : x.phrase.Addressable) (hea : e.Addressable) (hreadonly : x.phrase.isReadonly = false)
    (hsame : x.phrase.type.same e.type = true) (c : Compiler) :
    (x.store e span).run c = .ok (.ok ()) (c.withAssembler
      (c.assembler.append (x.storeCode c.assembler.code.size e))) := by
  obtain ⟨z, hxrun, hz, hstore⟩ := generate_eq hx (reachable_of_addressable hxa) c
  obtain ⟨y, a, herun, hytype, -, hpush⟩ := Phrase.delivers he hea (c.withAssembler
    (c.assembler.append (x.code c.assembler.code.size)))
  rw [store, Checked.bind_of_ok hxrun, Checked.bind_of_ok herun, assign_eq_ok hz, hytype]
  refine ⟨hreadonly, hsame, _, hpush, ((hstore _).1 hxa).trans ?_⟩
  simp only [storeCode, pairCode, assembler_withAssembler, withAssembler_withAssembler,
    Assembler.append_append, Assembler.size_append, List.append_assoc]

/-- **No other assignment is compiled.**  An assignment that ends without misuse and without a
defect has passed all checks, and its instructions have room for what they name. -/
theorem addressable_of_store (hx : x.phrase.WellTyped schema scope)
    (he : e.WellTyped schema scope) {c c' : Compiler}
    (h : (x.store e span).run c = .ok (.ok ()) c') :
    x.phrase.Addressable ∧ e.Addressable ∧ x.phrase.isReadonly = false ∧
      x.phrase.type.same e.type = true := by
  obtain ⟨r₁, c₁, hxrun, h⟩ := Action.bind_eq_ok.mp h
  obtain ⟨z, hxrun', hz, hstore⟩ := generate_eq hx (reachable_of_generate hx hxrun) c
  obtain ⟨rfl, rfl⟩ := EStateM.Result.ok.inj (hxrun'.symm.trans hxrun)
  obtain ⟨r₂, c₂, herun, h⟩ := Action.bind_eq_ok.mp h
  obtain ⟨y, rfl, hytype, hneeds⟩ := Phrase.needs he _ _ _ herun
  obtain ⟨hreadonly, hsame, a, hpush, hstored⟩ := (assign_eq_ok hz).mp h
  exact ⟨(hstore _).2 _ hstored, hneeds a hpush, hreadonly, hytype ▸ hsame⟩

end Access
end MJ
