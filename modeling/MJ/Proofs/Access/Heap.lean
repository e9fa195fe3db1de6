import MJ.Proofs.Access.Syntax
import MJ.Proofs.Array.Heap
import MJ.Proofs.Array.Layout
import MJ.Proofs.TypeShape

/-!
# Objects of the right types

The heap of a well-typed program is made of objects that share no words.  A word that stands for an
array or a record is 0 or the address of an object of that type.  As long as this holds, an access
leads to a word of the object whose address it starts from; and it goes on to hold when such a word
is changed to a value of its type.

## Main definitions

* `Object` — an array or a record on the heap.
* `Suits` — a word stands for a value of a type.
* `HeapTyped`, `Memory.Typed` — all words of objects, and all variables, stand for values of their
  types.
* `Memory.Serves` — what an expression looks at stands for values of the right types.

## Main results

* `HeapTyped.cell_of_place` — an access leads into the object that it names.
* `Phrase.eval_suits` — the value of an expression is of its type.
* `HeapTyped.set` — a change of one word to a value of its type.
* `Access.alike_of_place` — what leads to the same word is an element or field of the same kind.
* `Access.member_set` — a direct path leads to where it led before, after an assignment through it.
-/

namespace MJ

/-! ### Elements and fields -/

namespace Ty

/-- The elements of arrays of the same type are of the same type.  Types are the same to the
compiler if it does not tell them apart, which is weaker than equality. -/
theorem elements_same {s t : Ty} (h : s.same t = true) : s.elements.same t.elements = true := by
  cases s with
  | array m s =>
    cases t with
    | array n t => exact element_of_beq h
    | _ => cases h
  | _ =>
    cases t with
    | array n t => cases h
    | _ => exact h

/-- The elements of an array have one dimension less. -/
theorem depth_elements {t : Ty} (h : t.isArray = true) : t.depth = t.elements.depth + 1 := by
  cases t with
  | array inner base =>
    cases inner with
    | zero => simp only [depth, shape, Shape.depth, elements, element, Nat.zero_add, Nat.add_comm]
    | succ inner => simp only [depth, shape, Shape.depth, elements, element, Nat.add_right_comm]
  | _ => cases h

/-- The number of a field is its place in the order of declaration.  By induction on the fields,
with the number of the first one as a parameter. -/
theorem offset_numberFrom {fields : List (Field Ty)} {field : String} {found : Field Ty} {n : Nat}
    (h : findField? (numberFrom n fields) field = some found) :
    found.offset? = some (Int32.ofNat (n + fields.findIdx (·.name == field))) ∧
      fields.findIdx (·.name == field) < fields.length := by
  induction fields generalizing n with
  | nil => cases h
  | cons f fs ih =>
    unfold findField? at h ih
    rw [numberFrom, List.find?_cons] at h
    rw [List.findIdx_cons]
    cases hname : f.name == field with
    | true =>
      simp only [hname, Option.some.injEq] at h
      subst h
      exact ⟨rfl, Nat.succ_pos _⟩
    | false =>
      simp only [hname] at h
      obtain ⟨hoffset, hlt⟩ := ih h
      simp only [cond_false]
      rw [hoffset, Nat.add_assoc, Nat.add_comm 1]
      exact ⟨rfl, Nat.succ_lt_succ hlt⟩

theorem offset_of_numbered {name field : String} {fields : List (Field Ty)} {found : Field Ty}
    (hnumbered : (record name fields).numberFields = record name fields)
    (h : findField? fields field = some found) :
    found.offset? = some (Int32.ofNat ((record name fields).fieldOffset field)) ∧
      (record name fields).fieldOffset field < fields.length := by
  have hfields : numberFrom 0 fields = fields := (Ty.record.inj hnumbered).2
  rw [← hfields] at h
  have hoffset := offset_numberFrom h
  rw [Nat.zero_add] at hoffset
  exact hoffset

end Ty

open Machine

/-! ### Objects -/

/-- An array or a record on the heap.  The machine does not keep the types of objects; they are
known from how the objects were created. -/
inductive Object where
  /-- An array of a type with `inner + 1` dimensions. -/
  | array (address length inner : Nat) (base : Ty)
  /-- A record. -/
  | record (address : Nat) (name : String) (fields : List (Field Ty))

namespace Object

/-- The address of the first word. -/
def address : Object → Nat
  | array address _ _ _ => address
  | record address _ _ => address

def type : Object → Ty
  | array _ _ inner base => .array inner base
  | record _ name fields => .record name fields

/-- The words of an object.  A record without fields has one, too. -/
def block : Object → Block
  | array address length _ _ => ⟨address, length + 1⟩
  | record address _ fields => ⟨address, max fields.length 1⟩

/-- The length of an array. -/
def length? : Object → Option Nat
  | array _ length _ _ => some length
  | record _ _ _ => none

/-- The type of the element or field that is the word `k` of an object.  The first word of an array
is its length. -/
def cell? (schema : Schema) (k : Nat) : Object → Option Ty
  | array _ length inner base => if 0 < k ∧ k ≤ length then some (Ty.element inner base) else none
  | record _ name fields =>
    if k < fields.length then some (schema name fields.length k) else none

variable {schema : Schema} {o : Object} {k : Nat} {t : Ty}

theorem start_block (o : Object) : o.block.start = o.address := by cases o <;> rfl

theorem address_lt_stop (o : Object) : o.address < o.block.stop := by
  cases o with
  | array a n inner base => exact Nat.lt_add_of_pos_right (Nat.succ_pos n)
  | record a name fields =>
    exact Nat.lt_add_of_pos_right (Nat.lt_of_lt_of_le Nat.one_pos (Nat.le_max_right _ _))

theorem cell_lt_stop (h : o.cell? schema k = some t) : o.address + k < o.block.stop := by
  cases o with
  | array a n inner base =>
    obtain ⟨hk, -⟩ := Option.ite_none_right_eq_some.mp h
    simp only [address, block, Block.stop]
    omega
  | record a name fields =>
    obtain ⟨hk, -⟩ := Option.ite_none_right_eq_some.mp h
    simp only [address, block, Block.stop]
    omega

/-- No element is the length. -/
theorem cell_ne_zero (h : o.cell? schema k = some t) {n : Nat} (hn : o.length? = some n) :
    k ≠ 0 := by
  cases o with
  | array a n inner base =>
    obtain ⟨hk, -⟩ := Option.ite_none_right_eq_some.mp h
    exact Nat.ne_of_gt hk.1
  | record a name fields => cases hn

end Object

/-- A word stands for a value of a type: a truth value is 0 or 1, and an array or a record is 0 or
the address of an object of the same type. -/
structure Suits (objects : List Object) (t : Ty) (w : Word) : Prop where
  bool : t.isBool = true → w = 0 ∨ w = 1
  reference : t.isReference = true → w = 0 ∨
    ∃ o ∈ objects, w = Int32.ofNat o.address ∧ o.type.same t = true

namespace Suits

variable {objects : List Object} {t u : Ty} {w : Word}

theorem zero (objects : List Object) (t : Ty) : Suits objects t 0 :=
  ⟨fun _ => Or.inl rfl, fun _ => Or.inl rfl⟩

theorem int (objects : List Object) (w : Word) : Suits objects .int w := ⟨nofun, nofun⟩

/-- The address of an object. -/
theorem ofObject {o : Object} (ho : o ∈ objects) :
    Suits objects o.type (Int32.ofNat o.address) := by
  refine ⟨fun hbool => ?_, fun _ => Or.inr ⟨o, ho, rfl, Ty.beq_equivalence.refl _⟩⟩
  cases o <;> cases hbool

theorem boolWord (objects : List Object) (b : Bool) : Suits objects .bool (boolWord b) := by
  refine ⟨fun _ => ?_, nofun⟩
  cases b with
  | false => exact Or.inl rfl
  | true => exact Or.inr rfl

theorem same (h : Suits objects t w) (hsame : t.same u = true) : Suits objects u w := by
  refine ⟨fun hbool => h.bool ((Ty.kinds_of_beq hsame).2.1.trans hbool), fun href => ?_⟩
  rcases h.reference ((Ty.kinds_of_beq hsame).2.2.2.2.2.trans href) with hzero | ⟨o, ho, hw, htype⟩
  · exact Or.inl hzero
  · exact Or.inr ⟨o, ho, hw, Ty.beq_equivalence.trans htype hsame⟩

theorem mono {objects' : List Object} (h : Suits objects t w) (hsub : ∀ o ∈ objects, o ∈ objects') :
    Suits objects' t w := by
  refine ⟨h.bool, fun href => ?_⟩
  rcases h.reference href with hzero | ⟨o, ho, hw⟩
  · exact Or.inl hzero
  · exact Or.inr ⟨o, hsub o ho, hw⟩

/-- A truth value is what its word stands for. -/
theorem word_ofWord {t : Scalar} (h : Suits objects t.ty w) : t.word (t.ofWord w) = w := by
  cases t with
  | int => rfl
  | bool => rcases h.bool rfl with rfl | rfl <;> rfl

theorem word (objects : List Object) (t : Scalar) (v : t.Value) :
    Suits objects t.ty (t.word v) := by
  cases t with
  | int => exact int objects v
  | bool => exact boolWord objects v

end Suits

/-- The heap is made of objects that share no words, behind a word that belongs to none.  The
lengths of arrays are right, and all elements and fields stand for values of their types.  Addresses
are words, which is why the size is bounded. -/
structure HeapTyped (schema : Schema) (objects : List Object) (heap : Array Word) : Prop where
  pos : 0 < heap.size
  size : heap.size ≤ 2147483648
  inside : ∀ o ∈ objects, 0 < o.address ∧ o.block.stop ≤ heap.size
  apart : ∀ o ∈ objects, ∀ p ∈ objects, o ≠ p → o.block.Apart p.block
  length : ∀ o ∈ objects, ∀ n, o.length? = some n → heap[o.address]? = some (Int32.ofNat n)
  cell : ∀ o ∈ objects, ∀ k t, o.cell? schema k = some t →
    ∃ w, heap[o.address + k]? = some w ∧ Suits objects t w

/-- The heap is made of objects, and the variables stand for values of their types. -/
structure Memory.Typed (schema : Schema) (scope : Scope) (objects : List Object) (m : Memory) :
    Prop where
  heap : HeapTyped schema objects m.heap
  word : ∀ d ∈ scope.decls, Suits objects d.type (m.word d)

/-- What an expression looks at stands for values of the right types.  An expression that does not
look at the heap has a value whatever is on the heap. -/
structure Memory.Serves (schema : Schema) (vars : Vocabulary) (objects : List Object) (e : Phrase)
    (m : Memory) : Prop where
  word : ∀ d, vars.Has d → Suits objects d.type (m.word d)
  heap : e.IsPlain ∨ HeapTyped schema objects m.heap

theorem Memory.Typed.serves {schema : Schema} {scope : Scope} {objects : List Object} {m : Memory}
    (h : m.Typed schema scope objects) (e : Phrase) : m.Serves schema scope.vocabulary objects e :=
  ⟨h.word, .inr h.heap⟩

/-- What serves an expression serves its parts, also if only the expression as a whole is known to
look at the heap. -/
theorem Memory.Serves.part {schema : Schema} {vars : Vocabulary} {objects : List Object}
    {m : Memory} {e x : Phrase} (h : m.Serves schema vars objects e)
    (hpart : e.IsPlain → x.IsPlain) :
    m.Serves schema vars objects x :=
  ⟨h.word, h.heap.imp_left hpart⟩

/-- An element or field, whose object stands for an array or a record of a type that has it. -/
inductive Member.Typed (schema : Schema) (objects : List Object) :
    Member → (whole part : Ty) → Prop
  /-- An element. -/
  | element {t : Ty} {base : Word} (index : Word) (ht : t.isArray = true)
    (hbase : Suits objects t base) : Typed schema objects (.element base index) t t.elements
  /-- A field. -/
  | field {t : Ty} {base : Word} {name : String} (ht : t.HasField schema name)
    (hbase : Suits objects t base) :
    Typed schema objects (.field base (t.fieldOffset name)) t (t.fieldType name)

/-! ### Access to objects -/

namespace HeapTyped

variable {schema : Schema} {objects : List Object} {heap : Array Word} {t whole : Ty} {w : Word}

theorem address_lt (h : HeapTyped schema objects heap) {o : Object} (ho : o ∈ objects) :
    o.address < 2147483648 := by
  have hlt := o.address_lt_stop
  have hle := (h.inside o ho).2
  have hsize := h.size
  omega

/-- A word belongs to one object only, since objects share none. -/
theorem eq_of_mem (h : HeapTyped schema objects heap) {o p : Object} (ho : o ∈ objects)
    (hp : p ∈ objects) {k : Nat} (hok : o.address ≤ k ∧ k < o.block.stop)
    (hpk : p.address ≤ k ∧ k < p.block.stop) : o = p := by
  by_contra hne
  have hapart := h.apart o ho p hp hne
  rw [Block.Apart, o.start_block, p.start_block] at hapart
  omega

/-- An array that is not null is an object, with its length in the first word. -/
theorem array_of_suits (h : HeapTyped schema objects heap) (ht : t.isArray = true)
    (hsuits : Suits objects t w) (hne : w ≠ 0) : ∃ a n inner base,
      Object.array a n inner base ∈ objects ∧ (Ty.array inner base).same t = true ∧
        w = Int32.ofNat a ∧ a + (n + 1) ≤ heap.size ∧ heap[a]? = some (Int32.ofNat n) := by
  have href : t.isReference = true := by rw [Ty.isReference, ht, Bool.true_or]
  rcases hsuits.reference href with hzero | ⟨o, ho, rfl, hsame⟩
  · exact absurd hzero hne
  · cases o with
    | array a n inner base =>
      exact ⟨a, n, inner, base, ho, hsame, rfl, (h.inside _ ho).2, h.length _ ho n rfl⟩
    | record a name fields =>
      cases t with
      | array inner base => cases hsame
      | _ => cases ht

/-- A record that is not null is an object. -/
theorem record_of_suits (h : HeapTyped schema objects heap) {name : String}
    {fields : List (Field Ty)} (hsuits : Suits objects (.record name fields) w) (hne : w ≠ 0) :
    ∃ a gs, Object.record a name gs ∈ objects ∧ gs.length = fields.length ∧ w = Int32.ofNat a ∧
      a + fields.length ≤ heap.size := by
  rcases hsuits.reference rfl with hzero | ⟨o, ho, rfl, hsame⟩
  · exact absurd hzero hne
  · cases o with
    | array a n inner base => cases hsame
    | record a name' gs =>
      simp only [Object.type, Ty.same, Bool.and_eq_true, beq_iff_eq] at hsame
      obtain ⟨rfl, hlength⟩ := hsame
      have hstop : a + max gs.length 1 ≤ heap.size := (h.inside _ ho).2
      exact ⟨a, gs, ho, hlength, rfl, by omega⟩

/-- **An access leads into the object that it names**, to an element or field of the same type. -/
theorem cell_of_place (h : HeapTyped schema objects heap) {x : Member}
    (hx : x.Typed schema objects whole t) {k : Nat} (hplace : x.place heap = .ok k) :
    ∃ o ∈ objects, ∃ u, x.base = Int32.ofNat o.address ∧ o.type.same whole = true ∧
      k = o.address + x.offset ∧ o.cell? schema x.offset = some u ∧ u.same t = true := by
  cases hx with
  | @element t base index ht hbase =>
    by_cases hnull : base = 0
    · rw [Member.place, if_pos hnull] at hplace
      cases hplace
    · obtain ⟨a, n, inner, b, ho, hsame, rfl, hstop, hlength⟩ := h.array_of_suits ht hbase hnull
      have hsize := h.size
      have ha := toNat_ofNat (n := a) (by omega)
      -- the index is compared with the length that the object has
      simp only [Member.place, if_neg hnull, ha, Array.getD_eq_getD_getElem?, hlength,
        Option.getD_some] at hplace
      split at hplace
      · cases hplace
      · rename_i hinside
        obtain ⟨hnonneg, hlt⟩ := not_or.mp hinside
        obtain ⟨i, hi, rfl⟩ := exists_ofNat hnonneg
        rw [ofNat_le_ofNat (by omega) hi] at hlt
        cases hplace
        refine ⟨_, ho, Ty.element inner b, rfl, hsame, rfl, ?_, Ty.elements_same hsame⟩
        rw [Member.offset, toNat_ofNat hi, Object.cell?,
          if_pos ⟨Nat.succ_pos i, Nat.lt_of_not_le hlt⟩]
  | @field t base name ht hbase =>
    obtain ⟨rname, fields, found, rfl, hnumbered, hfound, hsame⟩ := ht
    by_cases hnull : base = 0
    · rw [Member.place, if_pos hnull] at hplace
      cases hplace
    · obtain ⟨a, gs, ho, hcount, rfl, hstop⟩ := h.record_of_suits hbase hnull
      have ha : a < 2147483648 := h.address_lt ho
      rw [Member.place, if_neg hnull, toNat_ofNat ha] at hplace
      cases hplace
      -- fields are numbered in order, and records of the same type have as many of them
      obtain ⟨-, hlt⟩ := Ty.offset_of_numbered hnumbered hfound
      refine ⟨_, ho, schema rname fields.length (Ty.fieldOffset name (.record rname fields)), rfl,
        ?_, rfl, ?_, ?_⟩
      · simp only [Object.type, Ty.same, hcount, beq_self_eq_true, Bool.and_self]
      · rw [Member.offset, Object.cell?, hcount, if_pos hlt]
      · rw [Ty.fieldType, hfound]
        exact hsame

/-- The element or field that an access leads to stands for a value of its type. -/
theorem suits_of_place (h : HeapTyped schema objects heap) {x : Member}
    (hx : x.Typed schema objects whole t) {k : Nat} (hplace : x.place heap = .ok k) :
    ∃ w, heap[k]? = some w ∧ Suits objects t w := by
  obtain ⟨o, ho, u, -, -, rfl, hcell, hsame⟩ := h.cell_of_place hx hplace
  obtain ⟨w, hw, hsuits⟩ := h.cell o ho x.offset u hcell
  exact ⟨w, hw, hsuits.same hsame⟩

/-- Objects are told apart by their addresses. -/
theorem eq_of_ofNat_address (h : HeapTyped schema objects heap) {o p : Object} (ho : o ∈ objects)
    (hp : p ∈ objects) (heq : Int32.ofNat o.address = Int32.ofNat p.address) : o = p := by
  have haddress : o.address = p.address := by
    rw [← toNat_ofNat (h.address_lt ho), heq, toNat_ofNat (h.address_lt hp)]
  exact h.eq_of_mem ho hp ⟨Nat.le_refl _, o.address_lt_stop⟩
    ⟨Nat.le_of_eq haddress.symm, haddress ▸ p.address_lt_stop⟩

end HeapTyped

/-! ### Values of expressions -/

/-- **The value of an expression is of its type.**  By induction on the expression; elements and
fields are of their types because the heap is, and operators give words of theirs. -/
theorem Phrase.eval_suits {schema : Schema} {vars : Vocabulary} {objects : List Object} {m : Memory}
    {e : Phrase} (hm : m.Serves schema vars objects e) (he : e.Typed schema vars) {w : Word}
    (h : e.eval m = .ok w) : Suits objects e.type w := by
  induction e generalizing w with
  | int v => exact Suits.int objects w
  | bool b =>
    cases h
    exact Suits.boolWord objects b
  | var d =>
    cases h
    exact hm.word d he
  | unary op span x ih =>
    obtain ⟨a, -, h⟩ := Fault.bind_eq_ok.mp h
    cases h
    exact Suits.word objects op.scalar _
  | binary op span x y ihx ihy =>
    obtain ⟨a, -, h⟩ := Fault.bind_eq_ok.mp h
    obtain ⟨b, -, h⟩ := Fault.bind_eq_ok.mp h
    rw [Binary.onWords] at h
    -- a division by zero has no value
    cases hv : op.eval (op.scalar.ofWord a) (op.scalar.ofWord b) with
    | none =>
      rw [hv] at h
      cases h
    | some v =>
      rw [hv] at h
      cases h
      exact Suits.word objects op.scalar v
  | relation op span x y ihx ihy =>
    obtain ⟨a, -, h⟩ := Fault.bind_eq_ok.mp h
    obtain ⟨b, -, h⟩ := Fault.bind_eq_ok.mp h
    cases h
    exact Suits.boolWord objects _
  | equality op span x y ihx ihy =>
    obtain ⟨a, -, h⟩ := Fault.bind_eq_ok.mp h
    obtain ⟨b, -, h⟩ := Fault.bind_eq_ok.mp h
    cases h
    exact Suits.boolWord objects _
  | element array index span iharray ihindex =>
    obtain ⟨base, hbase, h⟩ := Fault.bind_eq_ok.mp h
    obtain ⟨i, -, h⟩ := Fault.bind_eq_ok.mp h
    obtain ⟨k, hplace, h⟩ := Fault.bind_eq_ok.mp h
    cases h
    -- an expression with an access is not plain, so that the heap is known to be well-typed
    obtain ⟨v, hv, hsuits⟩ := (hm.heap.resolve_left id).suits_of_place
      (.element i he.1.2 (iharray (hm.part False.elim) he.1.1 hbase)) hplace
    rw [Array.getD_eq_getD_getElem?, hv]
    exact hsuits
  | field record name span ih =>
    obtain ⟨base, hbase, h⟩ := Fault.bind_eq_ok.mp h
    obtain ⟨k, hplace, h⟩ := Fault.bind_eq_ok.mp h
    cases h
    obtain ⟨v, hv, hsuits⟩ := (hm.heap.resolve_left id).suits_of_place
      (.field he.2 (ih (hm.part False.elim) he.1 hbase)) hplace
    rw [Array.getD_eq_getD_getElem?, hv]
    exact hsuits
  | length array span ih => exact Suits.int objects w

section Values

variable {schema : Schema} {scope : Scope} {objects : List Object} {m : Memory}

/-- The object of an access stands for an array or a record of the right type. -/
theorem Access.member_typed (hm : m.Typed schema scope objects) {x : Access}
    (hx : x.phrase.WellTyped schema scope) {t : Member} (h : x.member m = .ok t) :
    t.Typed schema objects x.whole x.phrase.type := by
  cases x with
  | element array index span =>
    obtain ⟨base, i, hbase, -, rfl⟩ := of_member_element h
    exact .element i hx.1.2 (Phrase.eval_suits (hm.serves array) hx.1.1 hbase)
  | field record name span =>
    obtain ⟨base, hbase, rfl⟩ := of_member_field h
    exact .field hx.2 (Phrase.eval_suits (hm.serves record) hx.1 hbase)

/-- The value of an access is the word that it leads to.  So the two kinds of accesses need not be
told apart from here on. -/
theorem Access.eval_eq (x : Access) (m : Memory) : x.phrase.eval m
    = (do let t ← x.member m; let k ← t.place m.heap; .ok (m.heap.getD k 0)) := by
  cases x with
  | element array index span =>
    simp only [phrase, Phrase.eval, member]
    cases array.eval m with
    | error cause => rfl
    | ok base => cases index.eval m <;> rfl
  | field record name span =>
    simp only [phrase, Phrase.eval, member]
    cases record.eval m <;> rfl

end Values

/-! ### A change of one word -/

/-- The other words of the heap. -/
theorem getD_setIfInBounds_ne {heap : Array Word} {i j : Nat} (h : i ≠ j) (v : Word) :
    (heap.setIfInBounds i v).getD j 0 = heap.getD j 0 := by
  rw [Array.getD_eq_getD_getElem?, Array.getD_eq_getD_getElem?, Array.getElem?_setIfInBounds_ne h]

namespace HeapTyped

variable {schema : Schema} {objects : List Object} {heap : Array Word} {o : Object} {i : Nat}
  {t : Ty}

/-- No element or field is the length of an array. -/
theorem cell_ne_length (h : HeapTyped schema objects heap) (ho : o ∈ objects)
    (hcell : o.cell? schema i = some t) {p : Object} (hp : p ∈ objects) {n : Nat}
    (hn : p.length? = some n) : o.address + i ≠ p.address := by
  intro heq
  have hstop := o.cell_lt_stop hcell
  obtain rfl := h.eq_of_mem ho hp ⟨Nat.le_add_right _ _, hstop⟩
    ⟨Nat.le_of_eq heq.symm, heq ▸ p.address_lt_stop⟩
  exact o.cell_ne_zero hcell hn (by omega)

/-- **A change of one word to a value of its type** keeps the heap well-typed.  The word belongs to
one object and is not the length of an array, so that everything else is as it was. -/
theorem set (h : HeapTyped schema objects heap) (ho : o ∈ objects)
    (hcell : o.cell? schema i = some t) {v : Word} (hv : Suits objects t v) :
    HeapTyped schema objects (heap.setIfInBounds (o.address + i) v) := by
  have hstop := o.cell_lt_stop hcell
  refine ⟨?_, ?_, fun p hp => ?_, h.apart, fun p hp n hn => ?_, fun p hp k u hu => ?_⟩
  · rw [Array.size_setIfInBounds]
    exact h.pos
  · rw [Array.size_setIfInBounds]
    exact h.size
  · rw [Array.size_setIfInBounds]
    exact h.inside p hp
  · rw [Array.getElem?_setIfInBounds_ne (h.cell_ne_length ho hcell hp hn)]
    exact h.length p hp n hn
  · by_cases heq : o.address + i = p.address + k
    · -- blocks are apart, so that a word in both is the same word of the same object
      have hpstop := p.cell_lt_stop hu
      obtain rfl := h.eq_of_mem ho hp ⟨Nat.le_add_right _ _, hstop⟩ ⟨by omega, by omega⟩
      obtain rfl : i = k := Nat.add_left_cancel heq
      obtain rfl := Option.some.inj (hcell.symm.trans hu)
      have hsize := (h.inside o ho).2
      exact ⟨v, Array.getElem?_setIfInBounds_self_of_lt (by omega), hv⟩
    · rw [Array.getElem?_setIfInBounds_ne heq]
      exact h.cell p hp k u hu

/-- An access leads to the same word as before, from the same object: the lengths of arrays, which
it compares with, have not changed. -/
theorem place_set (h : HeapTyped schema objects heap) (ho : o ∈ objects)
    (hcell : o.cell? schema i = some t) (v : Word) {x : Member} {whole part : Ty}
    (hx : x.Typed schema objects whole part) :
    x.place (heap.setIfInBounds (o.address + i) v) = x.place heap := by
  cases hx with
  | @element u base index hu hbase =>
    by_cases hnull : base = 0
    · simp only [Member.place, if_pos hnull]
    · obtain ⟨a, n, inner, b, hp, -, rfl, hstop, -⟩ := h.array_of_suits hu hbase hnull
      have hsize := h.size
      have hne : o.address + i ≠ a := h.cell_ne_length ho hcell hp rfl
      simp only [Member.place, toNat_ofNat (n := a) (by omega), getD_setIfInBounds_ne hne]
  | field hu hbase => rfl

end HeapTyped

/-! ### Paths -/

section Paths

variable {schema : Schema} {scope : Scope} {objects : List Object} {m : Memory} {x : Access}
  {t : Member} {k : Nat}

/-- Accesses that lead to the same word are alike.  Types are all that is used here, and so this
holds however the two accesses came to their objects. -/
theorem Access.alike_of_place (hm : m.Typed schema scope objects)
    (hx : x.phrase.WellTyped schema scope) (hmember : x.member m = .ok t)
    (hplace : t.place m.heap = .ok k) {y : Access} (hy : y.phrase.WellTyped schema scope)
    {u : Member} (hmember' : y.member m = .ok u) (hplace' : u.place m.heap = .ok k) :
    y.Alike x := by
  obtain ⟨o, ho, w, -, hsame, hk, hcell, -⟩ :=
    hm.heap.cell_of_place (member_typed hm hx hmember) hplace
  obtain ⟨p, hp, w', -, hsame', hk', hcell', -⟩ :=
    hm.heap.cell_of_place (member_typed hm hy hmember') hplace'
  have hstop := o.cell_lt_stop hcell
  have hstop' := p.cell_lt_stop hcell'
  -- objects share no words, so that both lead into the same one
  obtain rfl := hm.heap.eq_of_mem hp ho (k := k) ⟨by omega, by omega⟩ ⟨by omega, by omega⟩
  have hwhole : y.whole.same x.whole = true :=
    Ty.beq_equivalence.trans (Ty.beq_equivalence.symm hsame') hsame
  -- an array has a dimension, and a record has none
  have hdepth := Ty.depth_of_beq hwhole
  cases y with
  | element array index span =>
    cases x with
    | element array' index' span' => exact hwhole
    | field record name span' =>
      obtain ⟨rname, fields, found, htype, -⟩ := hx.2
      have hmore : array.type.depth = array.type.elements.depth + 1 := Ty.depth_elements hy.1.2
      rw [whole, whole, htype, hmore] at hdepth
      cases hdepth
  | field record name span =>
    cases x with
    | element array index span' =>
      obtain ⟨rname, fields, found, htype, -⟩ := hy.2
      have hmore : array.type.depth = array.type.elements.depth + 1 := Ty.depth_elements hx.1.2
      rw [whole, whole, htype, hmore] at hdepth
      cases hdepth
    | field record' name' span' =>
      obtain ⟨base, -, rfl⟩ := of_member_field hmember
      obtain ⟨base', -, rfl⟩ := of_member_field hmember'
      exact ⟨hwhole, Nat.add_left_cancel (hk'.symm.trans hk)⟩

/-- An access that is not like the one that was assigned to has the same value, if it is to the same
element or field. -/
theorem Access.eval_set (hm : m.Typed schema scope objects) (hx : x.phrase.WellTyped schema scope)
    (hmember : x.member m = .ok t) (hplace : t.place m.heap = .ok k) (v : Word) {y : Access}
    (hy : y.phrase.WellTyped schema scope) (halike : ¬ y.Alike x)
    (hsame : y.member { m with heap := m.heap.setIfInBounds k v } = y.member m) :
    y.phrase.eval { m with heap := m.heap.setIfInBounds k v } = y.phrase.eval m := by
  obtain ⟨o, ho, w, -, -, rfl, hcell, -⟩ :=
    hm.heap.cell_of_place (member_typed hm hx hmember) hplace
  rw [eval_eq, eval_eq, hsame]
  refine Fault.bind_congr fun u hu => ?_
  -- no length has changed, so that it leads to the same word
  rw [hm.heap.place_set ho hcell v (member_typed hm hy hu)]
  refine Fault.bind_congr fun j hj => ?_
  have hne : o.address + t.offset ≠ j := by
    rintro rfl
    exact halike (alike_of_place hm hx hmember hplace hy hu hj)
  exact congrArg Except.ok (getD_setIfInBounds_ne hne v)

/-- Arrays have the same lengths after an assignment, because no element or field is a length. -/
theorem Phrase.length_set (hm : m.Typed schema scope objects)
    (hx : x.phrase.WellTyped schema scope) (hmember : x.member m = .ok t)
    (hplace : t.place m.heap = .ok k) (v : Word) {array : Phrase} {span : Span}
    (hy : (length array span).WellTyped schema scope)
    (hsame : array.eval { m with heap := m.heap.setIfInBounds k v } = array.eval m) :
    (length array span).eval { m with heap := m.heap.setIfInBounds k v }
      = (length array span).eval m := by
  obtain ⟨o, ho, w, -, -, rfl, hcell, -⟩ :=
    hm.heap.cell_of_place (Access.member_typed hm hx hmember) hplace
  rw [eval, eval, hsame]
  refine Fault.bind_congr fun base hbase => ?_
  by_cases hnull : base = 0
  · rw [Member.place, Member.place, if_pos hnull]
    rfl
  · obtain ⟨a, n, inner, b, hp, -, rfl, -, -⟩ :=
      hm.heap.array_of_suits hy.2 (eval_suits (hm.serves array) hy.1 hbase) hnull
    have ha : a < 2147483648 := hm.heap.address_lt hp
    -- the length is in front of the elements
    have hne : o.address + t.offset ≠ a := hm.heap.cell_ne_length ho hcell hp rfl
    rw [Member.place, Member.place, if_neg hnull, toNat_ofNat ha]
    exact congrArg Except.ok (getD_setIfInBounds_ne hne v)

/-- An expression that looks at nothing like what was assigned to has the same value.  By induction
on the expression, down to the accesses in it. -/
theorem Phrase.eval_set_of_avoids (hm : m.Typed schema scope objects)
    (hx : x.phrase.WellTyped schema scope) (hmember : x.member m = .ok t)
    (hplace : t.place m.heap = .ok k) (v : Word) {e : Phrase} (he : e.WellTyped schema scope)
    (havoids : e.Avoids x) :
    e.eval { m with heap := m.heap.setIfInBounds k v } = e.eval m := by
  induction e with
  | int v | bool b | var d => rfl
  | unary op span y ih => simp only [eval, ih he.1 havoids]
  | binary op span y y' ihy ihy' | relation op span y y' ihy ihy' =>
    simp only [eval, ihy he.1.1 havoids.1, ihy' he.2.1 havoids.2]
  | equality op span y y' ihy ihy' =>
    obtain ⟨s, hy, hy'⟩ := he
    simp only [eval, ihy hy.1 havoids.1, ihy' hy'.1 havoids.2]
  | element array index span iharray ihindex =>
    refine Access.eval_set (y := .element array index span) hm hx hmember hplace v he havoids.2 ?_
    simp only [Access.member, iharray he.1.1 havoids.1.1, ihindex he.2.1 havoids.1.2]
  | field record name span ih =>
    refine Access.eval_set (y := .field record name span) hm hx hmember hplace v he havoids.2 ?_
    simp only [Access.member, ih he.1 havoids.1]
  | length array span ih => exact length_set hm hx hmember hplace v he (ih he.1 havoids)

/-- **A direct access is to the same element or field after an assignment through it.** -/
theorem Access.member_set (hm : m.Typed schema scope objects)
    (hx : x.phrase.WellTyped schema scope) (hmember : x.member m = .ok t)
    (hplace : t.place m.heap = .ok k) (v : Word) (hdirect : x.IsDirect) :
    x.member { m with heap := m.heap.setIfInBounds k v } = .ok t := by
  refine Eq.trans ?_ hmember
  have hset := fun {e : Phrase} => Phrase.eval_set_of_avoids hm hx hmember hplace v (e := e)
  cases x with
  | element array index span =>
    simp only [member, hset hx.1.1 hdirect.1, hset hx.2.1 hdirect.2]
  | field record name span => simp only [member, hset hx.1 hdirect]

/-- Expressions that do not look at the heap avoid all elements and fields. -/
theorem Phrase.avoids_of_isPlain {e : Phrase} (he : e.IsPlain) : e.Avoids x := by
  induction e with
  | int v | bool b | var d => trivial
  | unary op span y ih => exact ih he
  | binary op span y y' ihy ihy' | relation op span y y' ihy ihy'
  | equality op span y y' ihy ihy' =>
    exact ⟨ihy he.1, ihy' he.2⟩
  | element array index span | field record name span | length array span => exact he.elim

/-- On the way to an array of arrays there are only arrays with more dimensions, whose elements are
therefore not like those at the end. -/
theorem Phrase.avoids_of_isChain {e : Phrase} (he : e.WellTyped schema scope) (hchain : e.IsChain)
    (hdepth : x.whole.depth ≤ e.type.depth) : e.Avoids x := by
  induction e with
  | var d => trivial
  | element array index span iharray ihindex =>
    have hmore : array.type.depth = array.type.elements.depth + 1 := Ty.depth_elements he.1.2
    have hdepth : x.whole.depth ≤ array.type.elements.depth := hdepth
    -- each index takes a dimension off, so that this array has more of them than the last one
    refine ⟨⟨iharray he.1.1 hchain.1 (by omega), avoids_of_isPlain hchain.2⟩, fun halike => ?_⟩
    cases x with
    | element array' index' span' =>
      have hsame : array.type.depth = array'.type.depth := Ty.depth_of_beq halike
      rw [Access.whole] at hdepth
      omega
    | field record name span' => exact halike
  | _ => exact hchain.elim

/-- Accesses along indices from a variable on are direct. -/
theorem Access.isDirect_of_isChain (hx : x.phrase.WellTyped schema scope) (hchain : x.IsChain) :
    x.IsDirect := by
  cases x with
  | element array index span =>
    exact ⟨Phrase.avoids_of_isChain hx.1.1 hchain.1 (Nat.le_refl _),
      Phrase.avoids_of_isPlain hchain.2⟩
  | field record name span => exact Phrase.avoids_of_isChain hx.1 hchain (Nat.le_refl _)

end Paths
end MJ
