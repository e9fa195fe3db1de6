import MJ.Proofs.Array.Simulation

/-!
# The lengths of an array

The lengths of an array are supplied one after the other, each as an operand.  The first stays on
the evaluation stack, and each later one goes to a word of the frame that is set aside for it.
Between two lengths the caller may emit other code, which computes the next one.

## Main definitions

* `Machine.State.Denotes` — the value of an operand in a state of the machine.
* `Interlude` — what the caller may do between two lengths.
* `Supplied` — lengths have been supplied, and the machine has run the code for them.

## Main results

* `Machine.reaches_push` — the value of an operand is pushed.
* `Supplied.supply` — **a run of the code stores all lengths** where the compiler says they are.
-/

namespace MJ

open Machine Assembler Compiler

/-! ### The value of an operand -/

namespace Operand

/-- The code that pushes the value of an operand.  There is none if the value is on the stack. -/
def pushCode (x : Operand) : List Instruction :=
  match x.place with
  | .literal v => [.ofConst v]
  | .memory => [(region x).loadInstruction x.offset]
  | .element => [.loadElement]
  | .field => [Region.heap.loadInstruction x.offset]
  | .value | .address => []

/-- An instruction can name the place of an operand.  Only words of memory and fields have numbers
that could be too large. -/
def IsNameable (x : Operand) : Prop :=
  match x.place with
  | .memory => (region x).offsetWidth.holds x.offset = true
  | .field => Region.heap.offsetWidth.holds x.offset = true
  | _ => True

end Operand

/-- An operand is pushed only if an instruction can name its place; otherwise the compiler is
misused.  The cases are those of the place. -/
theorem pushFrom_eq_ok {x : Operand} {a b : Assembler} (h : pushFrom x a = .ok () b) :
    x.IsNameable ∧ b = a.append x.pushCode := by
  unfold pushFrom at h
  unfold Operand.IsNameable Operand.pushCode
  cases hplace : x.place with
  | literal v =>
    simp only [hplace] at h ⊢
    exact ⟨trivial, (emits_pushConst v).append h⟩
  | memory =>
    simp only [hplace] at h ⊢
    have hholds := holds_of_emitWith h
    exact ⟨hholds, (EStateM.Result.ok.inj ((loadWord_eq hholds a).symm.trans h)).2.symm⟩
  | element =>
    simp only [hplace] at h ⊢
    exact ⟨trivial, (emits_instruction (i := .loadElement) rfl rfl (by decide)).append h⟩
  | field =>
    simp only [hplace] at h ⊢
    have hholds := holds_of_emitWith h
    exact ⟨hholds, (EStateM.Result.ok.inj ((loadWord_eq hholds a).symm.trans h)).2.symm⟩
  | value | address =>
    simp only [hplace] at h ⊢
    exact ⟨trivial, (EStateM.Result.ok.inj h).2.symm⟩

theorem regular_pushFrom (x : Operand) : (pushFrom x).Regular := by
  unfold pushFrom
  cases x.place with
  | literal v => exact (Command.pushConst v).regular
  | memory => exact (Command.loadWord _ _).regular
  | element => exact Command.loadElement.regular
  | field => exact (Command.loadWord _ _).regular
  | value | address => exact .pure ()

namespace Machine

/-- An operand has a value.  What it needs is on the evaluation stack above the words `below`: the
array and the index of an element, the record of a field, or the value itself. -/
def State.Denotes (s : State) (x : Operand) (below : Array Word) (v : Word) : Prop :=
  match x.place with
  | .literal w => s.stack = below ∧ w = v
  | .memory => s.stack = below ∧ ∃ k, k < 2147483648 ∧ x.offset = Int32.ofNat k ∧
    s.word? (region x) k = some v
  | .element => ∃ base index j, s.stack = (below.push base).push index ∧
    elementIndex base index s = .ok j s ∧ s.heap[j]? = some v
  | .field => ∃ base k j, s.stack = below.push base ∧ k < 2147483648 ∧ x.offset = Int32.ofNat k ∧
    heapIndex base x.offset s = .ok j s ∧ s.heap[j]? = some v
  | .value | .address => s.stack = below.push v

theorem loadInstruction_heap (n : Nat) :
    Region.heap.loadInstruction (Int32.ofNat n) = .getField (Int16.ofNat n) := by
  rw [Region.loadInstruction, Region.offsetWidth, Width.encode_s16_ofNat, ← Instruction.bytes_ofNat,
    BigEndian.bytes_two]
  exact congrArg Instruction.getField (Instruction.half_bytes _)

/-- The value of an operand is pushed.  What it needs is taken from the stack, so that in all cases
there is one word above those `below`. -/
theorem reaches_push {code : Array UInt8} {s : State} {x : Operand} {below : Array Word} {v : Word}
    {next : Nat} (hvalue : s.Denotes x below v) (hname : x.IsNameable)
    (hspans : Spans code x.pushCode s.pc next) : Reaches code s (s.moved next (below.push v)) := by
  unfold State.Denotes at hvalue
  unfold Operand.IsNameable at hname
  unfold Operand.pushCode at hspans
  cases hplace : x.place with
  | literal w =>
    simp only [hplace] at hvalue hspans
    obtain ⟨rfl, rfl⟩ := hvalue
    obtain ⟨hcode, hend⟩ := hspans.cons
    rw [hend.2]
    exact reaches_ofConst hcode
  | memory =>
    simp only [hplace] at hvalue hname hspans
    obtain ⟨rfl, k, hk, hoffset, hword⟩ := hvalue
    rw [hoffset] at hname hspans
    obtain ⟨hcode, hend⟩ := hspans.cons
    rw [hend.2]
    exact reaches_load hname hk hword hcode
  | element =>
    simp only [hplace] at hvalue hspans
    obtain ⟨base, index, j, hstack, hindex, hv⟩ := hvalue
    obtain ⟨hcode, hend⟩ := hspans.cons
    rw [hend.2]
    exact reaches_loadElement hstack hindex hv hcode
  | field =>
    simp only [hplace] at hvalue hname hspans
    obtain ⟨base, k, j, hstack, hk, hoffset, hindex, hv⟩ := hvalue
    rw [hoffset] at hname hindex hspans
    have hle : (k : Int) ≤ 65535 := Width.le_of_holds hk hname
    rw [loadInstruction_heap] at hspans
    obtain ⟨hcode, hend⟩ := hspans.cons
    rw [hend.2]
    exact reaches_getField (by omega) hstack hindex hv hcode
  | value | address =>
    simp only [hplace] at hvalue hspans
    rw [hspans.2, ← hvalue]
    exact .refl s

end Machine

/-! ### Storing a length -/

theorem allocTemp_eq_ok {c c' : Compiler} {v : Word} (h : allocTemp c = .ok v c') :
    ∃ p, c.assembler.procedure? = some p ∧ v = Int32.ofNat p.size ∧ c' = c.withAssembler
      { c.assembler with procedure? := some { p with size := p.size + 1 } } := by
  obtain ⟨n, c₁, hlift, hpure⟩ := Action.bind_eq_ok.mp h
  obtain ⟨rfl, rfl⟩ := EStateM.Result.ok.inj hpure
  obtain ⟨a, halloc, rfl⟩ := assemble_eq_ok.mp hlift
  obtain ⟨p, hp, rfl, rfl⟩ := allocLocal_eq_ok halloc
  exact ⟨p, hp, rfl, rfl⟩

/-- The first length is pushed; a later one is stored in a word that is set aside for it.  This
takes the action apart, and all lemmas about it go through here. -/
theorem storeLength_eq_ok {dimension : Nat} {x : Operand} {span : Span} {c c' : Compiler}
    (h : (storeLength dimension x span).run c = .ok (.ok ()) c') :
    dimension < maxDimensions ∧ ∃ a, pushFrom x c.assembler = .ok () a ∧
      (dimension = 0 ∧ c' = c.withAssembler a ∨
        dimension ≠ 0 ∧ ∃ p b, a.procedure? = some p ∧
          storeWord .stack (Int32.ofNat p.size)
            { a with procedure? := some { p with size := p.size + 1 } } = .ok () b ∧
          noteLength dimension (Int32.ofNat p.size) (c.withAssembler b) = .ok () c') := by
  unfold storeLength at h
  by_cases hmax : maxDimensions ≤ dimension
  · rw [if_pos hmax] at h
    cases h
  rw [if_neg hmax] at h
  cases hint : x.type.isInt with
  | false =>
    rw [hint] at h
    cases h
  | true =>
    rw [hint] at h
    obtain ⟨r₁, c₁, hload, hrest⟩ := Action.bind_eq_ok.mp h
    obtain ⟨_, a, hpush, rfl, rfl⟩ := Checked.assemble_eq_ok.mp hload
    refine ⟨Nat.lt_of_not_le hmax, a, hpush, ?_⟩
    -- the test for the first dimension is only seen once the bind is unfolded
    change ExceptT.run (ite _ _ _ : Checked Unit) _ = _ at hrest
    by_cases hzero : dimension = 0
    · rw [if_neg (not_not.mpr hzero)] at hrest
      obtain ⟨-, rfl⟩ := EStateM.Result.ok.inj hrest
      exact Or.inl ⟨hzero, rfl⟩
    · rw [if_pos hzero] at hrest
      obtain ⟨r₂, c₂, hlift, hrest⟩ := Action.bind_eq_ok.mp hrest
      obtain ⟨slot, halloc, rfl⟩ := Checked.lift_eq_ok.mp hlift
      obtain ⟨p, hp, rfl, rfl⟩ := allocTemp_eq_ok halloc
      obtain ⟨r₃, c₃, hlift, hrest⟩ := Action.bind_eq_ok.mp hrest
      obtain ⟨_, b, hstore, rfl, rfl⟩ := Checked.assemble_eq_ok.mp hlift
      obtain ⟨_, hnote, -⟩ := Checked.lift_eq_ok.mp hrest
      exact Or.inr ⟨hzero, p, b, hp, hstore, hnote⟩

/-- The word of a later length is noted after those of the lengths before it.  The second length
starts a new list of notes. -/
theorem noteLength_eq_ok {dimension : Nat} {slot : Word} {c c' : Compiler}
    (h : noteLength dimension slot c = .ok () c') :
    (dimension = 1 ∧ c' = { c with pendingLengths := [slot] :: c.pendingLengths }) ∨
      (dimension ≠ 1 ∧ ∃ slots outer, c.pendingLengths = slots :: outer ∧
        c' = { c with pendingLengths := (slots ++ [slot]) :: outer }) := by
  unfold noteLength at h
  by_cases hone : dimension = 1
  · rw [if_pos hone] at h
    exact Or.inl ⟨hone, (EStateM.Result.ok.inj h).2.symm⟩
  · rw [if_neg hone] at h
    cases hpending : c.pendingLengths with
    | nil =>
      simp only [hpending] at h
      cases h
    | cons slots outer =>
      simp only [hpending] at h
      by_cases hlength : slots.length + 1 = dimension
      · rw [if_pos hlength] at h
        exact Or.inr ⟨hone, slots, outer, rfl, (EStateM.Result.ok.inj h).2.symm⟩
      · rw [if_neg hlength] at h
        cases h

theorem assembler_of_noteLength {dimension : Nat} {slot : Word} {c c' : Compiler}
    (h : noteLength dimension slot c = .ok () c') : c'.assembler = c.assembler := by
  rcases noteLength_eq_ok h with ⟨-, rfl⟩ | ⟨-, _, _, -, rfl⟩ <;> rfl

theorem effects_storeLength {dimension : Nat} {x : Operand} {span : Span} {c c' : Compiler}
    (h : (storeLength dimension x span).run c = .ok (.ok ()) c') :
    Effects c.assembler c'.assembler := by
  obtain ⟨-, a, hpush, ⟨-, rfl⟩ | ⟨-, p, b, hp, hstore, hnote⟩⟩ := storeLength_eq_ok h
  · exact regular_pushFrom x hpush
  · rw [assembler_of_noteLength hnote]
    exact ((regular_pushFrom x hpush).tail (.frame a p 1 hp)).trans
      ((Command.storeWord .stack _).regular hstore)

/-- A later length takes up a word of the frame. -/
theorem procedure?_of_storeLength {dimension : Nat} {x : Operand} {span : Span} {c c' : Compiler}
    {p : Procedure} (h : (storeLength dimension x span).run c = .ok (.ok ()) c')
    (hdimension : dimension ≠ 0) (hp : c.assembler.procedure? = some p) :
    c'.assembler.procedure? = some { p with size := p.size + 1 } := by
  obtain ⟨-, a, hpush, ⟨hzero, -⟩ | ⟨-, p', b, hp', hstore, hnote⟩⟩ := storeLength_eq_ok h
  · exact absurd hzero hdimension
  · obtain ⟨-, rfl⟩ := pushFrom_eq_ok hpush
    obtain rfl := Option.some.inj (hp.symm.trans hp')
    rw [assembler_of_noteLength hnote, assembler_withAssembler,
      (emits_storeWord p.size).append hstore]
    rfl

/-! ### Lengths one after the other -/

/-- What the caller may do after some lengths and before the next one: emit code of the open
procedure, which the machine runs.  The words of the frame where lengths are stay as they are, and
so does what the compiler has noted of them.  What else is known of the two states is `between`. -/
structure Interlude (image : Image) (room : Nat) (between : State → State → Prop)
    (slots : List Nat) (c : Compiler) (s : State) (c' : Compiler) (s' : State) : Prop where
  related : between s s'
  effects : Effects c.assembler c'.assembler
  procedure : ∀ p, c.assembler.procedure? = some p →
    ∃ q, c'.assembler.procedure? = some q ∧ p.size ≤ q.size
  pendingLengths : c'.pendingLengths = c.pendingLengths
  attains : Attains room image.code.toArray s s'
  pc : s'.pc = c'.assembler.code.size
  isSome : ∀ k, (s'.word? .stack k).isSome = (s.word? .stack k).isSome
  word : ∀ k ∈ slots, s'.word? .stack k = s.word? .stack k

/-- The caller may do nothing. -/
theorem Interlude.refl (image : Image) (room : Nat) (slots : List Nat) {c : Compiler} {s : State}
    (hpc : s.pc = c.assembler.code.size) : Interlude image room Eq slots c s c s where
  related := rfl
  effects := .refl
  procedure p hp := ⟨p, hp, Nat.le_refl _⟩
  pendingLengths := rfl
  attains := .refl s
  pc := hpc
  isSome _ := rfl
  word _ _ := rfl

/-- Lengths have been supplied in order, and the machine has run the code for them from the state
`s` on.  The words `slots` of the frame are those of the second and later lengths.  The code for a
length changes nothing but the evaluation stack and, for a later length, its word of the frame. -/
inductive Supplied (image : Image) (room : Nat) (between : State → State → Prop) (c : Compiler)
    (s : State) (below : Array Word) : (lengths slots : List Nat) → Compiler → State → Prop
  /-- The first length is pushed on the words `below`. -/
  | first {x : Operand} {span : Span} {n : Nat} {c₁ : Compiler} (hn : n < 2147483648)
    (hvalue : s.Denotes x below (Int32.ofNat n))
    (hstore : (storeLength 0 x span).run c = .ok (.ok ()) c₁) :
    Supplied image room between c s below [n] [] c₁
      (s.moved c₁.assembler.code.size (below.push (Int32.ofNat n)))
  /-- A later length goes to the next word of the frame. -/
  | next {lengths slots : List Nat} {c₁ c₂ c₃ : Compiler} {s₁ s₂ : State} {x : Operand}
    {span : Span} {n : Nat} {p : Procedure}
    (hbefore : Supplied image room between c s below lengths slots c₁ s₁)
    (hinterlude : Interlude image room between slots c₁ s₁ c₂ s₂)
    (hopen : c₂.assembler.procedure? = some p) (hn : n < 2147483648)
    (hvalue : s₂.Denotes x s₁.stack (Int32.ofNat n))
    (hstore : (storeLength lengths.length x span).run c₂ = .ok (.ok ()) c₃) :
    Supplied image room between c s below (lengths ++ [n]) (slots ++ [p.size]) c₃
      ((s₂.setWord .stack p.size (Int32.ofNat n)).moved c₃.assembler.code.size s₁.stack)

/-- What holds after lengths have been supplied: the first is on the stack, and the others are in
the words of the frame.  This is the invariant of supplying lengths. -/
structure Supply (room : Nat) (code : Array UInt8) (s : State) (below : Array Word)
    (lengths slots : List Nat) (c₁ : Compiler) (s₁ : State) (p : Procedure) : Prop where
  attains : Attains room code s s₁
  pc : s₁.pc = c₁.assembler.code.size
  procedure : c₁.assembler.procedure? = some p
  isSome : ∀ k, (s₁.word? .stack k).isSome = (s.word? .stack k).isSome
  stored : ∃ n ns, lengths = n :: ns ∧ n < 2147483648 ∧ s₁.stack = below.push (Int32.ofNat n) ∧
    List.Forall₂ (Stored s₁ p.size) slots ns

/-- A frame that an image has room for has at most 255 words, because its size stands in one byte.
-/
theorem Assembler.RealizedBy.size_le {a : Assembler} {image : Image} {table : String → Option Nat}
    {p : Procedure} (h : a.RealizedBy image table) (hp : a.procedure? = some p) : p.size ≤ 255 := by
  obtain ⟨b, -, hle⟩ := h.frame p hp
  have hlt := b.toNat_lt
  omega

namespace Supplied

variable {image : Image} {table : String → Option Nat} {room : Nat}
  {between : State → State → Prop} {c c₁ : Compiler} {s s₁ : State} {below : Array Word}
  {lengths slots : List Nat}

/-- There is a word of the frame for each length but the first. -/
theorem length_eq (h : Supplied image room between c s below lengths slots c₁ s₁) :
    lengths.length = slots.length + 1 := by
  induction h with
  | first => rfl
  | next _ _ _ _ _ _ ih => rw [List.length_append, List.length_append, ih]; rfl

/-- No more lengths are supplied than an array may have. -/
theorem length_le (h : Supplied image room between c s below lengths slots c₁ s₁) :
    lengths.length ≤ maxDimensions := by
  cases h with
  | first => exact Nat.succ_le_of_lt (by decide)
  | next _ _ _ _ _ hstore =>
    rw [List.length_append]
    exact (storeLength_eq_ok hstore).1

/-- The compiler has noted the words of all lengths but the first.  By induction on the lengths; the
caller leaves the notes as they are between two of them. -/
theorem pending (h : Supplied image room between c s below lengths slots c₁ s₁) (hne : slots ≠ []) :
    ∃ outer, c₁.pendingLengths = slots.map Int32.ofNat :: outer := by
  induction h with
  | first => exact absurd rfl hne
  | @next lengths slots c₁ c₂ c₃ s₁ s₂ x span n p hbefore hinterlude hopen _ _ hstore ih =>
    have hlength := hbefore.length_eq
    obtain ⟨-, a, hpush, ⟨hzero, -⟩ | ⟨-, p', b, hp', -, hnote⟩⟩ := storeLength_eq_ok hstore
    · omega
    obtain ⟨-, rfl⟩ := pushFrom_eq_ok hpush
    obtain rfl := Option.some.inj (hopen.symm.trans hp')
    rw [List.map_append]
    -- either this is the second length, or the notes go on
    rcases noteLength_eq_ok hnote with ⟨hone, rfl⟩ | ⟨hone, noted, outer, hnoted, rfl⟩
    · obtain rfl : slots = [] := List.length_eq_zero_iff.mp (by omega)
      exact ⟨_, rfl⟩
    · have hslots : slots ≠ [] := by
        rintro rfl
        exact hone hlength
      obtain ⟨outer', hbefore⟩ := ih hslots
      rw [← hinterlude.pendingLengths] at hbefore
      obtain ⟨rfl, rfl⟩ := List.cons.inj (hnoted.symm.trans hbefore)
      exact ⟨outer, rfl⟩

/-- The frame only grows.  If the caller spares all but the words from its end on, so do the
lengths. -/
theorem spares {p : Procedure} {hi : Nat}
    (h : Supplied image room between c s below lengths slots c₁ s₁)
    (hopen : c.assembler.procedure? = some p)
    (hbetween : ∀ t t', between t t' → Spares p.size hi t t')
    (hwords : ∀ k, k < hi → (s.word? .stack k).isSome = true) :
    ∃ q, c₁.assembler.procedure? = some q ∧ p.size ≤ q.size ∧
      (q.size ≤ hi → Spares p.size hi s s₁) := by
  induction h with
  | first _ _ hstore =>
    obtain ⟨-, a, hpush, ⟨-, rfl⟩ | ⟨hzero, -⟩⟩ := storeLength_eq_ok hstore
    · obtain ⟨-, rfl⟩ := pushFrom_eq_ok hpush
      exact ⟨p, hopen, Nat.le_refl _, fun _ => (Spares.refl _ _ s).moved _ _⟩
    · exact absurd rfl hzero
  | next hbefore hinterlude hopen' _ _ hstore ih =>
    obtain ⟨q₁, hq₁, hle, hspares⟩ := ih
    obtain ⟨q₂, hq₂, hle'⟩ := hinterlude.procedure q₁ hq₁
    obtain rfl := Option.some.inj (hopen'.symm.trans hq₂)
    refine ⟨_, procedure?_of_storeLength hstore (by have := hbefore.length_eq; omega) hopen',
      by dsimp only; omega, fun hhi => ?_⟩
    dsimp only at hhi
    -- the word for this length is the last of the frame, which has grown by it
    have hspares₂ := (hspares (by omega)).trans (hbetween _ _ hinterlude.related) (Nat.le_refl _)
      (Nat.le_refl _)
    refine (hspares₂.setWord (by omega) hhi ?_ _).moved _ _
    rw [hspares₂.isSome]
    exact hwords _ hhi

/-- The first length is on the stack, and no word of the frame has been set aside. -/
theorem supply_first {x : Operand} {span : Span} {n : Nat} {p : Procedure} (hn : n < 2147483648)
    (hvalue : s.Denotes x below (Int32.ofNat n))
    (hstore : (storeLength 0 x span).run c = .ok (.ok ()) c₁)
    (hrealized : c₁.assembler.RealizedBy image table) (hpc : s.pc = c.assembler.code.size)
    (hopen : c.assembler.procedure? = some p) :
    Supply room image.code.toArray s below [n] [] c₁
      (s.moved c₁.assembler.code.size (below.push (Int32.ofNat n))) p := by
  obtain ⟨-, a, hpush, ⟨-, rfl⟩ | ⟨hzero, -⟩⟩ := storeLength_eq_ok hstore
  · obtain ⟨hname, rfl⟩ := pushFrom_eq_ok hpush
    exact {
      attains := (reaches_push hvalue hname (hrealized.spans hpc)).attains
      pc := rfl
      procedure := hopen
      isSome := fun _ => rfl
      stored := ⟨n, [], rfl, hn, rfl, .nil⟩ }
  · exact absurd rfl hzero

/-- A later length is stored, and the others stay where they are. -/
theorem supply_next {c₂ c₃ : Compiler} {s₂ : State} {x : Operand} {span : Span} {n : Nat}
    {p q : Procedure} (h : Supply room image.code.toArray s below lengths slots c₁ s₁ q)
    (hinterlude : Interlude image room between slots c₁ s₁ c₂ s₂)
    (hopen : c₂.assembler.procedure? = some p) (hn : n < 2147483648)
    (hvalue : s₂.Denotes x s₁.stack (Int32.ofNat n))
    (hstore : (storeLength lengths.length x span).run c₂ = .ok (.ok ()) c₃)
    (hrealized : c₃.assembler.RealizedBy image table)
    (hword : (s.word? .stack p.size).isSome = true) :
    Supply room image.code.toArray s below (lengths ++ [n]) (slots ++ [p.size]) c₃
      ((s₂.setWord .stack p.size (Int32.ofNat n)).moved c₃.assembler.code.size s₁.stack)
      { p with size := p.size + 1 } := by
  obtain ⟨m, ms, rfl, hm, hstack, hstored⟩ := h.stored
  obtain ⟨p', hp', hsize⟩ := hinterlude.procedure q h.procedure
  obtain rfl := Option.some.inj (hopen.symm.trans hp')
  obtain ⟨-, a, hpush, ⟨hzero, -⟩ | ⟨-, p', b, hp', hstored', hnote⟩⟩ := storeLength_eq_ok hstore
  · cases hzero
  obtain ⟨hname, rfl⟩ := pushFrom_eq_ok hpush
  obtain rfl := Option.some.inj (hopen.symm.trans hp')
  have hassembler : c₃.assembler = b := assembler_of_noteLength hnote
  have hb := (emits_storeWord p.size).append hstored'
  rw [hassembler] at hrealized ⊢
  have hrealized₁ := RealizedBy.of_effects ((Command.storeWord .stack _).regular hstored') hrealized
  have hrealized₂ :=
    RealizedBy.of_effect (.frame (c₂.assembler.append x.pushCode) p 1 hp') hrealized₁
  have hle : p.size + 1 ≤ 255 := hrealized₁.size_le rfl
  have hsome : (s₂.word? .stack p.size).isSome = true := by
    rw [hinterlude.isSome, h.isSome]
    exact hword
  -- the value is pushed and then stored
  have hpushed : Reaches image.code.toArray s₂ (s₂.moved
      (c₂.assembler.append x.pushCode).code.size (s₁.stack.push (Int32.ofNat n))) :=
    reaches_push hvalue hname (hrealized₂.spans hinterlude.pc)
  have hkept : Reaches image.code.toArray (s₂.moved
      (c₂.assembler.append x.pushCode).code.size (s₁.stack.push (Int32.ofNat n)))
      ((s₂.setWord .stack p.size (Int32.ofNat n)).moved b.code.size s₁.stack) := by
    have hspans : Spans image.code.toArray [.store (UInt8.ofNat p.size)]
        (c₂.assembler.append x.pushCode).code.size b.code.size := by
      rw [hb] at hrealized ⊢
      exact hrealized.spans rfl
    obtain ⟨hcode, hend⟩ := hspans.cons
    rw [hend.2]
    exact reaches_storeSlot (s := s₂.moved (c₂.assembler.append x.pushCode).code.size
      (s₁.stack.push (Int32.ofNat n))) (by omega) hsome rfl hcode
  have hspares : Spares p.size (p.size + 1) s₂ (s₂.setWord .stack p.size (Int32.ofNat n)) :=
    (Spares.refl _ _ s₂).setWord (Nat.le_refl _) (Nat.lt_succ_self _) hsome _
  constructor
  case attains => exact (h.attains.trans hinterlude.attains).trans (hpushed.trans hkept).attains
  case pc => rw [pc_moved, hassembler]
  case procedure => exact procedure?_of_storeLength hstore (Nat.succ_ne_zero _) hopen
  case isSome =>
    intro k
    rw [word?_moved, hspares.isSome, hinterlude.isSome, h.isSome]
  case stored =>
    refine ⟨m, ms ++ [n], rfl, hm, hstack, List.rel_append ?_ (.cons ?_ .nil)⟩
    · refine ((List.forall₂_and_left _ _).mpr ⟨hinterlude.word, hstored⟩).imp fun k l hk => ?_
      obtain ⟨hkept, hk, hl, hword⟩ := hk
      refine ⟨by show k < p.size + 1; omega, hl, ?_⟩
      rw [word?_moved, hspares.word k (by omega), hkept]
      exact hword
    · exact ⟨Nat.lt_succ_self _, hn, word?_setWord_self hsome _⟩

/-- **A run of the code stores all lengths** where the compiler says they are.  By induction on the
lengths, with a step for each later one. -/
theorem supply {p : Procedure} (h : Supplied image room between c s below lengths slots c₁ s₁)
    (hrealized : c₁.assembler.RealizedBy image table) (hpc : s.pc = c.assembler.code.size)
    (hopen : c.assembler.procedure? = some p)
    (hwords : ∀ q, c₁.assembler.procedure? = some q →
      ∀ k, k < q.size → (s.word? .stack k).isSome = true) :
    ∃ q, Supply room image.code.toArray s below lengths slots c₁ s₁ q := by
  induction h with
  | first hn hvalue hstore => exact ⟨p, supply_first hn hvalue hstore hrealized hpc hopen⟩
  | next hbefore hinterlude hopen' hn hvalue hstore ih =>
    have hopen₃ := procedure?_of_storeLength hstore (by have := hbefore.length_eq; omega) hopen'
    have hrealized₁ := RealizedBy.of_effects hinterlude.effects
      (RealizedBy.of_effects (effects_storeLength hstore) hrealized)
    -- the frame only grows, so its words were there before
    obtain ⟨q, hsupply⟩ := ih hrealized₁ fun q hq k hk => by
      obtain ⟨p', hp', hsize⟩ := hinterlude.procedure q hq
      obtain rfl := Option.some.inj (hopen'.symm.trans hp')
      exact hwords _ hopen₃ k (Nat.lt_succ_of_lt (Nat.lt_of_lt_of_le hk hsize))
    exact ⟨_, supply_next hsupply hinterlude hopen' hn hvalue hstore hrealized
      (hwords _ hopen₃ _ (Nat.lt_succ_self _))⟩

end Supplied

end MJ
