import MJ.Proofs.Array.Supply
import MJ.Proofs.Variables

/-!
# Arrays are allocated with all their levels

From the lengths that are supplied for an array, to a run of the finished image that leaves the
address of the array on the evaluation stack.

## Main definitions

* `Allocated` — a new array has been allocated, and nothing else has changed.

## Main results

* `array_allocated` — **the code that allocates an array allocates all of it**.
-/

namespace MJ

open Machine Assembler Compiler

/-! ### The last action -/

/-- An array with one dimension has its length on the stack, and takes no notes. -/
theorem allocArray_zero_eq_ok {base : Ty} {span : Span} {c c' : Compiler}
    {r : Except Diagnostic Operand} (h : (allocArray (.array 0 base) span).run c = .ok r c') :
    r = .ok (.ofType (.array 0 base)) ∧
      ∃ a, newArray c.assembler = .ok () a ∧ c' = c.withAssembler a := by
  have hparts : (do
      Assembler.newArray
      return .ofType (.array 0 base) : Checked Operand).run c = .ok r c' := h
  obtain ⟨r₁, c₁, hlift⟩ := Checked.exists_ok_of_bind hparts
  obtain ⟨_, a, hnew, rfl, rfl⟩ := Checked.assemble_eq_ok.mp hlift
  rw [Checked.bind_of_ok hlift] at hparts
  obtain ⟨rfl, rfl⟩ := EStateM.Result.ok.inj hparts
  exact ⟨rfl, a, hnew, rfl⟩

/-- The lengths that were noted last are taken, if there are as many as the type asks for. -/
theorem takeLengths_eq {inner : Nat} {type : Ty} {c : Compiler} {slots : List Word}
    {outer : List (List Word)} (hpending : c.pendingLengths = slots :: outer)
    (hlength : slots.length = inner) :
    takeLengths inner type c = .ok slots { c with pendingLengths := outer } := by
  unfold takeLengths
  simp only [hpending, if_pos hlength]

/-- For an array with more dimensions, the first length is stored as well, so that all levels find
their lengths in the frame. -/
theorem allocArray_succ_eq_ok {inner : Nat} {base : Ty} {span : Span} {c c' : Compiler}
    {r : Except Diagnostic Operand} {slots : List Word} {outer : List (List Word)}
    (hne : inner ≠ 0) (hle : inner + 1 ≤ maxDimensions)
    (hpending : c.pendingLengths = slots :: outer) (hlength : slots.length = inner)
    (h : (allocArray (.array inner base) span).run c = .ok r c') :
    r = .ok (.ofType (.array inner base)) ∧ (do
      let first ← allocTemp
      Assembler.storeWord .stack first
      allocLevels (first :: slots) : Compile Unit) { c with pendingLengths := outer }
        = .ok () c' := by
  unfold allocArray at h
  simp only [if_neg (Nat.not_lt.mpr hle), if_neg hne] at h
  rw [Checked.bind_of_ok (Checked.lift_of_ok (takeLengths_eq hpending hlength))] at h
  obtain ⟨r₁, c₁, hlift, hrest⟩ := Action.bind_eq_ok.mp h
  obtain ⟨first, hfirst, rfl⟩ := Checked.lift_eq_ok.mp hlift
  obtain ⟨r₂, c₂, hlift, hrest⟩ := Action.bind_eq_ok.mp hrest
  obtain ⟨_, a, hstore, rfl, rfl⟩ := Checked.assemble_eq_ok.mp hlift
  obtain ⟨r₃, c₃, hlift, hrest⟩ := Action.bind_eq_ok.mp hrest
  obtain ⟨_, hlevels, rfl⟩ := Checked.lift_eq_ok.mp hlift
  obtain ⟨rfl, rfl⟩ := EStateM.Result.ok.inj hrest
  refine ⟨rfl, (Action.bind_of_ok hfirst).trans ?_⟩
  exact (Action.bind_of_ok (assemble_of_ok hstore)).trans hlevels

/-- **The code of an array with several dimensions is placed**: the first length goes to the first
new word, and the levels use the words after it. -/
theorem lays_allocArray {image : Image} {table : String → Option Nat}
    (hsize : image.code.length < 65536) (slots : List Nat) :
    Lays image table (do
      let first ← allocTemp
      Assembler.storeWord .stack first
      allocLevels (first :: slots.map Int32.ofNat)) fun _ lo hi base next =>
        ∃ m, Spans image.code.toArray [.store (UInt8.ofNat lo)] base m ∧
          Levels image.code.toArray (lo :: slots) (lo + 1) hi m next :=
  (Lays.temp fun first => Lays.emitThen (emits_storeWord first)
    (lays_allocLevels hsize (first :: slots))).mono fun _ _ _ _ _ hparts => hparts

/-! ### A new array -/

/-- A new array has been allocated between two states.  Its address is on the evaluation stack above
the words `below`, and nothing else has changed apart from the words of the innermost frame from
`lo` on and before `hi`. -/
structure Allocated (lengths : List Nat) (below : Array Word) (lo hi : Nat) (s s' : State) :
    Prop where
  /-- There is just one word above those that were there before. -/
  stack : s'.stack = below.push (Int32.ofNat s.heap.size)
  /-- It is an address. -/
  address : Int32.ofNat s.heap.size ≠ 0
  /-- An array with the given lengths is there.  No two arrays of it share a word, and none shares
  one with what was allocated before. -/
  array : ∃ blocks, IsArray s'.heap lengths s.heap.size blocks ∧ blocks.Pairwise Block.Apart ∧
    ∀ b ∈ blocks, s.heap.size ≤ b.start ∧ b.stop ≤ s'.heap.size
  /-- All addresses in the heap fit a word. -/
  heap_le : s'.heap.size ≤ 2147483648
  /-- All that was there before is the same. -/
  spares : Spares lo hi s s'

/-- An array that is built in order, from a state with the same heap on, is a new array.  The order
of its parts is forgotten here, since no program depends on it. -/
theorem allocated_of_built {s t s' : State} {lengths : List Nat} {below : Array Word}
    {lo hi lo' hi' : Nat} (hspares : Spares lo hi s t) (hbuilt : Built t s' lengths lo' hi')
    (hlo : lo ≤ lo') (hhi : hi' ≤ hi) (hne : lengths ≠ []) (hpos : 0 < s.heap.size)
    (hrange : s.heap.size + arrayWords lengths ≤ 2147483648) (hstack : t.stack = below)
    (hheap : t.heap = s.heap) : Allocated lengths below lo hi s s' := by
  have hwords : 0 < arrayWords lengths := by
    cases lengths with
    | nil => exact absurd rfl hne
    | cons n ns => exact Nat.lt_of_lt_of_le (Nat.succ_pos n) (Nat.le_add_right _ _)
  obtain ⟨hbuiltStack, hbuiltSpares, hsize, hfilled⟩ := hbuilt
  rw [hheap] at hbuiltStack hsize hfilled
  constructor
  case stack => rw [hbuiltStack, hstack]
  case address => exact ofNat_ne_zero hpos (by omega)
  case array =>
    refine ⟨blocksFrom lengths s.heap.size, hfilled.isArray hne, pairwise_blocksFrom _ _, ?_⟩
    intro b hb
    rw [hsize]
    exact mem_blocksFrom hb
  case heap_le => omega
  case spares => exact hspares.trans hbuiltSpares hlo hhi

section Allocation

variable {image : Image} {table : String → Option Nat} {room : Nat} {c₁ : Compiler} {s s₁ : State}
  {below : Array Word}

/-- An array with one dimension is allocated by one instruction, from the length on the stack. -/
theorem Supply.allocates_one {p : Procedure} {n : Nat}
    (h : Supply room image.code.toArray s below [n] [] c₁ s₁ p) {a : Assembler}
    (hnew : newArray c₁.assembler = .ok () a) (hrealized : a.RealizedBy image table)
    (hpos : 0 < s₁.heap.size) (hroom : s₁.heap.size + arrayWords [n] ≤ room)
    (hrange : s₁.heap.size + arrayWords [n] ≤ 2147483648) :
    ∃ s₂, Attains room image.code.toArray s₁ s₂ ∧ s₂.pc = a.code.size ∧
      Allocated [n] below p.size p.size s₁ s₂ := by
  obtain ⟨m, ms, hcons, hn, hstack, -⟩ := h.stored
  obtain ⟨rfl, rfl⟩ := List.cons.inj hcons
  obtain rfl := emits_newArray.append hnew
  obtain ⟨hcode, hend⟩ := (hrealized.spans h.pc).cons
  have hwords : arrayWords [n] = n + 1 := by simp
  have hattains : Attains room image.code.toArray s₁ _ :=
    attains_newArray hstack hn (by omega) (by omega) hcode
  have hbuilt := built_addArray (s₁.moved s₁.pc below) n p.size p.size (s₁.pc + 2)
  have hspares : Spares p.size p.size s₁ (s₁.moved s₁.pc below) := (Spares.refl _ _ s₁).moved _ _
  exact ⟨_, hattains, hend.2.symm, allocated_of_built hspares hbuilt (Nat.le_refl _) (Nat.le_refl _)
    (List.cons_ne_nil _ _) hpos hrange rfl rfl⟩

/-- An array with more dimensions is allocated by the code of its levels, once the first length has
been stored like the others. -/
theorem Supply.allocates {lengths slots : List Nat} {p q : Procedure} {m next : Nat}
    (h : Supply room image.code.toArray s below lengths slots c₁ s₁ p)
    (hstore : Spans image.code.toArray [.store (UInt8.ofNat p.size)] c₁.assembler.code.size m)
    (hlevels : Levels image.code.toArray (p.size :: slots) (p.size + 1) q.size m next)
    (hwords : ∀ k, k < q.size → (s.word? .stack k).isSome = true) (hq : q.size ≤ 255)
    (hpos : 0 < s₁.heap.size) (hroom : s₁.heap.size + arrayWords lengths ≤ room)
    (hrange : s₁.heap.size + arrayWords lengths ≤ 2147483648) :
    ∃ s₂, Attains room image.code.toArray s₁ s₂ ∧ s₂.pc = next ∧
      Allocated lengths below p.size q.size s₁ s₂ := by
  obtain ⟨n, ns, rfl, hn, hstack, hstored⟩ := h.stored
  have hlt : p.size < q.size := hlevels.le.1
  have hsome : (s₁.word? .stack p.size).isSome = true := by
    rw [h.isSome]
    exact hwords _ hlt
  let s₁' : State := (s₁.setWord .stack p.size (Int32.ofNat n)).moved m below
  have hspares : Spares p.size q.size s₁ s₁' :=
    ((Spares.refl _ _ s₁).setWord (Nat.le_refl _) hlt hsome _).moved _ _
  have hkept : Reaches image.code.toArray s₁ s₁' := by
    rw [← h.pc] at hstore
    obtain ⟨hcode, hend⟩ := hstore.cons
    show Reaches _ _ (State.moved _ m below)
    rw [hend.2]
    exact reaches_storeSlot (by omega) hsome hstack hcode
  have hprepared : Prepared s₁' (p.size :: slots) (n :: ns) (p.size + 1) q.size := by
    refine ⟨.cons ⟨Nat.lt_succ_self _, hn, word?_setWord_self hsome _⟩
      (hstored.imp fun k l hk => ?_), fun k hk => ?_, hq, hpos, hrange⟩
    · obtain ⟨hk, hl, hword⟩ := hk
      refine ⟨Nat.lt_succ_of_lt hk, hl, ?_⟩
      rw [hspares.word k (Or.inl hk)]
      exact hword
    · rw [hspares.isSome, h.isSome]
      exact hwords k hk
  obtain ⟨s₂, hattains, hpc, hbuilt⟩ :=
    builds_of_levels hlevels (List.cons_ne_nil _ _) s₁' rfl hprepared hroom
  exact ⟨s₂, hkept.attains.trans hattains, hpc, allocated_of_built hspares hbuilt (Nat.le_succ _)
    (Nat.le_refl _) (List.cons_ne_nil _ _) hpos hrange rfl rfl⟩

end Allocation

/-- The words of the open procedure are there, since the frame has the size that it has in the end.
-/
theorem Machine.State.Hosts.isSome_word {s : State} {a : Assembler} {p : Procedure} {k : Nat}
    (h : s.Hosts a) (hp : a.procedure? = some p) (hk : k < p.size) :
    (s.word? .stack k).isSome = true := by
  obtain ⟨frame, hframe, hsize⟩ := h.frame p hp
  have hlt : k < frame.size := Nat.lt_of_lt_of_le hk hsize
  rw [State.word?, hframe, Option.bind_some, Array.getElem?_eq_getElem hlt]
  rfl

/-- If the caller spares all but the new words of the frame, so does the whole allocation. -/
theorem Supplied.spares_allocated {image : Image} {room : Nat} {between : State → State → Prop}
    {c c₁ : Compiler} {s s₁ s₂ : State} {below : Array Word} {lengths slots : List Nat}
    {p q : Procedure} {hi : Nat} (h : Supplied image room between c s below lengths slots c₁ s₁)
    (hopen : c.assembler.procedure? = some p) (hq : c₁.assembler.procedure? = some q)
    (hle : q.size ≤ hi) (hwords : ∀ k, k < hi → (s.word? .stack k).isSome = true)
    (hallocated : Allocated lengths below q.size hi s₁ s₂)
    (hbetween : ∀ t t', between t t' → Spares p.size hi t t') : Spares p.size hi s s₂ := by
  obtain ⟨q', hq', hgrown, hspares⟩ := h.spares hopen hbetween hwords
  obtain rfl := Option.some.inj (hq.symm.trans hq')
  exact (hspares hle).trans hallocated.spares hgrown (Nat.le_refl _)

/-- The code for the lengths of an array and the code that allocates it lead to a new array.  With
one dimension the only length stays on the stack.  With more, the other lengths wait in words of the
frame, where the compiler has noted them, and the loops that fill the array use further words. -/
theorem Supplied.attains_allocated {image : Image} {table : String → Option Nat} {room inner : Nat}
    {between : State → State → Prop} {c c₁ c₂ : Compiler} {s s₁ : State} {below : Array Word}
    {lengths slots : List Nat} {base : Ty} {span : Span} {r : Except Diagnostic Operand}
    {p : Procedure} (h : Supplied image room between c s below lengths slots c₁ s₁)
    (hopen : c.assembler.procedure? = some p) (hpc : s.pc = c.assembler.code.size)
    (hlengths : lengths.length = inner + 1)
    (halloc : (allocArray (.array inner base) span).run c₁ = .ok r c₂)
    (hrealized : c₂.assembler.RealizedBy image table) (hsize : image.code.length < 65536)
    (hhosts : s.Hosts c₂.assembler) (hpos : 0 < s₁.heap.size)
    (hroom : s₁.heap.size + arrayWords lengths ≤ room)
    (hrange : s₁.heap.size + arrayWords lengths ≤ 2147483648) :
    r = .ok (.ofType (.array inner base)) ∧ ∃ s₂ p₁ p₂, Attains room image.code.toArray s s₂ ∧
      s₂.pc = c₂.assembler.code.size ∧ c₁.assembler.procedure? = some p₁ ∧
      c₂.assembler.procedure? = some p₂ ∧ p₁.size ≤ p₂.size ∧
      Allocated lengths below p₁.size p₂.size s₁ s₂ := by
  have hcount := h.length_eq
  -- one dimension is compiled in another way than several
  cases slots with
  | nil =>
    obtain ⟨n, rfl⟩ := List.length_eq_one_iff.mp hcount
    obtain rfl : inner = 0 := by simpa using hlengths.symm
    obtain ⟨rfl, a, hnew, rfl⟩ := allocArray_zero_eq_ok halloc
    have hprocedure : a.procedure? = c₁.assembler.procedure? := by
      rw [emits_newArray.append hnew]
      rfl
    obtain ⟨q, hsupply⟩ := h.supply
      (RealizedBy.of_effects (emits_newArray.regular hnew) hrealized) hpc hopen fun q hq k hk =>
        hhosts.isSome_word (hprocedure.trans hq) hk
    obtain ⟨s₂, hattains, hpc₂, hallocated⟩ :=
      hsupply.allocates_one hnew hrealized hpos hroom hrange
    exact ⟨rfl, s₂, q, q, hsupply.attains.trans hattains, hpc₂, hsupply.procedure,
      hprocedure.trans hsupply.procedure, Nat.le_refl _, hallocated⟩
  | cons slot slots =>
    obtain ⟨outer, hpending⟩ := h.pending (List.cons_ne_nil _ _)
    rw [List.length_cons] at hcount
    obtain ⟨rfl, hrun⟩ := allocArray_succ_eq_ok (by omega) (hlengths ▸ h.length_le) hpending
      (by rw [List.length_map, List.length_cons]; omega) halloc
    obtain ⟨heffects, hplaced⟩ := lays_allocArray hsize (slot :: slots) hrun
    have hplaced := hplaced hrealized
    -- the words of the lengths are there, as the frame is that of the whole allocation
    obtain ⟨q, hsupply⟩ := h.supply (RealizedBy.of_effects heffects hrealized) hpc hopen
      fun q hq k hk => by
        obtain ⟨q', hq', m, -, hlevels⟩ := hplaced q hq
        exact hhosts.isSome_word hq' (Nat.lt_trans hk hlevels.le.1)
    obtain ⟨q', hq', m, hstore, hlevels⟩ := hplaced q hsupply.procedure
    obtain ⟨s₂, hattains, hpc₂, hallocated⟩ := hsupply.allocates hstore hlevels
      (fun k hk => hhosts.isSome_word hq' hk) (hrealized.size_le hq') hpos hroom hrange
    exact ⟨rfl, s₂, q, q', hsupply.attains.trans hattains, hpc₂, hsupply.procedure, hq',
      Nat.le_of_lt hlevels.le.1, hallocated⟩

/-- **The code that allocates an array allocates all of it.**  Inside of a procedure, as many
lengths are supplied in order as the type has dimensions, and then the array is allocated.  Whatever
is compiled after it, in a finished image with less than 65536 bytes of code a run from the first
length on arrives after the last instruction with the address of the new array on top of the stack,
if there is room for it in the heap and words can address it.  The heap has at least the word that
it starts with, which belongs to no object.  Between two lengths the caller may run code of its own.
If that code spares all but the words of the frame that are set aside from the first length on,
nothing else changes at all; with `Eq` for `between` there is no such code. -/
theorem array_allocated {image : Image} {room inner : Nat} {between : State → State → Prop}
    {c c₁ c₂ : Compiler} {s s₁ : State} {below : Array Word} {lengths slots : List Nat} {base : Ty}
    {span : Span} {r : Except Diagnostic Operand} {p : Procedure}
    {later : List Assembler.Command} {b b' : Assembler}
    (hopen : c.assembler.procedure? = some p) (hpc : s.pc = c.assembler.code.size)
    (hsupplied : Supplied image room between c s below lengths slots c₁ s₁)
    (hlengths : lengths.length = inner + 1)
    (halloc : (allocArray (.array inner base) span).run c₁ = .ok r c₂)
    (hlater : session later c₂.assembler = .ok () b) (hfinish : finish b = .ok (.ok image) b')
    (hsize : image.code.length < 65536) (hhosts : s.Hosts c₂.assembler) (hpos : 0 < s₁.heap.size)
    (hroom : s₁.heap.size + arrayWords lengths ≤ room)
    (hrange : s₁.heap.size + arrayWords lengths ≤ 2147483648) :
    r = .ok (.ofType (.array inner base)) ∧ ∃ n s₂ p₁ p₂,
      RunsWithin room image.code.toArray s n ⟨.unfinished, { s₂ with steps := s.steps + n }⟩ ∧
      s₂.pc = c₂.assembler.code.size ∧ c₁.assembler.procedure? = some p₁ ∧
      c₂.assembler.procedure? = some p₂ ∧ Allocated lengths below p₁.size p₂.size s₁ s₂ ∧
      ((∀ t t', between t t' → Spares p.size p₂.size t t') → Spares p.size p₂.size s s₂) := by
  have hrealized := RealizedBy.of_effects (effects_session hlater) (realizedBy_of_finish hfinish)
  obtain ⟨hr, s₂, p₁, p₂, hattains, hpc₂, hp₁, hp₂, hle, hallocated⟩ := hsupplied.attains_allocated
    hopen hpc hlengths halloc hrealized hsize hhosts hpos hroom hrange
  obtain ⟨n, hruns⟩ := hattains.runsWithin
  exact ⟨hr, n, s₂, p₁, p₂, hruns, hpc₂, hp₁, hp₂, hallocated,
    hsupplied.spares_allocated hopen hp₁ hle (fun k hk => hhosts.isSome_word hp₂ hk) hallocated⟩

/-- A main procedure, after code that uses so many words of its frame and with lengths noted. -/
def sampleAfter (code : List Instruction) (size : Nat) (noted : List (List Word)) : Compiler :=
  { sampleMain with
    assembler := { sampleMain.assembler.append code with
      procedure? := some ⟨"$main", 0, 2, size⟩ }
    pendingLengths := noted }

/-- The machine in that procedure, where the local number is 2. -/
def sampleFrame : State :=
  ⟨3, 0, #[9], #[#[2, 0, 0, 0, 0, 0, 0, 0]], #[], #[0], #[0, 0, 0, 0], [], #[]⟩

/-- The local number and two literals are supplied as lengths. -/
theorem supplied_sample (image : Image) :
    Supplied image 14 Eq (sampleAfter [] 1 []) sampleFrame #[9] [2, 2, 0] [1, 2]
      (sampleAfter [.load 0, .ofConst 2, .store 1, .ofConst 0, .store 2] 3 [[1, 2]])
      { sampleFrame with pc := 11, stack := #[9, 2], frames := #[#[2, 2, 0, 0, 0, 0, 0, 0]] } := by
  have hlocal : (storeLength 0 ⟨.memory, .int, false, false, false, 0⟩ ⟨1, 1⟩).run
      (sampleAfter [] 1 []) = .ok (.ok ()) (sampleAfter [.load 0] 1 []) := rfl
  have hfirst : Supplied image 14 Eq (sampleAfter [] 1 []) sampleFrame #[9] [2] []
      (sampleAfter [.load 0] 1 []) { sampleFrame with pc := 5, stack := #[9, 2] } :=
    .first (x := ⟨.memory, .int, false, false, false, 0⟩) (by decide)
      ⟨rfl, 0, by decide, rfl, rfl⟩ hlocal
  have htwo : (storeLength 1 (.int 2) ⟨1, 1⟩).run (sampleAfter [.load 0] 1 [])
      = .ok (.ok ()) (sampleAfter [.load 0, .ofConst 2, .store 1] 2 [[1]]) := rfl
  have hsecond : Supplied image 14 Eq (sampleAfter [] 1 []) sampleFrame #[9] [2, 2] [1]
      (sampleAfter [.load 0, .ofConst 2, .store 1] 2 [[1]])
      { sampleFrame with pc := 8, stack := #[9, 2], frames := #[#[2, 2, 0, 0, 0, 0, 0, 0]] } :=
    .next (x := .int 2) hfirst (.refl image 14 [] rfl) rfl (by decide) ⟨rfl, rfl⟩ htwo
  have hzero : (storeLength 2 (.int 0) ⟨1, 1⟩).run
      (sampleAfter [.load 0, .ofConst 2, .store 1] 2 [[1]])
      = .ok (.ok ())
        (sampleAfter [.load 0, .ofConst 2, .store 1, .ofConst 0, .store 2] 3 [[1, 2]]) :=
    rfl
  exact .next (x := .int 0) hsecond (.refl image 14 [1] rfl) rfl (by decide) ⟨rfl, rfl⟩ hzero

/-- Two rows of two arrays without elements.  No two of these are in the same place. -/
theorem array_allocated_empty_rows : ∃ (c₁ c₂ : Compiler) (s₁ s₂ : State) (image : Image) (n : Nat),
    Supplied image 14 Eq (sampleAfter [] 1 []) sampleFrame #[9] [2, 2, 0] [1, 2] c₁ s₁ ∧
    (allocArray (.array 2 .int) ⟨1, 1⟩).run c₁ = .ok (.ok (.ofType (.array 2 .int))) c₂ ∧
    RunsWithin 14 image.code.toArray sampleFrame n ⟨.unfinished, { s₂ with steps := n }⟩ ∧
    s₂.pc = c₂.assembler.code.size ∧ Allocated [2, 2, 0] #[9] 3 8 s₁ s₂ ∧
    Spares 1 8 sampleFrame s₂ := by
  -- the whole compilation is computed, and what the theorem asks for is read off its result
  have hcomputed : (EStateM.run' (do let _ ← (allocArray (.array 2 .int) ⟨1, 1⟩).run; get)
      (sampleAfter [.load 0, .ofConst 2, .store 1, .ofConst 0, .store 2] 3 [[1, 2]])).any
      (fun c => decide (c.assembler.procedure? = some ⟨"$main", 0, 2, 8⟩) &&
        decide (c.assembler.statics.bytes.size ≤ 4) &&
        ((EStateM.run' (do session [.exit "$main_end"]; finish) c.assembler).bind
          Except.toOption).any fun image => decide (image.code.length < 65536)) = true := by
    decide +kernel
  obtain ⟨c, hc, hfits⟩ := (Option.any_eq_true _ _).mp hcomputed
  simp only [Bool.and_eq_true, decide_eq_true_eq] at hfits
  obtain ⟨⟨hprocedure, hstatics⟩, hfinished⟩ := hfits
  obtain ⟨_, hc⟩ := Action.exists_ok_of_run' hc
  obtain ⟨r, _, halloc, hget⟩ := Action.bind_eq_ok.mp hc
  cases hget
  obtain ⟨image, himage, hlength⟩ := (Option.any_eq_true _ _).mp hfinished
  obtain ⟨outcome, houtcome, hok⟩ := Option.bind_eq_some_iff.mp himage
  obtain ⟨b', hrest⟩ := Action.exists_ok_of_run' houtcome
  obtain ⟨_, b, hexit, hfinish⟩ := Action.bind_eq_ok.mp hrest
  cases outcome with
  | error diagnostic => cases hok
  | ok image' =>
    cases hok
    have hhosts : sampleFrame.Hosts c.assembler := by
      refine ⟨hstatics, fun p hp => ⟨_, rfl, ?_⟩⟩
      obtain rfl := Option.some.inj (hprocedure.symm.trans hp)
      decide
    obtain ⟨rfl, n, s₂, p₁, p₂, hruns, hpc, hp₁, hp₂, hallocated, hspares⟩ :=
      array_allocated rfl rfl (supplied_sample image) rfl halloc hexit hfinish
        (of_decide_eq_true hlength) hhosts (by decide) (by decide) (by decide)
    obtain rfl := Option.some.inj hp₁
    obtain rfl := Option.some.inj (hprocedure.symm.trans hp₂)
    refine ⟨_, c, _, s₂, image, n, supplied_sample image, halloc, ?_, hpc, hallocated,
      hspares fun t t' ht => ht ▸ Spares.refl _ _ t⟩
    rw [show sampleFrame.steps + n = n from Nat.zero_add n] at hruns
    exact hruns

end MJ
