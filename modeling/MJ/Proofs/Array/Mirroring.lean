import MJ.Proofs.Addresses
import MJ.Proofs.Array.Correctness
import MJ.Proofs.Request.Labels

/-!
# Compiling without the notes on lengths

Where an array with several dimensions is under construction, the compiler has notes on its lengths.
The actions of the compiler other than those for lengths do not look at these notes, and leave them
as they are.  Inside of a procedure such an action fails for one reason only: the frame or the code
has outgrown what the operand of an instruction can name.

## Main definitions

* `Compiler.Exceeds` — the frame or the code has outgrown the operands of instructions.
* `Compiler.Ready`, `Compiler.Evolves` — a procedure is open and labels can be made up, and what
  stays the same while its code is generated.
* `Compile.Mirrors`, `Checked.Mirrors` — an action is carried out like another one that does not
  look at the notes, or the limits are exceeded.

## Main results

* `Compile.Mirrors.bind`, `Checked.Mirrors.bind` — one action after the other.
* `Compile.Mirrors.allocLevels` — the levels of an array are allocated.
-/

namespace MJ

open Assembler

namespace Compiler

/-! ### Inside of a procedure -/

/-- The open frame has more words, or the code has more bytes, than the operands of instructions can
name.  Both only grow, so that this stays true once it is. -/
def Exceeds (c : Compiler) : Prop :=
  (∃ p, c.assembler.procedure? = some p ∧ 255 < p.size) ∨ 65535 < c.assembler.code.size

/-- A procedure is open, labels are inside of the code, and the labels still to be made up are not
defined.  This is what the code of an expression needs in order not to fail for another reason than
the limits. -/
structure Ready (c : Compiler) : Prop where
  isOpen : ∃ p, c.assembler.procedure? = some p
  addresses : ∀ label n, c.assembler.labels.address? label = some n → n ≤ c.assembler.code.size
  fresh : ∀ n, c.labelCount ≤ n → c.assembler.labels.address? (madeUp n) = none

/-- What holds between two moments of a procedure.  Nothing is said of labels that have been made up
in between. -/
structure Evolves (c c' : Compiler) : Prop where
  ready : c'.Ready
  labelCount : c.labelCount ≤ c'.labelCount
  address? : ∀ n, n < c.labelCount →
    c'.assembler.labels.address? (madeUp n) = c.assembler.labels.address? (madeUp n)
  exceeds : c.Exceeds → c'.Exceeds
  pendingLengths : c'.pendingLengths = c.pendingLengths

/-- The compilation with other notes on lengths. -/
def withPending (c : Compiler) (pending : List (List Word)) : Compiler :=
  { c with pendingLengths := pending }

@[simp] theorem withPending_withPending (c : Compiler) (p q : List (List Word)) :
    (c.withPending p).withPending q = c.withPending q := rfl

@[simp] theorem withPending_self (c : Compiler) : c.withPending c.pendingLengths = c := rfl

/-- Inside of a procedure, a session is ready for more code. -/
theorem ready_of_session {rs : List Request} {log : List Exchange} {c : Compiler}
    (h : session rs .empty = .ok log c) (hlabels : ∀ e ∈ log, e.TakesLabels)
    (hopen : c.assembler.procedure?.isSome = true) : c.Ready where
  isOpen := Option.isSome_iff_exists.mp hopen
  addresses _ _ := address_le_size (effects_of_session h).1
  fresh := by
    have hempty : MadeUpFree .empty := ⟨fun _ _ => rfl, fun _ _ heq => nomatch heq⟩
    exact (madeUpFree_of_session h hlabels hempty).fresh

theorem Ready.withPending {c : Compiler} (h : c.Ready) (pending : List (List Word)) :
    (c.withPending pending).Ready :=
  ⟨h.isOpen, h.addresses, h.fresh⟩

namespace Evolves

variable {c₀ c c' : Compiler}

theorem refl (h : c.Ready) : c.Evolves c := ⟨h, Nat.le_refl _, fun _ _ => rfl, id, rfl⟩

theorem trans (h : c₀.Evolves c) (h' : c.Evolves c') : c₀.Evolves c' where
  ready := h'.ready
  labelCount := Nat.le_trans h.labelCount h'.labelCount
  address? n hn := (h'.address? n (Nat.lt_of_lt_of_le hn h.labelCount)).trans (h.address? n hn)
  exceeds hc := h'.exceeds (h.exceeds hc)
  pendingLengths := h'.pendingLengths.trans h.pendingLengths

/-- Other notes on lengths do not matter. -/
theorem withPending (h : c₀.Evolves c) (pending : List (List Word)) :
    (c₀.withPending pending).Evolves (c.withPending pending) :=
  ⟨h.ready.withPending pending, h.labelCount, h.address?, h.exceeds, rfl⟩

theorem withPending_eq (h : c₀.Evolves c) : c.withPending c₀.pendingLengths = c := by
  rw [← h.pendingLengths, withPending_self]

/-- Code is emitted.  It defines no labels, and it leaves the frame as large as it was. -/
theorem code (h : c₀.Evolves c) {a : Assembler} (hopen : a.procedure? = c.assembler.procedure?)
    (hlabels : a.labels.defined = c.assembler.labels.defined)
    (hsize : c.assembler.code.size ≤ a.code.size) : c₀.Evolves (c.withAssembler a) := by
  have haddress : a.labels.address? = c.assembler.labels.address? := by
    funext label
    rw [Labels.address?, hlabels, Labels.address?]
  refine ⟨⟨?_, fun label n hn => ?_, fun n hn => ?_⟩, h.labelCount, fun n hn => ?_, fun hc => ?_,
    h.pendingLengths⟩
  · rw [assembler_withAssembler, hopen]
    exact h.ready.isOpen
  · rw [assembler_withAssembler, haddress] at hn
    exact Nat.le_trans (h.ready.addresses label n hn) hsize
  · rw [assembler_withAssembler, haddress]
    exact h.ready.fresh n hn
  · rw [assembler_withAssembler, haddress]
    exact h.address? n hn
  · rcases h.exceeds hc with ⟨p, hp, hlt⟩ | hlt
    · exact Or.inl ⟨p, hopen.trans hp, hlt⟩
    · exact Or.inr (Nat.lt_of_lt_of_le hlt hsize)

/-- A word of the frame is set aside, which is all that changes about the procedure. -/
theorem frame (h : c₀.Evolves c) {p : Procedure} (hp : c.assembler.procedure? = some p) :
    c₀.Evolves (c.withAssembler
      { c.assembler with procedure? := some { p with size := p.size + 1 } }) := by
  refine ⟨⟨⟨_, rfl⟩, h.ready.addresses, h.ready.fresh⟩, h.labelCount, h.address?, fun hc => ?_,
    h.pendingLengths⟩
  rcases h.exceeds hc with ⟨p', hp', hlt⟩ | hlt
  · obtain rfl := Option.some.inj (hp.symm.trans hp')
    exact Or.inl ⟨_, rfl, Nat.lt_succ_of_lt hlt⟩
  · exact Or.inr hlt

/-- A label is made up.  It is not defined yet, and the ones after it are still to be made up. -/
theorem label (h : c₀.Evolves c) : c₀.Evolves { c with labelCount := c.labelCount + 1 } where
  ready := ⟨h.ready.isOpen, h.ready.addresses, fun n hn => h.ready.fresh n (Nat.le_of_succ_le hn)⟩
  labelCount := Nat.le_succ_of_le h.labelCount
  address? := h.address?
  exceeds := h.exceeds
  pendingLengths := h.pendingLengths

/-- A label that was made up in between is defined.  It is neither one of those that were there at
the start nor one still to be made up. -/
theorem define (h : c₀.Evolves c) {n : Nat} (hle : c₀.labelCount ≤ n) (hlt : n < c.labelCount) :
    c₀.Evolves (c.withAssembler (c.assembler.withLabel (madeUp n))) where
  ready := by
    refine ⟨h.ready.isOpen, fun label k hk => ?_, fun k hk => ?_⟩
    · rw [assembler_withAssembler, address?_withLabel] at hk
      split at hk
      · exact Nat.le_of_eq (Option.some.inj hk).symm
      · exact h.ready.addresses label k hk
    · have hne : k ≠ n := by
        rintro rfl
        exact absurd hlt (Nat.not_lt.mpr hk)
      rw [assembler_withAssembler, address?_withLabel, if_neg fun heq => hne (madeUp_inj heq)]
      exact h.ready.fresh k hk
  labelCount := h.labelCount
  address? k hk := by
    have hne : k ≠ n := by
      rintro rfl
      exact absurd hk (Nat.not_lt.mpr hle)
    rw [assembler_withAssembler, address?_withLabel, if_neg fun heq => hne (madeUp_inj heq)]
    exact h.address? k hk
  exceeds := h.exceeds
  pendingLengths := h.pendingLengths

end Evolves
end Compiler

/-- An operand is pushed if an instruction can name its place.  Each kind of place has its own
instruction, and its own width of operands. -/
theorem Compiler.pushFrom_eq {x : Operand} (hx : x.IsNameable) (a : Assembler) :
    pushFrom x a = .ok () (a.append x.pushCode) := by
  unfold Operand.IsNameable at hx
  unfold pushFrom Operand.pushCode
  cases hplace : x.place with
  | literal v => exact pushConst_eq v a
  | memory =>
    simp only [hplace] at hx
    exact loadWord_eq hx a
  | element => exact emit_instruction .loadElement rfl a
  | field =>
    simp only [hplace] at hx
    exact loadWord_eq hx a
  | value | address => rfl

/-! ### Actions -/

open Compiler

section Mirrors

variable {α β : Type} {c₀ c : Compiler}

/-- The action `x` ends, and so does the action `y` with any notes on lengths, in the same state but
for the notes; or `x` fails, and the limits are exceeded.  Since the notes are arbitrary, `y` does
not look at them. -/
def Compile.Simulates (c : Compiler) (x : Compile α) (y : Compile β)
    (R : α → β → Compiler → Prop) : Prop :=
  (∃ v w c', x c = .ok v c' ∧
    (∀ pending, y (c.withPending pending) = .ok w (c'.withPending pending)) ∧ R v w c') ∨
  ∃ misuse c', x c = .error misuse c' ∧ c'.Exceeds

/-- The same relation between actions that may find the program wrong: both end, and neither finds a
defect. -/
def Checked.Simulates (c : Compiler) (x : Checked α) (y : Checked β)
    (R : α → β → Compiler → Prop) : Prop :=
  Compile.Simulates c x.run y.run fun r s c' => ∃ v w, r = .ok v ∧ s = .ok w ∧ R v w c'

/-- Both actions end with the same result.  Almost always they are the same action, which is then
seen not to look at the notes. -/
def Compile.Mirrors (c : Compiler) (x y : Compile α) (P : α → Compiler → Prop) : Prop :=
  Simulates c x y fun v w c' => v = w ∧ P v c'

/-- Both actions end with the same result, and find nothing wrong. -/
def Checked.Mirrors (c : Compiler) (x y : Checked α) (P : α → Compiler → Prop) : Prop :=
  Simulates c x y fun v w c' => v = w ∧ P v c'

theorem Compile.Simulates.bind {γ δ : Type} {x : Compile α} {y : Compile β} {f : α → Compile γ}
    {g : β → Compile δ} {R : α → β → Compiler → Prop} {S : γ → δ → Compiler → Prop}
    (h : Simulates c x y R) (hf : ∀ v w c', R v w c' → Simulates c' (f v) (g w) S) :
    Simulates c (x >>= f) (y >>= g) S := by
  rcases h with ⟨v, w, c₁, hx, hy, hR⟩ | ⟨misuse, c₁, hx, hexceeds⟩
  · rcases hf v w c₁ hR with ⟨v', w', c₂, hfv, hgw, hS⟩ | ⟨misuse, c₂, hfv, hexceeds⟩
    · exact Or.inl ⟨v', w', c₂, (Action.bind_of_ok hx).trans hfv,
        fun pending => (Action.bind_of_ok (hy pending)).trans (hgw pending), hS⟩
    · exact Or.inr ⟨misuse, c₂, (Action.bind_of_ok hx).trans hfv, hexceeds⟩
  · exact Or.inr ⟨misuse, c₁, Action.bind_eq_error.mpr (Or.inl hx), hexceeds⟩

namespace Compile.Mirrors

variable {x y : Compile α} {P Q : α → Compiler → Prop}

theorem mono (h : Mirrors c x y P) (hP : ∀ v c', P v c' → Q v c') : Mirrors c x y Q := by
  rcases h with ⟨v, w, c', hx, hy, hvw, hv⟩ | hfailed
  · exact Or.inl ⟨v, w, c', hx, hy, hvw, hP v c' hv⟩
  · exact Or.inr hfailed

theorem pure {v : α} (hv : P v c) : Mirrors c (Pure.pure v) (Pure.pure v) P :=
  Or.inl ⟨v, v, c, rfl, fun _ => rfl, rfl, hv⟩

theorem bind {γ δ : Type} {f : α → Compile γ} {g : α → Compile δ} {S : γ → δ → Compiler → Prop}
    (h : Mirrors c x y P) (hf : ∀ v c', P v c' → Simulates c' (f v) (g v) S) :
    Simulates c (x >>= f) (y >>= g) S := by
  refine Simulates.bind h fun v w c' => ?_
  rintro ⟨rfl, hv⟩
  exact hf v c' hv

/-- An action of the assembler that is carried out.  The assembler has no notes that it could look
at. -/
theorem assemble {action : Asm α} {v : α} {a : Assembler} (h : action c.assembler = .ok v a)
    (hv : P v (c.withAssembler a)) : Mirrors c (liftM action) (liftM action) P :=
  Or.inl ⟨v, v, c.withAssembler a, assemble_of_ok h,
    fun pending => assemble_of_ok (c := c.withPending pending) h, rfl, hv⟩

/-- An action of the assembler that fails, for which the limits have to be exceeded. -/
theorem failed {action : Asm α} {misuse : Misuse}
    (h : action c.assembler = .error misuse c.assembler) (hexceeds : c.Exceeds) :
    Mirrors c (liftM action) y P := by
  refine Or.inr ⟨misuse, c, ?_, hexceeds⟩
  show Compiler.assemble action c = _
  rw [Compiler.assemble, h]

/-- Instructions without labels are emitted. -/
theorem code {action : Asm Unit} {is : List Instruction} (h : c₀.Evolves c)
    (haction : action c.assembler = .ok () (c.assembler.append is)) :
    Mirrors c (liftM action) (liftM action) fun _ c' => c₀.Evolves c' := by
  refine assemble haction (h.code rfl rfl ?_)
  rw [Assembler.size_append]
  exact Nat.le_add_right _ _

theorem loadWord (h : c₀.Evolves c) {r : Region} {offset : Word}
    (hoffset : r.offsetWidth.holds offset = true) :
    Mirrors c (liftM (Assembler.loadWord r offset)) (liftM (Assembler.loadWord r offset))
      fun _ c' => c₀.Evolves c' :=
  code h (loadWord_eq hoffset _)

/-- A word of the frame is stored into, unless the frame is too large. -/
theorem storeWord (h : c₀.Evolves c) {slot : Word}
    (hslot : Region.stack.offsetWidth.holds slot = true ∨ c.Exceeds) :
    Mirrors c (liftM (Assembler.storeWord .stack slot)) (liftM (Assembler.storeWord .stack slot))
      fun _ c' => c₀.Evolves c' ∧ Region.stack.offsetWidth.holds slot = true := by
  cases hholds : Region.stack.offsetWidth.holds slot with
  | true => exact (code h (storeWord_eq hholds _)).mono fun _ _ h' => ⟨h', rfl⟩
  | false =>
    rw [hholds] at hslot
    exact failed (emitWith_of_not_holds hholds _) (hslot.resolve_left Bool.false_ne_true)

theorem pushConst (h : c₀.Evolves c) (v : Word) :
    Mirrors c (liftM (Assembler.pushConst v)) (liftM (Assembler.pushConst v))
      fun _ c' => c₀.Evolves c' :=
  code h (pushConst_eq v _)

theorem emit (h : c₀.Evolves c) {op : Opcode} (hop : op.operands = []) :
    Mirrors c (liftM (Assembler.emit op)) (liftM (Assembler.emit op)) fun _ c' => c₀.Evolves c' :=
  code h (emit_of_operands hop _)

theorem newArray (h : c₀.Evolves c) :
    Mirrors c (liftM Assembler.newArray) (liftM Assembler.newArray) fun _ c' => c₀.Evolves c' :=
  code h (emitWith_eq rfl (by decide) _)

theorem compare (h : c₀.Evolves c) (test : Comparison) :
    Mirrors c (liftM (Assembler.compare test)) (liftM (Assembler.compare test))
      fun _ c' => c₀.Evolves c' :=
  code h (compare_eq test _)

/-- An instruction with a label is emitted, unless the code is too long.  If the label is defined,
its address is written, and it is inside of the code; otherwise there is a hole. -/
theorem transfer (h : c₀.Evolves c) (t : Transfer) (label : String) :
    Mirrors c (liftM (emitLabel t.opcode label)) (liftM (emitLabel t.opcode label))
      fun _ c' => c₀.Evolves c' := by
  cases hlabel : c.assembler.labels.address? label with
  | none =>
    refine assemble (emitLabel_of_none t hlabel) (h.code rfl rfl ?_)
    show c.assembler.code.size ≤ ((c.assembler.code.append [t.opcode.byte]).emitHoles 2).size
    rw [Draft.size_emitHoles, Draft.size_append]
    omega
  | some n =>
    have hle := h.ready.addresses label n hlabel
    have hop : t.opcode.operands = [.s16] := by cases t <;> rfl
    have hemit := emitLabel_eq_emitWith t.opcode hlabel
    by_cases hsize : c.assembler.code.size ≤ 65535
    · have hholds : Width.s16.holds (Int32.ofNat n) = true :=
        Width.holds_of_le (by omega) (show (n : Int) ≤ 65535 by omega)
      exact code h (hemit.trans (emitWith_eq hop hholds _))
    · -- code of this length exceeds the limits, and then a misuse is allowed for
      cases hholds : Width.s16.holds (Int32.ofNat n) with
      | true => exact code h (hemit.trans (emitWith_eq hop hholds _))
      | false =>
        exact failed (hemit.trans (emitWith_of_not_holds hholds _))
          (Or.inr (Nat.lt_of_not_le hsize))

/-- A word of the frame is set aside.  An instruction can name it, unless the frame is too large. -/
theorem allocTemp (h : c₀.Evolves c) :
    Mirrors c Compiler.allocTemp Compiler.allocTemp fun slot c' => c₀.Evolves c' ∧
      (Region.stack.offsetWidth.holds slot = true ∨ c'.Exceeds) := by
  obtain ⟨p, hp⟩ := h.ready.isOpen
  refine bind (P := fun n c' => c₀.Evolves c' ∧
    (Region.stack.offsetWidth.holds (Int32.ofNat n) = true ∨ c'.Exceeds)) ?_ fun n c' hn => pure hn
  by_cases hsize : p.size < UInt64.size
  · refine assemble (v := p.size) ?_ ⟨h.frame hp, ?_⟩
    · simp only [allocLocal, hp, Procedure.alloc, Procedure.countedSize, if_pos hsize]
      rfl
    · by_cases hle : p.size ≤ 255
      · exact Or.inl (Machine.holds_slot hle)
      · exact Or.inr (Or.inl ⟨_, rfl, Nat.lt_succ_of_lt (Nat.lt_of_not_le hle)⟩)
  · have hfailed : allocLocal 1 c.assembler = .error .sizeOverflow c.assembler := by
      simp only [allocLocal, hp, Procedure.alloc, Procedure.countedSize, if_neg hsize]
      rfl
    have hlt : 255 < UInt64.size := by decide
    exact failed hfailed (Or.inl ⟨p, hp, by omega⟩)

theorem newLabel (h : c₀.Evolves c) :
    Mirrors c Compiler.newLabel Compiler.newLabel fun label c' => label = madeUp c.labelCount ∧
      c' = { c with labelCount := c.labelCount + 1 } ∧ c₀.Evolves c' :=
  Or.inl ⟨_, _, _, rfl, fun _ => rfl, rfl, rfl, rfl, h.label⟩

/-- A label that was made up and is new is defined.  Other labels stay as they are, which matters
for those that have been made up and are defined later. -/
theorem define (h : c₀.Evolves c) {n : Nat} (hle : c₀.labelCount ≤ n) (hlt : n < c.labelCount)
    (hnew : c.assembler.labels.address? (madeUp n) = none) :
    Mirrors c (Compiler.define (madeUp n)) (Compiler.define (madeUp n)) fun _ c' =>
      c₀.Evolves c' ∧ c'.labelCount = c.labelCount ∧ ∀ m, m ≠ n →
        c'.assembler.labels.address? (madeUp m) = c.assembler.labels.address? (madeUp m) := by
  refine assemble (define_eq hnew) ⟨h.define hle hlt, rfl, fun m hm => ?_⟩
  rw [assembler_withAssembler, address?_withLabel, if_neg fun heq => hm (madeUp_inj heq)]

/-- A conditional jump is emitted, unless the code is too long. -/
theorem branchIf (h : c₀.Evolves c) (value : Bool) (label : String) :
    Mirrors c (liftM (Assembler.branchIf value label)) (liftM (Assembler.branchIf value label))
      fun _ c' => c₀.Evolves c' := by
  rw [Assembler.branchIf, Compiler.assemble_bind]
  exact (pushConst h _).bind fun _ c₁ h₁ => transfer h₁ .branch label

/-- The levels of an array are allocated from words that instructions can name.  By induction on the
levels: the code of each one is around that of the next. -/
theorem allocLevels {slots : List Word}
    (hslots : ∀ slot ∈ slots, Region.stack.offsetWidth.holds slot = true) (h : c₀.Evolves c) :
    Mirrors c (Compiler.allocLevels slots) (Compiler.allocLevels slots)
      fun _ c' => c₀.Evolves c' := by
  induction slots generalizing c₀ c with
  | nil => exact pure h
  | cons slot slots ih =>
    have hslot := hslots slot List.mem_cons_self
    cases slots with
    | nil => exact (loadWord h hslot).bind fun _ _ h₁ => newArray h₁
    | cons inner rest =>
      -- the words for the array and the index
      refine (loadWord h hslot).bind fun _ c₁ h => (newArray h).bind fun _ c₂ h => ?_
      refine (allocTemp h).bind fun array c₃ ⟨h, harray⟩ => ?_
      refine (allocTemp (.refl h.ready)).bind fun index c₄ ⟨h₄, hindex⟩ => ?_
      refine (storeWord (.refl h₄.ready) (harray.imp_right h₄.exceeds)).bind
        fun _ c₅ ⟨h₅, harray⟩ => (pushConst h₅ 0).bind fun _ c₆ h₆ => ?_
      refine (storeWord h₆ (hindex.imp_right h₆.exceeds)).bind fun _ c₇ ⟨h₇, hindex⟩ => ?_
      have hlabels := (h.trans h₄).trans h₇
      -- of the two labels, the first is defined at once and the second after the later levels
      refine (newLabel hlabels).bind fun top c₈ ⟨htop, hc₈, h₈⟩ => ?_
      refine (newLabel h₈).bind fun done c₉ ⟨hdone, hc₉, h₉⟩ => ?_
      subst htop hdone hc₉ hc₈
      refine (define h₉ hlabels.labelCount (Nat.lt_succ_of_lt (Nat.lt_succ_self _))
        (hlabels.ready.fresh _ (Nat.le_refl _))).bind fun _ c ⟨hbefore, hcount, hother⟩ => ?_
      have hfree := (hother _ (Nat.succ_ne_self _)).trans (hlabels.ready.fresh _ (Nat.le_succ _))
      -- the second label stays free as long as only labels made up later are defined
      refine (loadWord (.refl hbefore.ready) hindex).bind fun _ _ h => ?_
      refine (loadWord h hslot).bind fun _ _ h => (compare h .ge).bind fun _ _ h => ?_
      refine (branchIf h true _).bind fun _ _ h => (loadWord h harray).bind fun _ _ h => ?_
      refine (loadWord h hindex).bind fun _ _ h => ?_
      refine (ih (fun s hs => hslots s (List.mem_cons_of_mem _ hs)) h).bind fun _ _ h => ?_
      refine (emit h rfl).bind fun _ _ h => (loadWord h hindex).bind fun _ _ h => ?_
      refine (pushConst h 1).bind fun _ _ h => (emit h rfl).bind fun _ _ h => ?_
      refine (storeWord h (Or.inl hindex)).bind fun _ _ ⟨h, _⟩ => ?_
      refine (transfer h .jump _).bind fun _ c' h' => ?_
      have hlt : c₇.labelCount + 1 < c.labelCount := by
        rw [hcount]
        exact Nat.lt_succ_self _
      refine (define (hbefore.trans h') (Nat.le_succ_of_le hlabels.labelCount)
        (Nat.lt_of_lt_of_le hlt h'.labelCount) ((h'.address? _ hlt).trans hfree)).bind
        fun _ _ ⟨h, _⟩ => loadWord h harray

/-- An operand whose place can be named is pushed. -/
theorem loadIfNeeded (h : c₀.Evolves c) {x : Operand} (hx : x.IsNameable) :
    Mirrors c (Compiler.loadIfNeeded x) (Compiler.loadIfNeeded x) fun _ c' => c₀.Evolves c' :=
  code h (pushFrom_eq hx _)

theorem loadValue (h : c₀.Evolves c) {x : Operand} (hx : x.IsNameable) :
    Mirrors c (Compiler.loadValue x) (Compiler.loadValue x) fun y c' =>
      c₀.Evolves c' ∧ y = x.loaded := by
  have hpush := pushFrom_eq hx c.assembler
  refine Or.inl ⟨x.loaded, x.loaded, _, loadValue_of_ok hpush,
    fun pending => loadValue_of_ok (c := c.withPending pending) hpush, rfl, h.code rfl rfl ?_, rfl⟩
  rw [Assembler.size_append]
  exact Nat.le_add_right _ _

end Compile.Mirrors

namespace Checked.Simulates

variable {γ δ : Type} {x : Checked α} {y : Checked β} {R : α → β → Compiler → Prop}
  {S : γ → δ → Compiler → Prop}

theorem bind {f : α → Checked γ} {g : β → Checked δ} (h : Simulates c x y R)
    (hf : ∀ v w c', R v w c' → Simulates c' (f v) (g w) S) :
    Simulates c (x >>= f) (y >>= g) S := by
  refine Compile.Simulates.bind h fun r s c' => ?_
  rintro ⟨v, w, rfl, rfl, hR⟩
  exact hf v w c' hR

theorem lift {x : Compile α} {y : Compile β} (h : Compile.Simulates c x y R) :
    Simulates c (liftM x) (liftM y) R := by
  rcases h with ⟨v, w, c', hx, hy, hR⟩ | ⟨misuse, c', hx, hexceeds⟩
  · exact Or.inl ⟨.ok v, .ok w, c', lift_of_ok hx, fun pending => lift_of_ok (hy pending),
      v, w, rfl, rfl, hR⟩
  · refine Or.inr ⟨misuse, c', ?_, hexceeds⟩
    show EStateM.map Except.ok x c = _
    rw [EStateM.map, hx]

/-- The first action goes on after nothing but the notes on lengths has changed.  The second action
has nothing to do meanwhile. -/
theorem after {x : Checked α} {f : α → Checked γ} {v : α} {pending : List (List Word)}
    {S : γ → β → Compiler → Prop} (hx : x.run c = .ok (.ok v) (c.withPending pending))
    (h : Simulates (c.withPending pending) (f v) y S) : Simulates c (x >>= f) y S := by
  rcases h with ⟨r, s, c', hf, hy, hS⟩ | ⟨misuse, c', hf, hexceeds⟩
  · exact Or.inl ⟨r, s, c', (bind_of_ok hx).trans hf, hy, hS⟩
  · exact Or.inr ⟨misuse, c', (bind_of_ok hx).trans hf, hexceeds⟩

/-- A function is applied to the result of the second action. -/
theorem mapRight {f : β → δ} {S : α → δ → Compiler → Prop} (h : Simulates c x y R)
    (hf : ∀ v w c', R v w c' → S v (f w) c') :
    Simulates c x (y >>= fun w => Pure.pure (f w)) S := by
  rcases h with ⟨r, s, c', hx, hy, v, w, rfl, rfl, hR⟩ | hfailed
  · exact Or.inl ⟨.ok v, .ok (f w), c', hx, fun pending => bind_of_ok (hy pending), v, f w, rfl,
      rfl, hf v w c' hR⟩
  · exact Or.inr hfailed

end Checked.Simulates

namespace Checked.Mirrors

variable {x y : Checked α} {P Q : α → Compiler → Prop}

theorem mono (h : Mirrors c x y P) (hP : ∀ v c', P v c' → Q v c') : Mirrors c x y Q := by
  rcases h with ⟨r, s, c', hx, hy, v, w, hr, hs, hvw, hv⟩ | hfailed
  · exact Or.inl ⟨r, s, c', hx, hy, v, w, hr, hs, hvw, hP v c' hv⟩
  · exact Or.inr hfailed

theorem pure {v : α} (hv : P v c) : Mirrors c (Pure.pure v) (Pure.pure v) P :=
  Or.inl ⟨.ok v, .ok v, c, rfl, fun _ => rfl, v, v, rfl, rfl, rfl, hv⟩

theorem bind {γ δ : Type} {f : α → Checked γ} {g : α → Checked δ} {S : γ → δ → Compiler → Prop}
    (h : Mirrors c x y P) (hf : ∀ v c', P v c' → Simulates c' (f v) (g v) S) :
    Simulates c (x >>= f) (y >>= g) S := by
  refine Simulates.bind h fun v w c' => ?_
  rintro ⟨rfl, hv⟩
  exact hf v c' hv

theorem lift {x y : Compile α} (h : Compile.Mirrors c x y P) : Mirrors c (liftM x) (liftM y) P :=
  Simulates.lift h

theorem assemble {action : Asm α}
    (h : Compile.Mirrors c (liftM action) (liftM action) P) :
    Mirrors c (liftM action) (liftM action) P :=
  lift (x := liftM action) (y := liftM action) h

/-- A check that is passed. -/
theorem check {p : Prop} [Decidable p] {defect : Defect} {span : Span} (hp : ¬p)
    (h : Mirrors c x y P) :
    Mirrors c (if p then reject defect span else x) (if p then reject defect span else y) P := by
  rw [if_neg hp, if_neg hp]
  exact h

end Checked.Mirrors
end Mirrors
end MJ
