import MJ.Proofs.Rejection
import MJ.Proofs.Resolution

/-!
# Properties of actions, step by step

The actions of the compiler are long sequences of commands to the assembler.  That such an action
issues certain commands, or that it finds no label taken, is a matter of its steps; what there is to
say about the steps differs from one property to the other, but the way from the steps to the whole
does not.  Here that way is gone once, for every property that is kept by sequences.

Properties are graded by the trace that an action leaves besides code.  A trace does not depend on
the order in which its three parts came about, so a sequence leaves the traces of its steps, part by
part.

## Main definitions

* `Trace`, `Assembler.Command.trace` — static data, stores into static words, and labels.
* `Asm.Compositional`, `Compile.Compositional` — a property that an action has if its steps have it.
* `Compile.NotesLengths` — an action that notes lengths of arrays and does nothing else.

## Main results

* `Compile.Compositional.allocLevels` — such a property holds for the code that allocates an array.
* `Compile.Compositional.construct` — and for all constructs other than assignments and calls.
-/

namespace MJ

/-! ### Traces -/

/-- What an action leaves behind besides code.  A label that the action makes up for itself is not
listed: whoever makes a label up knows that nobody else has it. -/
structure Trace where
  /-- The bytes that are added to the static data. -/
  bytes : List UInt8
  /-- The offsets of the static words that are stored into. -/
  offsets : List Word
  /-- The labels that are defined. -/
  labels : List String

namespace Trace

/-- No trace. -/
def none : Trace := ⟨[], [], []⟩

/-- The trace of a label that is defined. -/
def ofLabel (label : String) : Trace := ⟨[], [], [label]⟩

/-- The trace of a text that is stored. -/
def ofText (text : String) : Trace := ⟨Statics.stringBytes text, [], []⟩

instance : Append Trace :=
  ⟨fun τ τ' => ⟨τ.bytes ++ τ'.bytes, τ.offsets ++ τ'.offsets, τ.labels ++ τ'.labels⟩⟩

theorem append_none (τ : Trace) : τ ++ none = τ := by
  show Trace.mk (τ.bytes ++ []) (τ.offsets ++ []) (τ.labels ++ []) = τ
  simp only [List.append_nil]

end Trace

/-- The trace of a command. -/
def Assembler.Command.trace (k : Assembler.Command) : Trace :=
  ⟨k.staticBytes, k.staticStores, k.labels⟩

/-! ### Actions of the assembler -/

/-- A property that an action of the assembler has if its commands have it.  The fields are the
steps that actions of the assembler are made of. -/
structure Asm.Compositional (Ψ : Trace → ∀ α : Type, Asm α → Prop) : Prop where
  pure {α : Type} (v : α) : Ψ .none α (Pure.pure v)
  bind {α β : Type} {τ τ' : Trace} {x : Asm α} {f : α → Asm β} (hx : Ψ τ α x)
    (hf : ∀ v, Ψ τ' β (f v)) : Ψ (τ ++ τ') β (x >>= f)
  command (k : Assembler.Command) : Ψ k.trace Unit k.run
  /-- A command whose answer is used. -/
  answering (k : Assembler.Command) {α : Type} {x : Asm α}
    (hx : k.run = do let _ ← x) : Ψ k.trace α x

namespace Asm.Compositional

variable {Ψ : Trace → ∀ α : Type, Asm α → Prop} (hΨ : Compositional Ψ)

include hΨ

theorem setConstant (offset value : Word) :
    Ψ ⟨[], [offset], []⟩ Unit (Compiler.setConstant offset value) :=
  hΨ.bind (hΨ.command (.pushConst value)) fun _ => hΨ.command (.storeWord .static offset)

theorem setConstants (constants : List (Word × Word)) :
    Ψ ⟨[], constants.map Prod.fst, []⟩ Unit (Compiler.setConstants constants) := by
  induction constants with
  | nil => exact hΨ.pure ()
  | cons constant constants ih => exact hΨ.bind (hΨ.setConstant constant.1 constant.2) fun _ => ih

theorem writeText (text : String) : Ψ (.ofText text) Unit (Compiler.writeText text) := by
  rw [← Trace.append_none (.ofText text)]
  exact hΨ.bind (hΨ.answering (.allocString text) rfl) fun address =>
    hΨ.command (.printString address)

end Asm.Compositional

/-! ### Actions of the compiler -/

/-- An action that changes nothing but the lengths that are noted for arrays.  Such actions are
given by what they do, since they are not made of commands. -/
structure Compile.NotesLengths {α : Type} (x : Compile α) : Prop where
  ok : ∀ ⦃c c' : Compiler⦄ ⦃v : α⦄, x c = .ok v c' →
    ∃ noted, c' = { c with pendingLengths := noted }
  error : ∀ ⦃c c' : Compiler⦄ ⦃m : Misuse⦄, x c = .error m c' → m.isLabelTaken = false

namespace Compiler

theorem notesLengths_noteLength (dimension : Nat) (slot : Word) :
    (noteLength dimension slot).NotesLengths := by
  -- the cases are those of the action: a new list of notes, a list that goes on, and misuses
  constructor
  · intro c c' v h
    unfold noteLength at h
    split at h
    · cases h
      exact ⟨_, rfl⟩
    · split at h
      · cases h
      · split at h
        · cases h
          exact ⟨_, rfl⟩
        · cases h
  · intro c c' m h
    unfold noteLength at h
    split at h
    · cases h
    · split at h
      · cases h
        rfl
      · split at h
        · cases h
        · cases h
          rfl

theorem notesLengths_takeLengths (inner : Nat) (type : Ty) :
    (takeLengths inner type).NotesLengths := by
  constructor
  · intro c c' v h
    unfold takeLengths at h
    split at h
    · cases h
    · split at h
      · cases h
        exact ⟨_, rfl⟩
      · cases h
  · intro c c' m h
    unfold takeLengths at h
    split at h
    · cases h
      rfl
    · split at h
      · cases h
      · cases h
        rfl

end Compiler

/-- Whether a declared name gets a word of its own.  Types, procedures and programs get none. -/
def Decl.isStored (s : Decl) : Bool :=
  match s.kind with
  | .var | .constant => true
  | _ => false

/-- Constructs other than assignments and calls.  The trace of the other three depends on what the
compiler has noted, so that they are treated with each property. -/
def Construct.isPlain : Construct → Bool
  | assign _ _ | callProcedure _ _ | callFunction _ _ => false
  | _ => true

/-- A property that an action has if its steps have it.  Only labels that are defined can be
taken, so the compiler itself finds other misuse only.  A label that is made up may be defined by
what follows, and does not belong to the trace of the whole any more. -/
structure Compile.Compositional (Φ : Trace → ∀ α : Type, Compile α → Prop) : Prop where
  pure {α : Type} (v : α) : Φ .none α (Pure.pure v)
  misuse {α : Type} {τ : Trace} (m : Misuse) (hm : m.isLabelTaken = false) : Φ τ α (throw m)
  bind {α β : Type} {τ τ' : Trace} {x : Compile α} {f : α → Compile β} (hx : Φ τ α x)
    (hf : ∀ v, Φ τ' β (f v)) : Φ (τ ++ τ') β (x >>= f)
  command (k : Assembler.Command) : Φ k.trace Unit (liftM k.run)
  answering (k : Assembler.Command) {α : Type} {x : Asm α}
    (hx : k.run = do let _ ← x) : Φ k.trace α (liftM x)
  makeUp {β : Type} {τ : Trace} {f : String → Compile β}
    (hf : ∀ label, Φ (τ ++ .ofLabel label) β (f label)) : Φ τ β (Compiler.newLabel >>= f)
  look : Φ .none Compiler get
  note {α : Type} {x : Compile α} (hx : x.NotesLengths) : Φ .none α x

/-- The property of an action that may find the program wrong.  It leaves no trace: what does leave
one is said of actions of the compiler. -/
abbrev Checked.Meets {α : Type} (Φ : Trace → ∀ α : Type, Compile α → Prop) (x : Checked α) : Prop :=
  Φ .none (Except Diagnostic α) x.run

/-- The property of an action on the operand in hand, whatever operand it is lent. -/
def Handling.Meets {α : Type} (Φ : Trace → ∀ α : Type, Compile α → Prop) (a : Handling α) : Prop :=
  ∀ x, (Compiler.lend x a).Meets Φ

namespace Compile.Compositional

variable {Φ : Trace → ∀ α : Type, Compile α → Prop} {α β : Type} {τ : Trace}
  (hΦ : Compositional Φ)

include hΦ

/-- An action without a trace before another one. -/
theorem after {x : Compile α} {f : α → Compile β} (hx : Φ .none α x) (hf : ∀ v, Φ τ β (f v)) :
    Φ τ β (x >>= f) := hΦ.bind hx hf

/-- An action without a trace after another one. -/
theorem before {x : Compile α} {f : α → Compile β} (hx : Φ τ α x) (hf : ∀ v, Φ .none β (f v)) :
    Φ τ β (x >>= f) := by
  rw [← Trace.append_none τ]
  exact hΦ.bind hx hf

/-- What is said of actions of the compiler is said of actions of the assembler, too, since these
are lifted step by step. -/
theorem assembled : Asm.Compositional fun τ α x => Φ τ α (liftM x) where
  pure v := hΦ.pure v
  bind hx hf := by
    rw [Compiler.assemble_bind]
    exact hΦ.bind hx hf
  command := hΦ.command
  answering k _ _ hx := hΦ.answering k hx

/-! ### Single actions -/

theorem allocTemp : Φ .none Word Compiler.allocTemp :=
  hΦ.after (hΦ.answering (.allocLocal 1) rfl) fun _ => hΦ.pure _

/-- A global variable or constant gets a static word. -/
theorem allocVariable (s : Decl) :
    Φ ⟨if s.isStored && s.isGlobal then List.replicate wordSize 0 else [], [], []⟩ Decl
      (Compiler.allocVariable s) := by
  unfold Compiler.allocVariable Decl.isStored
  cases s.kind with
  | var | constant =>
    cases s.isGlobal with
    | true => exact hΦ.before (hΦ.answering (.allocStatic 1) rfl) fun _ => hΦ.pure _
    | false => exact hΦ.after (hΦ.answering (.allocLocal 1) rfl) fun _ => hΦ.pure _
  | _ => exact hΦ.pure s

/-- The loop that fills an array defines the two labels that it makes up, the second one after the
code of the inner levels.  By induction on the levels, as the code is generated. -/
theorem allocLevels (slots : List Word) : Φ .none Unit (Compiler.allocLevels slots) := by
  fun_induction Compiler.allocLevels slots with
  | case1 => exact hΦ.pure ()
  | case2 slot =>
    exact hΦ.after (hΦ.command (.loadWord .stack slot)) fun _ => hΦ.command .newArray
  | case3 slot inner rest ih =>
    refine hΦ.after (hΦ.command (.loadWord .stack slot)) fun _ =>
      hΦ.after (hΦ.command .newArray) fun _ => hΦ.after hΦ.allocTemp fun array =>
      hΦ.after hΦ.allocTemp fun index =>
      hΦ.after (hΦ.command (.storeWord .stack array)) fun _ =>
      hΦ.after (hΦ.command (.pushConst 0)) fun _ =>
      hΦ.after (hΦ.command (.storeWord .stack index)) fun _ =>
      hΦ.makeUp fun top => hΦ.makeUp fun done => hΦ.bind (hΦ.command (.define top)) fun _ => ?_
    -- the body of the loop, with the inner levels in the middle
    refine hΦ.after (hΦ.command (.loadWord .stack index)) fun _ =>
      hΦ.after (hΦ.command (.loadWord .stack slot)) fun _ =>
      hΦ.after (hΦ.command (.compare .ge)) fun _ =>
      hΦ.after (hΦ.command (.branchIf true done)) fun _ =>
      hΦ.after (hΦ.command (.loadWord .stack array)) fun _ =>
      hΦ.after (hΦ.command (.loadWord .stack index)) fun _ => hΦ.after ih fun _ => ?_
    exact hΦ.after (hΦ.command .storeElement) fun _ =>
      hΦ.after (hΦ.command (.loadWord .stack index)) fun _ =>
      hΦ.after (hΦ.command (.pushConst 1)) fun _ => hΦ.after (hΦ.command .add) fun _ =>
      hΦ.after (hΦ.command (.storeWord .stack index)) fun _ =>
      hΦ.after (hΦ.command (.jump top)) fun _ =>
      hΦ.before (hΦ.command (.define done)) fun _ => hΦ.command (.loadWord .stack array)

/-- Printing a truth value stores two texts, and jumps past one of them.  Here a trace has more than
one part, and its parts have to be put in order. -/
theorem writebool : Φ (.ofText "True" ++ .ofText "False") Unit
    (Compiler.callBuiltin .writebool) := by
  refine hΦ.makeUp fun otherwise => hΦ.makeUp fun done =>
    hΦ.after (hΦ.command (.branchIf false otherwise)) fun _ => ?_
  have hprints :
      Φ (.ofText "True" ++ (.ofLabel otherwise ++ (.ofText "False" ++ .ofLabel done))) Unit (do
        Compiler.writeText "True"
        Compiler.jump done
        Compiler.define otherwise
        Compiler.writeText "False"
        Compiler.define done) :=
    hΦ.bind (hΦ.assembled.writeText "True") fun _ =>
      hΦ.after (hΦ.command (.jump done)) fun _ => hΦ.bind (hΦ.command (.define otherwise)) fun _ =>
      hΦ.bind (hΦ.assembled.writeText "False") fun _ => hΦ.command (.define done)
  -- neither label has to do with the static data
  have htrace : Trace.ofText "True" ++ (.ofLabel otherwise ++ (.ofText "False" ++ .ofLabel done))
      = .ofText "True" ++ .ofText "False" ++ .ofLabel otherwise ++ .ofLabel done := by
    show Trace.mk (_ ++ ([] ++ (_ ++ []))) _ _ = Trace.mk (((_ ++ _) ++ []) ++ []) _ _
    simp only [List.append_nil, List.nil_append]
    rfl
  rwa [htrace] at hprints

/-- A value is stored into a variable, an element or a field.  Only the word of a global variable
leaves a trace. -/
theorem store (target : Operand) :
    Φ ⟨[], if target.isGlobal && target.place = .memory then [target.offset] else [], []⟩ Unit
      (Compiler.store target) := by
  unfold Compiler.store
  cases hplace : target.place with
  | memory =>
    cases hglobal : target.isGlobal with
    | true =>
      rw [Compiler.region, hglobal]
      exact hΦ.command (.storeWord .static target.offset)
    | false =>
      rw [Compiler.region, hglobal]
      exact hΦ.command (.storeWord .stack target.offset)
  | element =>
    rw [decide_eq_false Place.noConfusion, Bool.and_false]
    exact hΦ.command .storeElement
  | field =>
    rw [decide_eq_false Place.noConfusion, Bool.and_false]
    exact hΦ.command (.storeWord .heap target.offset)
  | literal | value | address => exact hΦ.misuse _ rfl

theorem returnFrom : Φ .none Unit Compiler.returnFrom := by
  refine hΦ.after hΦ.look fun c => ?_
  split
  · exact hΦ.misuse _ rfl
  · exact hΦ.command (.jump _)

theorem loadIfNeeded (x : Operand) : Φ .none Unit (Compiler.loadIfNeeded x) := by
  unfold Compiler.loadIfNeeded Compiler.pushFrom
  split
  · exact hΦ.command (.pushConst _)
  · refine hΦ.command (.loadWord _ _)
  · exact hΦ.command .loadElement
  · exact hΦ.command (.loadWord _ _)
  · exact hΦ.pure ()
  · exact hΦ.pure ()

theorem loadValue (x : Operand) : Φ .none Operand (Compiler.loadValue x) := by
  unfold Compiler.loadValue
  split
  · exact hΦ.pure x
  · exact hΦ.after (hΦ.loadIfNeeded x) fun _ => hΦ.pure _

theorem emitBinary (op : Binary) : Φ .none Unit (liftM (Compiler.emitBinary op)) := by
  cases op with
  | add => exact hΦ.command .add
  | sub => exact hΦ.command .sub
  | mul => exact hΦ.command .mul
  | div => exact hΦ.command .div
  | mod => exact hΦ.command .rem
  | and => exact hΦ.command .conjunction
  | or => exact hΦ.command .disjunction

/-! ### Actions that may find the program wrong -/

theorem lift {x : Compile α} (hx : Φ .none α x) : Checked.Meets Φ (liftM x) := by
  have hmap : (liftM x : Checked α).run = Except.ok <$> x := rfl
  rw [Checked.Meets, hmap, map_eq_pure_bind]
  exact hΦ.after hx fun v => hΦ.pure _

theorem accept (v : α) : Checked.Meets Φ (Pure.pure v) := hΦ.pure _

theorem reject (defect : Defect) (span : Span) :
    Checked.Meets Φ (Compiler.reject defect span : Checked α) :=
  hΦ.pure _

theorem fail (m : Misuse) (hm : m.isLabelTaken = false) :
    Checked.Meets Φ (throwThe Misuse m : Checked α) :=
  hΦ.misuse m hm

/-- A check before an action does nothing that could be seen in a trace. -/
theorem check {p : Prop} [Decidable p] {defect : Defect} {span : Span} {x : Checked α}
    (hx : x.Meets Φ) : (if p then Compiler.reject defect span else x).Meets Φ := by
  split
  · exact hΦ.reject defect span
  · exact hx

theorem andThen {x : Checked α} {f : α → Checked β} (hx : x.Meets Φ) (hf : ∀ v, (f v).Meets Φ) :
    (x >>= f).Meets Φ := by
  refine hΦ.after hx fun r => ?_
  cases r with
  | ok v => exact hf v
  | error d => exact hΦ.pure _

theorem unary (op? : Option Unary) (span : Span) (x : Operand) :
    (Compiler.unary op? span x).Meets Φ := by
  cases op? with
  | none => exact hΦ.accept x
  | some op =>
    have hload := hΦ.lift (hΦ.loadIfNeeded x)
    cases op with
    | plus => exact hΦ.check (hΦ.andThen hload fun _ => hΦ.accept _)
    | minus =>
      exact hΦ.check (hΦ.andThen hload fun _ =>
        hΦ.andThen (hΦ.lift (hΦ.command .neg)) fun _ => hΦ.accept _)
    | not =>
      exact hΦ.check (hΦ.andThen hload fun _ =>
        hΦ.andThen (hΦ.lift (hΦ.command .negation)) fun _ => hΦ.accept _)

theorem binary (x : Operand) (op : Binary) (span : Span) (y : Operand) :
    (Compiler.binary x op span y).Meets Φ :=
  hΦ.check (hΦ.andThen (hΦ.lift (hΦ.emitBinary op)) fun _ => hΦ.accept _)

theorem relation (x : Operand) (op : Relation) (span : Span) (y : Operand) :
    (Compiler.relation x op span y).Meets Φ :=
  hΦ.check (hΦ.andThen (hΦ.lift (hΦ.command (.compare _))) fun _ => hΦ.accept _)

theorem equality (x : Operand) (op : Equality) (span : Span) (y : Operand) :
    (Compiler.equality x op span y).Meets Φ :=
  hΦ.check (hΦ.andThen (hΦ.lift (hΦ.command (.compare _))) fun _ => hΦ.accept _)

theorem branchIfFalse (condition : Operand) (label : String) (span : Span) :
    (Compiler.branchIfFalse condition label span).Meets Φ :=
  hΦ.check (hΦ.andThen (hΦ.lift (hΦ.loadIfNeeded condition)) fun _ =>
    hΦ.lift (hΦ.command (.branchIf false label)))

theorem storeLength (dimension : Nat) (length : Operand) (span : Span) :
    (Compiler.storeLength dimension length span).Meets Φ := by
  refine hΦ.check (hΦ.check (hΦ.andThen (hΦ.lift (hΦ.loadIfNeeded length)) fun _ => ?_))
  split
  · exact hΦ.andThen (hΦ.lift hΦ.allocTemp) fun slot =>
      hΦ.andThen (hΦ.lift (hΦ.command (.storeWord .stack slot))) fun _ =>
      hΦ.lift (hΦ.note (Compiler.notesLengths_noteLength dimension slot))
  · exact hΦ.accept ()

theorem allocArray (type : Ty) (span : Span) : (Compiler.allocArray type span).Meets Φ := by
  cases type with
  | array inner base =>
    refine hΦ.check ?_
    split
    · exact hΦ.andThen (hΦ.lift (hΦ.command .newArray)) fun _ => hΦ.accept _
    · exact hΦ.andThen (hΦ.lift (hΦ.note (Compiler.notesLengths_takeLengths inner _))) fun slots =>
        hΦ.andThen (hΦ.lift hΦ.allocTemp) fun first =>
        hΦ.andThen (hΦ.lift (hΦ.command (.storeWord .stack first))) fun _ =>
        hΦ.andThen (hΦ.lift (hΦ.allocLevels (first :: slots))) fun _ => hΦ.accept _
  | _ => exact hΦ.reject _ span

theorem allocRecord (type : Ty) (span : Span) : (Compiler.allocRecord type span).Meets Φ := by
  cases type with
  | record name fields =>
    exact hΦ.andThen (hΦ.lift (hΦ.command (.newObject _))) fun _ => hΦ.accept _
  | _ => exact hΦ.reject _ span

/-! ### Actions on the operand in hand -/

theorem handle {x : Checked α} (hx : x.Meets Φ) : Handling.Meets Φ (Handling.ofChecked x) := by
  intro y
  rw [Compiler.lend_ofChecked]
  exact hΦ.andThen hx fun _ => hΦ.accept _

theorem handleThen {a : Handling α} {f : α → Handling β} (ha : Handling.Meets Φ a)
    (hf : ∀ v, Handling.Meets Φ (f v)) : Handling.Meets Φ (a >>= f) := by
  intro x
  rw [Compiler.lend_bind]
  exact hΦ.andThen (ha x) fun p => hf p.2 p.1

theorem answer (v : α) : Handling.Meets Φ (Pure.pure v) := fun x => hΦ.accept (x, v)

theorem inHand : Handling.Meets Φ Handling.inHand := fun x => hΦ.accept (x, x)

theorem changeInHand (f : Operand → Operand) : Handling.Meets Φ (Handling.changeInHand f) :=
  fun x => hΦ.accept (f x, ())

theorem loadInHand : Handling.Meets Φ Handling.loadInHand :=
  hΦ.handleThen hΦ.inHand fun x => hΦ.handleThen (hΦ.handle (hΦ.lift (hΦ.loadValue x))) fun _ =>
    hΦ.changeInHand _

theorem selectElement (index : Operand) (span : Span) :
    Handling.Meets Φ (Handling.selectElement index span) := by
  refine hΦ.handleThen hΦ.inHand fun array => ?_
  split
  · split
    · exact fun _ => hΦ.reject _ span
    · split
      · exact fun _ => hΦ.fail _ rfl
      · exact hΦ.handleThen (hΦ.handle (hΦ.lift (hΦ.loadIfNeeded index))) fun _ =>
          hΦ.changeInHand _
  · exact fun _ => hΦ.reject _ span

theorem selectField (field : String) (span : Span) :
    Handling.Meets Φ (Handling.selectField field span) := by
  refine hΦ.handleThen hΦ.inHand fun record => ?_
  split
  · split
    · exact fun _ => hΦ.reject _ span
    · split
      · exact fun _ => hΦ.fail _ rfl
      · exact hΦ.handleThen hΦ.loadInHand fun _ => hΦ.changeInHand _
  · exact fun _ => hΦ.reject _ span

theorem arrayLength (span : Span) : Handling.Meets Φ (Handling.arrayLength span) := by
  refine hΦ.handleThen hΦ.inHand fun array => ?_
  split
  · exact fun _ => hΦ.reject _ span
  · exact hΦ.handleThen hΦ.loadInHand fun _ =>
      hΦ.handleThen (hΦ.handle (hΦ.lift (hΦ.command .arrayLength))) fun _ => hΦ.answer _

/-- **Every construct other than assignments and calls has the property.**  Both what constructs
issue and which labels they define are instances of this. -/
theorem construct {k : Construct} (hk : k.isPlain = true) (span : Span) :
    Handling.Meets Φ (k.compile span) := by
  -- most constructs do not touch the operand in hand
  have checked {α : Type} {a : Checked α} {f : α → Option Operand} (ha : a.Meets Φ) :
      Handling.Meets Φ (do return f (← a) : Handling (Option Operand)) :=
    hΦ.handleThen (hΦ.handle ha) fun _ => hΦ.answer _
  cases k with
  | storeLength dimension length => exact checked (hΦ.storeLength dimension length span)
  | allocArray type => exact checked (hΦ.allocArray type span)
  | allocRecord type => exact checked (hΦ.allocRecord type span)
  | selectElement index => exact hΦ.handleThen (hΦ.selectElement index span) fun _ => hΦ.answer _
  | selectField field => exact hΦ.handleThen (hΦ.selectField field span) fun _ => hΦ.answer _
  | arrayLength => exact hΦ.handleThen (hΦ.arrayLength span) fun _ => hΦ.answer _
  | unary op? x => exact checked (hΦ.unary op? span x)
  | binary x op y => exact checked (hΦ.binary x op span y)
  | relation x op y => exact checked (hΦ.relation x op span y)
  | equality x op y => exact checked (hΦ.equality x op span y)
  | branchIfFalse condition label => exact checked (hΦ.branchIfFalse condition label span)
  | assign | callProcedure | callFunction => cases hk

end Compile.Compositional

end MJ
