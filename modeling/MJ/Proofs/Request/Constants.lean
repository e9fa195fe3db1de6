import MJ.Proofs.Boundaries
import MJ.Proofs.Realization
import MJ.Proofs.Request.Storage
import MJ.Proofs.Storage

/-!
# Global constants

Global constants that are given values before the main procedure is entered are set at its start, in
the order of the assignments, before anything else of it runs.

## Main definitions

* `Region.slot` — the static word that an instruction with an offset names.
* `Compiler.constantCode`, `Compiler.lastValue?` — the code that sets constants, and the values that
  they have afterwards.
* `Machine.Executes` — a list of instructions is executed.

## Main results

* `Compiler.constants_of_session` — the compiler notes all constants in order.
* `Machine.executes_constantCode` — what the code does.
* `Compiler.constants_set_first` — **the main procedure starts by setting all constants.**
-/

namespace MJ

/-- The static word that an instruction with an offset names: it has room for sixteen bits.  A
larger offset would be cut down, and so the compiler refuses it. -/
def Region.slot (offset : Word) : Nat := offset.toUInt32.toNat % 65536

theorem Region.slot_ofNat (n : Nat) : slot (Int32.ofNat n) = n % 65536 := by
  rw [slot]
  show (UInt32.ofNat n).toNat % 65536 = _
  rw [UInt32.toNat_ofNat']
  omega

/-- An instruction that stores into a static word. -/
theorem Region.exists_putStatic (offset : Word) :
    ∃ n, static.storeInstruction offset = .putStatic n ∧ Instruction.address n = slot offset := by
  have hoffset : Int32.ofNat offset.toUInt32.toNat = offset := by
    show (⟨UInt32.ofNat offset.toUInt32.toNat⟩ : Int32) = offset
    rw [UInt32.ofNat_toNat]
  refine ⟨Int16.ofNat offset.toUInt32.toNat, ?_, Instruction.address_ofNat _⟩
  rw [← storeInstruction_static, hoffset]

/-! ### The code -/

namespace Compiler

/-- The code that sets constants, one after the other.  No constant is left out, even if a later one
has the same word. -/
def constantCode (constants : List (Word × Word)) : List Instruction :=
  constants.flatMap fun p => [.ofConst p.2, Region.static.storeInstruction p.1]

theorem constantCode_cons (offset value : Word) (rest : List (Word × Word)) :
    constantCode ((offset, value) :: rest)
      = [.ofConst value, Region.static.storeInstruction offset] ++ constantCode rest := rfl

/-- There are two instructions for each constant. -/
theorem length_constantCode (constants : List (Word × Word)) :
    (constantCode constants).length = 2 * constants.length := by
  induction constants with
  | nil => rfl
  | cons p rest ih =>
    obtain ⟨offset, value⟩ := p
    simp only [constantCode_cons, List.length_append, List.length_cons, List.length_nil, ih]
    omega

/-- Constants are set by their code, and their words can be named, since otherwise setting them
would be a misuse. -/
theorem setConstants_eq_ok {constants : List (Word × Word)} {a b : Assembler} {u : Unit}
    (h : setConstants constants a = .ok u b) : b = a.append (constantCode constants) ∧
      ∀ p ∈ constants, Region.static.offsetWidth.holds p.1 = true := by
  induction constants generalizing a with
  | nil =>
    obtain ⟨-, rfl⟩ := EStateM.Result.ok.inj h
    exact ⟨(Assembler.append_nil _).symm, fun p hp => absurd hp List.not_mem_nil⟩
  | cons p rest ih =>
    obtain ⟨offset, value⟩ := p
    obtain ⟨_, a₁, hset, hrest⟩ := Action.bind_eq_ok.mp h
    obtain ⟨_, a₂, hpush, hstore⟩ := Action.bind_eq_ok.mp hset
    rw [Assembler.pushConst_eq] at hpush
    obtain ⟨-, rfl⟩ := EStateM.Result.ok.inj hpush
    -- that the store was emitted is what says that the word can be named
    have hholds : Region.static.offsetWidth.holds offset = true :=
      Assembler.holds_of_emitWith hstore
    rw [Assembler.storeWord_eq hholds] at hstore
    obtain ⟨-, rfl⟩ := EStateM.Result.ok.inj hstore
    obtain ⟨rfl, hlater⟩ := ih hrest
    rw [Assembler.append_append, Assembler.append_append, constantCode_cons]
    exact ⟨rfl, List.forall_mem_cons.mpr ⟨hholds, hlater⟩⟩

/-- The value that constants give to a static word last. -/
def lastValue? (n : Nat) : List (Word × Word) → Option Word
  | [] => none
  | (offset, value) :: rest =>
    (lastValue? n rest).or (if Region.slot offset = n then some value else none)

end Compiler

/-! ### Its execution -/

namespace Machine

/-- Instructions that are executed one after the other, whatever the limits.  Unlike a path, this
says which instructions they are. -/
inductive Executes (code : Array UInt8) : List Instruction → State → State → Prop
  | nil (s : State) : Executes code [] s s
  | cons {i : Instruction} {is : List Instruction} {s s₁ s₂ : State}
    (hfetch : fetch code s.pc = .ok i)
    (hexecute : ∀ limits, execute limits i (s.fetched i) = .ok true s₁)
    (hrest : Executes code is s₁ s₂) : Executes code (i :: is) s s₂

theorem Executes.path {code : Array UInt8} {is : List Instruction} {s s' : State}
    (h : Executes code is s s') : Path code is.length s s' := by
  induction h with
  | nil s => exact .refl s
  | cons hfetch hexecute _ ih => exact .step ⟨_, hfetch, hexecute⟩ ih

theorem Executes.append {code : Array UInt8} {is js : List Instruction} {s s₁ s₂ : State}
    (h : Executes code is s s₁) (h' : Executes code js s₁ s₂) : Executes code (is ++ js) s s₂ := by
  induction h with
  | nil s => exact h'
  | cons hfetch hexecute _ ih => exact .cons hfetch hexecute (ih h')

/-- Static data in which a word has another value.  It is irreducible, because unfolding it in every
state on the way would repeat the data many times. -/
@[irreducible] def withConstant (data : Array UInt8) (offset value : Word) : Array UInt8 :=
  writeAt data (Region.slot offset * wordSize) (Width.s32.encode value)

@[simp] theorem size_withConstant (data : Array UInt8) (offset value : Word) :
    (withConstant data offset value).size = data.size := by rw [withConstant, size_writeAt]

/-- Static data in which constants are set. -/
def withConstants (data : Array UInt8) : List (Word × Word) → Array UInt8
  | [] => data
  | (offset, value) :: rest => withConstants (withConstant data offset value) rest

/-- Whether the static data has the words of all constants. -/
def HasWords (data : Array UInt8) (constants : List (Word × Word)) : Prop :=
  ∀ p ∈ constants, Region.slot p.1 * wordSize + wordSize ≤ data.size

theorem HasWords.cons {data : Array UInt8} {offset value : Word} {rest : List (Word × Word)}
    (h : HasWords data ((offset, value) :: rest)) :
    Region.slot offset * wordSize + wordSize ≤ data.size ∧
      HasWords (withConstant data offset value) rest := by
  obtain ⟨hfirst, hrest⟩ := List.forall_mem_cons.mp h
  refine ⟨hfirst, fun p hp => ?_⟩
  rw [size_withConstant]
  exact hrest p hp

/-- Every word has the value that it was given last.  By induction on the constants: what comes
later in the list counts, and only then what was written first. -/
theorem staticWord?_withConstants {data : Array UInt8} {constants : List (Word × Word)}
    (h : HasWords data constants) (n : Nat) :
    staticWord? (withConstants data constants) n
      = (Compiler.lastValue? n constants).or (staticWord? data n) := by
  induction constants generalizing data with
  | nil => rfl
  | cons p rest ih =>
    obtain ⟨offset, value⟩ := p
    obtain ⟨hfirst, hrest⟩ := h.cons
    rw [withConstants, ih hrest, Compiler.lastValue?, Option.or_assoc, withConstant]
    by_cases hn : Region.slot offset = n
    · rw [if_pos hn, ← hn, staticWord?_writeAt_self value hfirst]
      rfl
    · rw [if_neg hn, staticWord?_writeAt_of_ne value (Ne.symm hn)]
      rfl

theorem execute_putStatic (limits : Limits) {s : State} {stack : Array Word} {n : Int16}
    {offset v : Word} (hstack : s.stack = stack.push v)
    (hn : Instruction.address n = Region.slot offset)
    (hsize : Region.slot offset * wordSize + wordSize ≤ s.statics.size) :
    execute limits (.putStatic n) s = .ok true { s with
      stack := stack, statics := withConstant s.statics offset v } := by
  have hset : setStatic (Region.slot offset) v { s with stack := stack } = .ok () { s with
      stack := stack, statics := withConstant s.statics offset v } := by
    rw [withConstant]
    exact if_pos hsize
  rw [execute, Action.bind_of_ok (pop_push hstack), hn, Action.bind_of_ok hset]
  rfl

/-- The code that sets a constant is executed to its end, in two steps. -/
theorem executes_constant {code : Array UInt8} {s : State} {offset value : Word}
    {is : List Instruction} (his : is = [.ofConst value, Region.static.storeInstruction offset])
    (hcode : CodeAt code s.pc (Code.ofInstructions is))
    (h : Region.slot offset * wordSize + wordSize ≤ s.statics.size) :
    ∃ s', Executes code is s s' ∧ s'.pc = s.pc + (Code.ofInstructions is).length ∧
      s'.statics = withConstant s.statics offset value := by
  obtain ⟨n, hinstruction, haddress⟩ := Region.exists_putStatic offset
  subst his
  rw [hinstruction] at hcode ⊢
  simp only [codeAt_append, Code.ofInstructions_cons, Code.ofInstructions_nil, List.append_nil,
    List.length_append, Instruction.length_bytes] at hcode ⊢
  obtain ⟨hpush, hstore⟩ := hcode
  refine ⟨_, .cons (fetch_of_codeAt hpush (Instruction.ofConst_plain value).1)
    (fun limits => execute_ofConst limits value _) (.cons
    (fetch_of_codeAt hstore Instruction.noConfusion)
    (fun limits => execute_putStatic limits rfl haddress h) (.nil _)), ?_, rfl⟩
  exact Nat.add_assoc _ _ _

/-- The code that sets constants is executed to its end.  It pushes and stores in turn, so that the
stack is as before and no fault is possible while the words exist. -/
theorem executes_constantCode {code : Array UInt8} {constants : List (Word × Word)} {s : State}
    (hcode : CodeAt code s.pc (Code.ofInstructions (Compiler.constantCode constants)))
    (h : HasWords s.statics constants) :
    ∃ s', Executes code (Compiler.constantCode constants) s s' ∧
      s'.pc = s.pc + (Code.ofInstructions (Compiler.constantCode constants)).length ∧
      s'.statics = withConstants s.statics constants := by
  induction constants generalizing s with
  | nil => exact ⟨s, .nil s, rfl, rfl⟩
  | cons p rest ih =>
    obtain ⟨offset, value⟩ := p
    obtain ⟨hfirst, hrest⟩ := h.cons
    rw [Compiler.constantCode_cons, Code.ofInstructions_append, codeAt_append] at hcode
    obtain ⟨s₁, hexecutes, hpc, hstatics⟩ := executes_constant rfl hcode.1 hfirst
    rw [← hpc] at hcode
    rw [← hstatics] at hrest
    obtain ⟨s₂, hlater, hpc', hstatics'⟩ := ih hcode.2 hrest
    refine ⟨s₂, hexecutes.append hlater, ?_, ?_⟩
    · rw [hpc', hpc, Compiler.constantCode_cons, Code.ofInstructions_append, List.length_append,
        Nat.add_assoc]
    · rw [hstatics', hstatics, withConstants]

/-- A run of an image whose main procedure starts by setting constants. -/
theorem executes_main {image : Image} {size : UInt8} {constants : List (Word × Word)}
    (hcode : CodeAt image.code.toArray image.header.startPc.toNat
      (Code.ofInstructions (.enter 0 size :: Compiler.constantCode constants)))
    (h : HasWords image.data.toArray constants) (input : List UInt8) :
    ∃ s, Executes image.code.toArray (.enter 0 size :: Compiler.constantCode constants)
        (.load image input) s ∧
      s.pc = image.header.startPc.toNat
        + (Code.ofInstructions (.enter 0 size :: Compiler.constantCode constants)).length ∧
      ∀ n, staticWord? s.statics n
        = (Compiler.lastValue? n constants).or (staticWord? image.data.toArray n) := by
  rw [Code.ofInstructions_cons, codeAt_append, Instruction.length_bytes] at hcode
  obtain ⟨henter, hconstants⟩ := hcode
  -- `enter` opens a frame and leaves the static data alone
  have hopen : ∀ limits, execute limits (.enter 0 size)
      ((State.load image input).fetched (.enter 0 size)) = .ok true
        { (State.load image input).fetched (.enter 0 size) with
          frames := #[Array.replicate (max size.toNat 0) 0] } := fun _ => rfl
  obtain ⟨s, hexecutes, hpc, hstatics⟩ := executes_constantCode
    (s := { (State.load image input).fetched (.enter 0 size) with
      frames := #[Array.replicate (max size.toNat 0) 0] }) hconstants h
  refine ⟨s, .cons (fetch_of_codeAt henter Instruction.noConfusion) hopen hexecutes, ?_,
    fun n => ?_⟩
  · rw [hpc, Code.ofInstructions_cons, List.length_append, Instruction.length_bytes,
      ← Nat.add_assoc]
    rfl
  · rw [hstatics]
    exact staticWord?_withConstants h n

end Machine

/-! ### The start of the main procedure -/

/-- An image starts at its main procedure.  Its label keeps the address that it got when the
procedure was entered. -/
theorem Assembler.startPc_of_finish {a b : Assembler} {image : Image} {main : String} {n : Nat}
    (h : finish a = .ok (.ok image) b) (heffects : Effects .empty a) (hmain : a.main? = some main)
    (haddress : a.labels.address? main = some n) (hn : n ≤ image.code.length) :
    image.header.startPc.toNat = n := by
  obtain ⟨-, main', startPc, hmain', hstart, hheader⟩ := segments_of_finish h
  obtain rfl := Option.some.inj (hmain.symm.trans hmain')
  obtain rfl := Option.some.inj (haddress.symm.trans hstart)
  obtain ⟨items, hitems⟩ := laidOut_of_effects heffects
  obtain ⟨is, hfinished⟩ := hitems.finished h
  have hsize := hfinished.size
  rw [← hfinished.code] at hsize
  rw [hheader, UInt32.toNat_ofNat']
  omega

namespace Compiler

/-- The constants that the requests of a session gave values, in order. -/
def assigned (log : List Exchange) : List (Word × Word) :=
  log.flatMap fun e => e.request.constants e.answer

/-- The main procedure is entered at its label, and the code of the constants follows. -/
theorem assembler_of_enterMain {r : Request} {answer : Answer} {c c' : Compiler}
    (hmain : r.entersMain = true) (h : r.run c = .ok answer c') : ∃ label,
    c'.assembler = ((c.assembler.withLabel label).opened label 0 true).append
        (constantCode c.constants) ∧
      Assembler.Effects ((c.assembler.withLabel label).opened label 0 true) c'.assembler ∧
      ∀ p ∈ c.constants, Region.static.offsetWidth.holds p.1 = true := by
  cases r with
  | enter procedure? =>
    obtain ⟨u, c₁, henter, hanswer⟩ := Action.bind_eq_ok.mp h
    obtain ⟨-, rfl⟩ := EStateM.Result.ok.inj hanswer
    rw [enter_of_main hmain] at henter
    obtain ⟨a, b, hopen, hset, rfl⟩ := enterAt_eq_ok henter
    obtain ⟨-, -, -, rfl⟩ := Assembler.enter_eq_ok hopen
    obtain ⟨hcode, hholds⟩ := setConstants_eq_ok hset
    exact ⟨_, hcode, (Asm.Issues.compositional.setConstants c.constants hset).effects, hholds⟩
  | _ => cases hmain

/-- The code at the start of the main procedure is its `enter` and then that of the constants.  The
size of the frame is not known yet when they are written, and is whatever the image has there. -/
theorem codeAt_main {r : Request} {answer : Answer} {c c' : Compiler} {a b : Assembler}
    {image : Image} (hmain : r.entersMain = true) (h : r.run c = .ok answer c')
    (hearlier : Assembler.Effects .empty c.assembler)
    (hlater : Assembler.Effects c'.assembler a)
    (hfinish : Assembler.finish a = .ok (.ok image) b) :
    image.header.startPc.toNat = c.assembler.code.size ∧ ∃ size,
      Machine.CodeAt image.code.toArray c.assembler.code.size
        (Code.ofInstructions (.enter 0 size :: constantCode c.constants)) ∧
      c'.assembler.code.size = c.assembler.code.size
        + (Code.ofInstructions (.enter 0 size :: constantCode c.constants)).length := by
  have hrun := (Request.carried h).assembler.effects
  obtain ⟨label, hcode, hconstants, -⟩ := assembler_of_enterMain hmain h
  have hrealized := Assembler.RealizedBy.of_effects hlater (Assembler.realizedBy_of_finish hfinish)
  -- the image realizes the program at both times, when the procedure was opened and after the
  -- constants were written
  have hopened := Assembler.RealizedBy.of_effects hconstants hrealized
  have hsize : ((c.assembler.withLabel label).opened label 0 true).code.size
      = c.assembler.code.size + 3 := by
    rw [Assembler.opened, Draft.size_emitHoles, Draft.size_append]
    rfl
  have hlength := hopened.size
  rw [hsize] at hlength
  refine ⟨?_, image.code[c.assembler.code.size + 2], ?_, ?_⟩
  · exact Assembler.startPc_of_finish hfinish ((hearlier.trans hrun).trans hlater)
      (Assembler.main?_of_effects (hconstants.trans hlater) rfl)
      (Assembler.address?_of_effects (hconstants.trans hlater)
        (Assembler.address?_withLabel_self c.assembler label)) (by omega)
  · rw [Code.ofInstructions_cons, Machine.codeAt_append, Instruction.length_bytes]
    refine ⟨hopened.codeAt_opened (List.getElem?_eq_getElem _), ?_⟩
    rw [hcode] at hrealized
    have hconstantCode := hrealized.codeAt
    rw [hsize] at hconstantCode
    exact hconstantCode
  · rw [hcode, Assembler.size_append, hsize, Code.ofInstructions_cons, List.length_append,
      Instruction.length_bytes, Nat.add_assoc]
    rfl

/-! ### Sessions before the main procedure -/

/-- What a session before the main procedure leaves to its start.  It is the invariant of such
sessions, in which the main procedure has not been entered at any moment. -/
structure Noted (known : List Exchange) (c : Compiler) : Prop where
  constants : c.constants = assigned known
  mainEntered : c.mainEntered = false
  earlier : ∀ e ∈ known, e.before.mainEntered = false

theorem Noted.step {known : List Exchange} {e : Exchange} (h : Noted known e.before)
    (hmain : e.request.entersMain = false) (hsound : e.IsSound) :
    Noted (known ++ [e]) e.after := by
  have hcarried := Request.carried hsound
  refine ⟨?_, ?_, fun e' he' => ?_⟩
  · rw [hcarried.constants, hmain, h.mainEntered, h.constants, assigned, assigned,
      List.flatMap_append, List.flatMap_cons, List.flatMap_nil, List.append_nil]
    rfl
  · rw [hcarried.mainEntered, h.mainEntered, hmain]
    rfl
  · rcases List.mem_append.mp he' with he' | he'
    · exact h.earlier e' he'
    · rw [List.mem_singleton.mp he']
      exact h.mainEntered

/-- The compiler notes all constants in order. -/
theorem constants_of_session {rs : List Request} {log : List Exchange} {c : Compiler}
    (h : session rs .empty = .ok log c) (hbefore : ∀ e ∈ log, e.request.entersMain = false) :
    Noted log c := by
  refine @session_induction (fun _ r => r.entersMain = false) Noted
    (fun _ _ hnoted hmain hsound => hnoted.step hmain hsound) rs [] log .empty c h ?_
    ⟨rfl, rfl, fun e he => absurd he List.not_mem_nil⟩
  rintro earlier e later rfl
  exact hbefore e (List.mem_append_right _ List.mem_cons_self)

/-- An assignment to a global constant before the main procedure leaves the program as it is,
whether it is accepted or found wrong. -/
theorem assembler_of_assignConstant {target x : Operand} {span : Span} {inHand : Operand}
    {answer : Answer} {c c' : Compiler} (hmain : c.mainEntered = false)
    (hglobal : target.isGlobal = true) (hconstant : target.isConstant = true)
    (h : (Request.construct (.assign target x) span inHand).run c = .ok answer c') :
    c'.assembler = c.assembler := by
  obtain ⟨r, c₁, hcompile, hanswer⟩ := Action.bind_eq_ok.mp h
  obtain ⟨-, rfl⟩ := EStateM.Result.ok.inj hanswer
  cases r with
  | error d =>
    rw [Construct.compiler_of_lend_error hcompile]
  | ok v =>
    obtain ⟨u, hassign, -⟩ := lend_return_eq_ok.mp hcompile
    unfold assign at hassign
    rw [hglobal, hconstant, Bool.and_self, if_pos rfl] at hassign
    -- three checks come first, each of which reports an error, and here there is none
    split at hassign
    · cases hassign
    · split at hassign
      · cases hassign
      · split at hassign
        · cases hassign
        · obtain ⟨w, hnote, -⟩ := Checked.lift_eq_ok.mp hassign
          rw [assignConstant_of_not_mainEntered hmain] at hnote
          obtain ⟨-, rfl⟩ := EStateM.Result.ok.inj hnote
          rfl

/-- Only an assignment to a global constant gives one a value. -/
theorem Request.exists_assign {r : Request} {answer : Answer} {p : Word × Word}
    (h : p ∈ r.constants answer) : ∃ target x span inHand,
      r = .construct (.assign target x) span inHand ∧ target.isGlobal = true ∧
        target.isConstant = true ∧ p.1 = target.offset := by
  cases r with
  | construct k span inHand =>
    rw [constants] at h
    split at h
    · cases h
    · cases k with
      | assign target x =>
        rw [constructConstants] at h
        split at h
        · rename_i hconstant
          obtain ⟨hglobal, hconstant⟩ := Bool.and_eq_true_iff.mp hconstant
          obtain ⟨value, -, rfl⟩ := List.mem_map.mp h
          exact ⟨target, x, span, inHand, rfl, hglobal, hconstant, rfl⟩
        · cases h
      | _ => cases h
  | _ => cases h

/-- Every constant that a session gave a value has a word of its own, if constants are declared
before they are given values. -/
theorem exists_word_of_assigned {rs : List Request} {log : List Exchange} {c : Compiler}
    (h : session rs .empty = .ok log c)
    (hdeclared : ∀ e ∈ log, e.request.TargetMeets fun x =>
      x.isGlobal = true → x.isConstant = true → ∃ d ∈ log, d.Declares x)
    {p : Word × Word} (hp : p ∈ assigned log) :
    ∃ w, (⟨w, .word⟩ : Allocation) ∈ log.flatMap Exchange.allocations ∧ p.1 = Int32.ofNat w := by
  obtain ⟨e, he, hconstants⟩ := List.mem_flatMap.mp hp
  obtain ⟨target, x, span, inHand, hrequest, hglobal, hconstant, hoffset⟩ :=
    Request.exists_assign hconstants
  have hmeets := hdeclared e he
  rw [hrequest] at hmeets
  obtain ⟨d, hd, hdeclares⟩ := hmeets hglobal hconstant
  rw [hoffset]
  exact exists_word_of_declares h hd hdeclares hglobal

/-- The word of a constant can be named, if it has an address at all. -/
theorem slot_eq {w : Nat} (hholds : Region.static.offsetWidth.holds (Int32.ofNat w) = true)
    (hw : w < 2147483648) : Region.slot (Int32.ofNat w) = w := by
  have hle : (w : Int) ≤ 65535 := Width.le_of_holds hw hholds
  rw [Region.slot_ofNat]
  omega

/-- **The main procedure starts by setting all constants.**  Before it is entered, assignments to
global constants emit no code.  What is executed first is its `enter`, and then one constant and one
`putstatic` for each of these assignments, in order; only then comes any other code of it.
Afterwards each static word has the value that it was given last, or else is as it was.  The word of
a constant is the one that was set aside for it. -/
theorem constants_set_first {rs : List Request} {log later : List Exchange} {main : Exchange}
    {c : Compiler} {b : Assembler} {image : Image}
    (hsession : session rs .empty = .ok (log ++ main :: later) c)
    (hbefore : ∀ e ∈ log, e.request.entersMain = false) (hmain : main.request.entersMain = true)
    (hdeclared : ∀ e ∈ log, e.request.TargetMeets fun x =>
      x.isGlobal = true → x.isConstant = true → ∃ d ∈ log, d.Declares x)
    (hfinish : Assembler.finish c.assembler = .ok (.ok image) b) (input : List UInt8) :
    (∀ e ∈ log, ∀ target x span inHand, e.request = .construct (.assign target x) span inHand →
      target.isGlobal = true → target.isConstant = true →
      e.after.assembler = e.before.assembler) ∧
    image.header.startPc.toNat = main.before.assembler.code.size ∧
    (∃ size s,
      Machine.Executes image.code.toArray (.enter 0 size :: constantCode (assigned log))
        (.load image input) s ∧
      Machine.RunsTo image.code.toArray (.load image input) (2 * (assigned log).length + 1)
        ⟨.unfinished, s⟩ ∧
      s.pc = main.after.assembler.code.size ∧
      ∀ n, Machine.staticWord? s.statics n
        = (lastValue? n (assigned log)).or (Machine.staticWord? image.data.toArray n)) ∧
    ∀ p ∈ assigned log, ∃ w, (⟨w, .word⟩ : Allocation) ∈ log.flatMap Exchange.allocations ∧
      p.1 = Int32.ofNat w ∧ (w < 2147483648 → Region.slot p.1 = w) := by
  -- the session before the main procedure is entered, the request that enters it, and the rest
  obtain ⟨rs₁, rs₂, hearlier, henter, hlater⟩ := session_split hsession
  obtain ⟨heffects, hexchanges⟩ := effects_of_session hearlier
  have hnoted := constants_of_session hearlier hbefore
  have hwords := fun p hp => exists_word_of_assigned (p := p) hearlier hdeclared hp
  obtain ⟨-, -, -, hholds⟩ := assembler_of_enterMain hmain henter
  obtain ⟨hstart, size, hcode, hsize⟩ := codeAt_main hmain henter heffects
    (effects_of_session hlater).1 hfinish
  rw [hnoted.constants] at hcode hsize hholds
  rw [← hstart] at hcode
  refine ⟨?_, hstart, ?_, ?_⟩
  · intro e he target x span inHand hrequest hglobal hconstant
    have hsound := (hexchanges e he).1
    rw [Exchange.IsSound, hrequest] at hsound
    exact assembler_of_assignConstant (hnoted.earlier e he) hglobal hconstant hsound
  · -- the words of constants were set aside before the procedure, and data only grows
    have hfits : Machine.HasWords image.data.toArray (assigned log) := by
      intro p hp
      obtain ⟨w, hw, hoffset⟩ := hwords p hp
      have hstop := (stored_of_session hearlier).stop_le hw
      have hprefix := (Assembler.isPrefix_of_effects
        ((Request.carried henter).assembler.effects.trans (effects_of_session hlater).1)).length_le
      have hmod := Nat.mod_le w 65536
      rw [hoffset, Region.slot_ofNat, List.size_toArray, (Assembler.segments_of_finish hfinish).1]
      simp only [Machine.Block.stop, Allocation.block, Storage.words, Storage.bytes,
        List.length_replicate, Array.length_toList, wordSize] at hstop hprefix ⊢
      omega
    obtain ⟨s, hexecutes, hpc, hstatics⟩ := Machine.executes_main hcode hfits input
    have hruns := hexecutes.path.runsTo
    rw [List.length_cons, length_constantCode] at hruns
    exact ⟨size, s, hexecutes, hruns, by rw [hpc, hsize, hstart], hstatics⟩
  · intro p hp
    obtain ⟨w, hw, hoffset⟩ := hwords p hp
    refine ⟨w, hw, hoffset, fun hlt => ?_⟩
    rw [hoffset]
    exact slot_eq (hoffset ▸ hholds p hp) hlt

/-- A number that is constant, declared outside of all procedures. -/
def globalConstant (name : String) (offset? : Option Word) : Decl :=
  ⟨name, .constant, .int, true, true, offset?, 1⟩

/-- An assignment of a number to such a constant. -/
def constantAssignment (offset value : Word) : Request :=
  .construct (.assign ⟨.memory, .int, true, true, true, offset⟩ (.int value)) ⟨1, 1⟩ (.int 0)

/-- A compilation that has set static words aside and noted constants. -/
def beforeMain (words : Nat) (constants : List (Word × Word)) : Compiler :=
  { Compiler.empty with
    assembler := { Assembler.empty with statics := ⟨Array.replicate (words * wordSize) 0⟩ }
    constants := constants }

/-- The compilation after a main procedure that only sets three constants. -/
def afterMain : Compiler :=
  { beforeMain 2 [] with
    assembler := {
      (beforeMain 2 []).assembler with
      code := ⟨#[.known 48, .known 0, .known 0, .known 22, .known 0, .known 1, .known 134,
        .known 160,
        .known 12, .known 0, .known 0, .known 18, .known 12, .known 0, .known 1, .known 21,
        .known 12, .known 0, .known 0, .known 49, .known 47]⟩
      labels := ⟨[("$main_end", 19), ("$main", 0)], []⟩
      main? := some "$main" }
    mainEntered := true }

/-- Of two constants, the first is given a value again after the second. -/
theorem constants_set_first_again : ∃ (log : List Exchange) (c : Compiler) (b : Assembler)
    (image : Image) (size : UInt8) (s : Machine.State),
    session [.allocVariable (globalConstant "a" none), .allocVariable (globalConstant "b" none),
      constantAssignment 0 100000, constantAssignment 1 3, constantAssignment 0 (-1), .enter none,
      .exit none] .empty = .ok log c ∧
    Assembler.finish c.assembler = .ok (.ok image) b ∧
    Machine.Executes image.code.toArray
      (.enter 0 size :: constantCode [(0, 100000), (1, 3), (0, -1)]) (.load image []) s ∧
    Machine.staticWord? s.statics 0 = some (-1) ∧ Machine.staticWord? s.statics 1 = some 3 := by
  have hfirst : (Request.allocVariable (globalConstant "a" none)).run .empty
      = .ok (.decl (globalConstant "a" (some 0))) (beforeMain 1 []) := rfl
  have hsecond : (Request.allocVariable (globalConstant "b" none)).run (beforeMain 1 [])
      = .ok (.decl (globalConstant "b" (some 1))) (beforeMain 2 []) := rfl
  have hassign : ∀ offset value constants,
      (constantAssignment offset value).run (beforeMain 2 constants)
        = .ok (.compiled (.int 0) none) (beforeMain 2 (constants ++ [(offset, value)])) :=
    fun _ _ _ => rfl
  have hmain : (do Compiler.enter none; Compiler.exit none : Compile Unit)
      (beforeMain 2 [(0, 100000), (1, 3), (0, -1)]) = .ok () afterMain := by
    decide +kernel
  obtain ⟨_, c, henter, hexit⟩ := Action.bind_eq_ok.mp hmain
  obtain ⟨image, hfinish⟩ : ∃ image, Assembler.finish afterMain.assembler
      = .ok (.ok image) afterMain.assembler := ⟨_, rfl⟩
  -- the record of the session
  let log : List Exchange := [
    ⟨.empty, .allocVariable (globalConstant "a" none), .decl (globalConstant "a" (some 0)),
      beforeMain 1 []⟩,
    ⟨beforeMain 1 [], .allocVariable (globalConstant "b" none),
      .decl (globalConstant "b" (some 1)), beforeMain 2 []⟩,
    ⟨beforeMain 2 [], constantAssignment 0 100000, .compiled (.int 0) none,
      beforeMain 2 [(0, 100000)]⟩,
    ⟨beforeMain 2 [(0, 100000)], constantAssignment 1 3, .compiled (.int 0) none,
      beforeMain 2 [(0, 100000), (1, 3)]⟩,
    ⟨beforeMain 2 [(0, 100000), (1, 3)], constantAssignment 0 (-1), .compiled (.int 0) none,
      beforeMain 2 [(0, 100000), (1, 3), (0, -1)]⟩]
  let main : Exchange := ⟨beforeMain 2 [(0, 100000), (1, 3), (0, -1)], .enter none, .done, c⟩
  have hsession : session [.allocVariable (globalConstant "a" none),
      .allocVariable (globalConstant "b" none), constantAssignment 0 100000,
      constantAssignment 1 3, constantAssignment 0 (-1), .enter none, .exit none] .empty
      = .ok (log ++ main :: [⟨c, .exit none, .done, afterMain⟩]) afterMain := by
    have hstart : (Request.enter none).run main.before = .ok .done c :=
      Action.bind_eq_ok.mpr ⟨(), c, henter, rfl⟩
    have hend : (Request.exit none).run c = .ok .done afterMain :=
      Action.bind_eq_ok.mpr ⟨(), afterMain, hexit, rfl⟩
    refine session_of_run hfirst (session_of_run hsecond (session_of_run (hassign _ _ _) ?_))
    exact session_of_run (hassign _ _ _) (session_of_run (hassign _ _ _)
      (session_of_run hstart (session_of_run hend (session_nil _))))
  have hbefore : ∀ e ∈ log, e.request.entersMain = false := by
    simp only [log, List.forall_mem_cons]
    exact ⟨rfl, rfl, rfl, rfl, rfl, fun e he => absurd he List.not_mem_nil⟩
  have hdeclared : ∀ offset, offset = 0 ∨ offset = 1 → ∃ d ∈ log,
      d.Declares ⟨.memory, .int, true, true, true, offset⟩ := by
    rintro offset (rfl | rfl)
    · exact ⟨_, List.mem_cons_self, _, _, rfl, rfl, rfl, rfl⟩
    · exact ⟨_, List.mem_cons_of_mem _ List.mem_cons_self, _, _, rfl, rfl, rfl, rfl⟩
  have hmeets : ∀ e ∈ log, e.request.TargetMeets fun x =>
      x.isGlobal = true → x.isConstant = true → ∃ d ∈ log, d.Declares x := by
    simp only [log, List.forall_mem_cons]
    exact ⟨trivial, trivial, fun _ _ => hdeclared 0 (Or.inl rfl),
      fun _ _ => hdeclared 1 (Or.inr rfl), fun _ _ => hdeclared 0 (Or.inl rfl),
      fun e he => absurd he List.not_mem_nil⟩
  obtain ⟨-, -, ⟨size, s, hexecutes, -, -, hwords⟩, -⟩ :=
    constants_set_first hsession hbefore rfl hmeets hfinish []
  exact ⟨_, _, _, image, size, s, hsession, hfinish, hexecutes, hwords 0, hwords 1⟩

end Compiler
end MJ
