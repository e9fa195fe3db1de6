import MJ.Proofs.Request.Commands

/-!
# Conversations with the compiler

A caller makes one request after the other, and may use each answer in later requests.  What a
request adds to the static data, which static words its code stores into, and which constants it
leaves to the start of the main procedure depends only on the request, on its answer, and on what
the compiler has noted before.

## Main definitions

* `Compiler.Request`, `Compiler.Answer`, `Compiler.Request.run` — everything that a caller can ask.
* `Compiler.Request.storage`, `Compiler.Request.stores`, `Compiler.Request.constants` — what a
  request has to do with static storage.
* `Compiler.session`, `Compiler.Exchange` — a sequence of requests, and the record of it.

## Main results

* `Compiler.Request.carried` — **every request is carried out by commands.**
* `Compiler.session_induction` — what holds at the end of every session.
-/

namespace MJ

/-- The builtin procedure that a declared name stands for. -/
def Decl.builtin? (s : Decl) : Option Builtin :=
  match s.type with
  | .procedure _ _ _ builtin? => builtin?
  | _ => none

/-- Static words that are set aside, by what is in them at first.  The two kinds have different
owners: words may be assigned to, and texts may not. -/
inductive Storage where
  /-- The word of a variable or constant. -/
  | word
  /-- A text. -/
  | text (text : String)
  deriving DecidableEq, Repr

/-- What is in the words at first. -/
def Storage.bytes : Storage → List UInt8
  | word => List.replicate wordSize 0
  | text t => Statics.stringBytes t

namespace Compiler

/-- What a caller can ask of the compiler.  Requests are data, as commands are, and so statements
about all programs are statements about all lists of requests. -/
inductive Request where
  | newLabel
  | define (label : String)
  | jump (label : String)
  | loadValue (x : Operand)
  | loadAddress (x : Operand)
  | allocVariable (s : Decl)
  /-- A construct that is checked; `inHand` is the operand that it may change. -/
  | construct (k : Construct) (span : Span) (inHand : Operand)
  | enter (procedure? : Option Decl)
  | exit (procedure? : Option Decl)
  | returnFrom
  | writeString (literal : String)

/-- What the compiler answers. -/
inductive Answer where
  | done
  | label (label : String)
  | operand (x : Operand)
  | decl (s : Decl)
  /-- The operand in hand as it is then, and the result of the construct. -/
  | compiled (inHand : Operand) (result? : Option Operand)
  | rejected (d : Diagnostic)

/-- The answer to a construct. -/
def Answer.ofChecked : Except Diagnostic (Operand × Option Operand) → Answer
  | .ok (inHand, result?) => compiled inHand result?
  | .error d => rejected d

/-- Whether a construct was found wrong. -/
def Answer.isRejected : Answer → Bool
  | rejected _ => true
  | _ => false

namespace Request

/-- Carries a request out. -/
def run : Request → Compile Answer
  | newLabel => do return .label (← Compiler.newLabel)
  | define label => do
    Compiler.define label
    return .done
  | jump label => do
    Compiler.jump label
    return .done
  | loadValue x => do return .operand (← Compiler.loadValue x)
  | loadAddress x => do return .operand (← Compiler.loadAddress x)
  | allocVariable s => do return .decl (← Compiler.allocVariable s)
  | construct k span inHand => do return .ofChecked (← (lend inHand (k.compile span)).run)
  | enter procedure? => do
    Compiler.enter procedure?
    return .done
  | exit procedure? => do
    Compiler.exit procedure?
    return .done
  | returnFrom => do
    Compiler.returnFrom
    return .done
  | writeString literal => do
    Compiler.writeString literal
    return .done

/-- Whether the main procedure is to be entered.  This is the request at which noted constants
become code. -/
def entersMain : Request → Bool
  | enter none => true
  | enter (some s) => s.kind == .program
  | _ => false

end Request

/-- The texts that a builtin procedure prints; the one that ends a line is stored once. -/
def builtinStorage (c : Compiler) : Builtin → List Storage
  | .writebool => [.text "True", .text "False"]
  | .writeln => if c.newline?.isNone then [.text "\n"] else []
  | .writeint | .readint => []

/-- The static words that an accepted construct sets aside. -/
def constructStorage (c : Compiler) : Construct → List Storage
  | .callProcedure s _ | .callFunction s _ => s.builtin?.toList.flatMap (builtinStorage c)
  | _ => []

/-- The static words that an accepted construct stores into.  A constant that is only noted is
stored into later, when the main procedure is entered. -/
def constructStores (c : Compiler) : Construct → List Word
  | .assign target _ =>
    if target.isGlobal && target.isConstant then if c.mainEntered then [target.offset] else []
    else if target.isGlobal && target.place = .memory then [target.offset] else []
  | _ => []

/-- The global constant that an accepted construct gives a value, and the value. -/
def constructConstants : Construct → List (Word × Word)
  | .assign target x =>
    if target.isGlobal && target.isConstant then
      x.literal?.toList.map fun value => (target.offset, value)
    else []
  | _ => []

namespace Request

/-- The static words that a request sets aside, one allocation after the other. -/
def storage (c : Compiler) (answer : Answer) : Request → List Storage
  | allocVariable s => if s.isStored && s.isGlobal then [.word] else []
  | construct k _ _ => if answer.isRejected then [] else constructStorage c k
  | writeString literal => [.text (unquote literal)]
  | _ => []

/-- The offsets of the static words that the code of a request stores into. -/
def stores (c : Compiler) (answer : Answer) : Request → List Word
  | construct k _ _ => if answer.isRejected then [] else constructStores c k
  | r => if r.entersMain then c.constants.map Prod.fst else []

/-- The global constant that a request gives a value, and the value. -/
def constants (answer : Answer) : Request → List (Word × Word)
  | construct k _ _ => if answer.isRejected then [] else constructConstants k
  | _ => []

/-- What a request does to static storage and to the constants still to be set.  Everything that is
said of the static data of sessions follows from these three facts. -/
structure Carried (r : Request) (answer : Answer) (c c' : Compiler) : Prop where
  assembler : c.assembler.Issued ((r.storage c answer).flatMap Storage.bytes)
    (r.stores c answer) c'.assembler
  constants : c'.constants = if r.entersMain then []
    else c.constants ++ if c.mainEntered then [] else r.constants answer
  mainEntered : c'.mainEntered = (c.mainEntered || r.entersMain)

end Request

/-! ### Constructs -/

/-- What an accepted construct does to static storage and to the constants still to be set.  A
construct that is found wrong does nothing, and so is left out. -/
structure Accepted (k : Construct) (c c' : Compiler) : Prop where
  assembler : c.assembler.Issued ((constructStorage c k).flatMap Storage.bytes)
    (constructStores c k) c'.assembler
  constants : c'.constants
    = c.constants ++ if c.mainEntered then [] else constructConstants k
  mainEntered : c'.mainEntered = c.mainEntered

/-- Constructs other than assignments leave constants alone. -/
theorem Accepted.of_issued {k : Construct} {c c' : Compiler}
    (h : Issued ((constructStorage c k).flatMap Storage.bytes) [] c c')
    (hstores : constructStores c k = []) (hconstants : constructConstants k = []) :
    Accepted k c c' where
  assembler := by
    rw [hstores]
    exact h.assembler
  constants := by
    rw [hconstants, ite_self, List.append_nil]
    exact h.constants
  mainEntered := h.mainEntered

/-- A global constant is set at once in the main procedure or after it. -/
theorem assignConstant_of_mainEntered {c : Compiler} (h : c.mainEntered = true)
    (offset value : Word) :
    assignConstant offset value c = (liftM (setConstant offset value) : Compile Unit) c := by
  have hassign : assignConstant offset value c
      = (if c.mainEntered then liftM (setConstant offset value)
        else modify fun c => { c with constants := c.constants ++ [(offset, value)] } :
          Compile Unit) c := rfl
  rw [hassign, if_pos h]

/-- A global constant is noted before the main procedure, and nothing else happens. -/
theorem assignConstant_of_not_mainEntered {c : Compiler} (h : c.mainEntered = false)
    (offset value : Word) : assignConstant offset value c
      = .ok () { c with constants := c.constants ++ [(offset, value)] } := by
  have hassign : assignConstant offset value c
      = (if c.mainEntered then liftM (setConstant offset value)
        else modify fun c => { c with constants := c.constants ++ [(offset, value)] } :
          Compile Unit) c := rfl
  rw [hassign, if_neg (Bool.eq_false_iff.mp h)]
  rfl

/-- A constant that is given a value is stored into at once, or is noted for later, depending on
whether the main procedure has been entered. -/
theorem accepted_assignConstant {target x : Operand} {value : Word} {c c' : Compiler} {u : Unit}
    (hconstant : (target.isGlobal && target.isConstant) = true) (hvalue : x.literal? = some value)
    (h : assignConstant target.offset value c = .ok u c') : Accepted (.assign target x) c c' := by
  cases hmain : c.mainEntered with
  | true =>
    rw [assignConstant_of_mainEntered hmain] at h
    have hissued := Compile.Issues.compositional.assembled.setConstant target.offset value h
    refine ⟨?_, ?_, hissued.mainEntered⟩
    · rw [constructStores, if_pos hconstant, hmain]
      exact hissued.assembler
    · rw [hmain, if_pos rfl, List.append_nil]
      exact hissued.constants
  | false =>
    rw [assignConstant_of_not_mainEntered hmain] at h
    obtain ⟨-, rfl⟩ := EStateM.Result.ok.inj h
    refine ⟨?_, ?_, rfl⟩
    · rw [constructStores, if_pos hconstant, hmain]
      exact .refl _
    · rw [hmain, constructConstants, if_pos hconstant, hvalue]
      rfl

/-- An assignment that is accepted passes all checks first, and only then does it note or store
anything. -/
theorem accepted_assign {target x : Operand} {span : Span} {c c' : Compiler} {u : Unit}
    (h : (assign target x span).run c = .ok (.ok u) c') : Accepted (.assign target x) c c' := by
  unfold assign at h
  split at h
  · cases h
  · split at h
    · cases h
    · split at h
      · rename_i hconstant
        split at h
        · cases h
        · rename_i value hvalue
          obtain ⟨v, hassign, -⟩ := Checked.lift_eq_ok.mp h
          exact accepted_assignConstant hconstant hvalue hassign
      · -- no constant: the value is pushed and stored
        rename_i hconstant
        obtain ⟨r, c₁, hload⟩ := Checked.exists_ok_of_bind h
        obtain ⟨v, hpush, rfl⟩ := Checked.lift_eq_ok.mp hload
        rw [Checked.bind_of_ok hload] at h
        obtain ⟨w, hstore, -⟩ := Checked.lift_eq_ok.mp h
        have hΦ := Compile.Issues.compositional
        have hissued := (hΦ.loadIfNeeded x hpush).trans (hΦ.store target hstore)
        refine ⟨?_, ?_, hissued.mainEntered⟩
        · rw [constructStores, if_neg hconstant]
          exact hissued.assembler
        · rw [constructConstants, if_neg hconstant, ite_self, List.append_nil]
          exact hissued.constants

/-- The text that ends a line is stored when it is first needed, and its address is noted. -/
theorem newline_of_some {c : Compiler} {address : Nat} (h : c.newline? = some address) :
    newline c = .ok address c := by
  rw [newline, Action.bind_of_ok (show (get : Compile Compiler) c = .ok c c from rfl), h]
  rfl

theorem newline_of_none {c : Compiler} (h : c.newline? = none) :
    newline c = (do
      let address ← Assembler.allocString "\n"
      modify fun c => { c with newline? := some address }
      return address : Compile Nat) c := by
  rw [newline, Action.bind_of_ok (show (get : Compile Compiler) c = .ok c c from rfl), h]

theorem issued_writeln {c c' : Compiler} {u : Unit} (h : callBuiltin .writeln c = .ok u c') :
    Issued (if c.newline?.isNone then Statics.stringBytes "\n" else []) [] c c' := by
  obtain ⟨address, c₁, hnewline, hprint⟩ := Action.bind_eq_ok.mp h
  have hprinted := Compile.Issues.command (.printString address) hprint
  cases hknown : c.newline? with
  | some known =>
    rw [newline_of_some hknown] at hnewline
    obtain ⟨-, rfl⟩ := EStateM.Result.ok.inj hnewline
    exact hprinted
  | none =>
    rw [newline_of_none hknown] at hnewline
    obtain ⟨n, c₂, halloc, hrest⟩ := Action.bind_eq_ok.mp hnewline
    obtain ⟨-, rfl⟩ := EStateM.Result.ok.inj hrest
    have hstored : c.Issued (Statics.stringBytes "\n") [] c₂ :=
      Compile.Issues.assemble (.answering (.allocString "\n") rfl) halloc
    have hall : c.Issued (Statics.stringBytes "\n" ++ []) [] c' :=
      hstored.trans ⟨hprinted.assembler, hprinted.constants, hprinted.mainEntered⟩
    rwa [List.append_nil] at hall

theorem issued_callBuiltin {b : Builtin} {c c' : Compiler} {u : Unit}
    (h : callBuiltin b c = .ok u c') :
    Issued ((builtinStorage c b).flatMap Storage.bytes) [] c c' := by
  cases b with
  | writeint => exact Compile.Issues.command .printInteger h
  | readint => exact Compile.Issues.command .readInteger h
  | writebool =>
    have hissued : Issued (Statics.stringBytes "True" ++ Statics.stringBytes "False") [] c c' :=
      Compile.Issues.compositional.writebool h
    rw [← List.append_nil (Statics.stringBytes "False")] at hissued
    exact hissued
  | writeln =>
    have hissued := issued_writeln h
    rw [builtinStorage]
    split
    · rename_i hnone
      rw [if_pos hnone, ← List.append_nil (Statics.stringBytes "\n")] at hissued
      exact hissued
    · rename_i hsome
      rw [if_neg hsome] at hissued
      exact hissued

/-- A call adds what its builtin procedure prints, if it is one.  Other procedures are called by
their label and add nothing. -/
theorem issued_callProcedure {s : Decl} {args : List Operand} {span : Span} {c c' : Compiler}
    {result? : Option Operand} (h : (callProcedure s args span).run c = .ok (.ok result?) c') :
    Issued ((s.builtin?.toList.flatMap (builtinStorage c)).flatMap Storage.bytes) [] c c' := by
  unfold callProcedure at h
  split at h
  · rename_i name result params builtin? htype
    rw [Decl.builtin?, htype]
    split at h
    · cases h
    · split at h
      · cases h
      · split at h
        · cases h
        · cases builtin? with
          | some b =>
            obtain ⟨v, c₁, hcall, hresult⟩ := Checked.bind_eq_ok (x := liftM (callBuiltin b)) h
            obtain ⟨-, rfl⟩ := EStateM.Result.ok.inj hresult
            obtain ⟨u, hbuiltin, -⟩ := Checked.lift_eq_ok.mp hcall
            have hissued := issued_callBuiltin hbuiltin
            rw [← List.append_nil (builtinStorage c b)] at hissued
            exact hissued
          | none =>
            obtain ⟨v, c₁, hcall, hresult⟩ :=
              Checked.bind_eq_ok (x := liftM (Assembler.call s.label)) h
            obtain ⟨-, rfl⟩ := EStateM.Result.ok.inj hresult
            obtain ⟨u, a, haction, rfl, -⟩ := Checked.assemble_eq_ok.mp hcall
            exact ⟨.of_command (.call s.label) haction, rfl, rfl⟩
  · cases h

theorem issued_callFunction {s : Decl} {args : List Operand} {span : Span} {c c' : Compiler}
    {x : Operand} (h : (callFunction s args span).run c = .ok (.ok x) c') :
    Issued ((s.builtin?.toList.flatMap (builtinStorage c)).flatMap Storage.bytes) [] c c' := by
  unfold callFunction at h
  split at h
  · cases h
  · obtain ⟨result?, c₁, hcall, hresult⟩ := Checked.bind_eq_ok h
    cases result? with
    | none => cases hresult
    | some y =>
      obtain ⟨-, rfl⟩ := EStateM.Result.ok.inj hresult
      exact issued_callProcedure hcall

/-- Every construct that is accepted is carried out by commands.  Only assignments and calls have to
do with static storage; the others are shown to be quiet by their form. -/
theorem accepted_of_compile {k : Construct} {span : Span} {inHand : Operand} {c c' : Compiler}
    {v : Operand × Option Operand} (h : (lend inHand (k.compile span)).run c = .ok (.ok v) c') :
    Accepted k c c' := by
  cases k with
  | assign target x =>
    obtain ⟨u, hassign, -⟩ := lend_return_eq_ok.mp h
    exact accepted_assign hassign
  | callProcedure s args =>
    exact .of_issued (issued_callProcedure (lend_ofChecked_eq_ok.mp h).1) rfl rfl
  | callFunction s args =>
    obtain ⟨x, hcall, -⟩ := lend_return_eq_ok.mp h
    exact .of_issued (issued_callFunction hcall) rfl rfl
  | _ => exact .of_issued (Compile.Issues.compositional.construct rfl span inHand h) rfl rfl

/-! ### The two ends of a procedure -/

/-- A procedure that is not the main one is entered. -/
theorem issued_enterAt {label endLabel : String} {params : Nat} {c c' : Compiler} {u : Unit}
    (h : enterAt label endLabel params false c = .ok u c') : Issued [] [] c c' := by
  obtain ⟨_, c₁, henter, hrest⟩ := Action.bind_eq_ok.mp h
  obtain ⟨-, rfl⟩ := EStateM.Result.ok.inj hrest
  have hissued := Compile.Issues.command (.enter label params false) henter
  exact ⟨hissued.assembler, hissued.constants, hissued.mainEntered⟩

/-- The main procedure sets the constants when it is entered. -/
theorem enterAt_eq_ok {label endLabel : String} {params : Nat} {c c' : Compiler} {u : Unit}
    (h : enterAt label endLabel params true c = .ok u c') :
    ∃ a b, Assembler.enter label params true c.assembler = .ok () a ∧
      setConstants c.constants a = .ok () b ∧
      c' = { c.withAssembler b with
        exitLabel? := some endLabel, mainEntered := true, constants := [] } := by
  obtain ⟨_, c₁, hfirst, hrest⟩ := Action.bind_eq_ok.mp h
  obtain ⟨a, henter, rfl⟩ := assemble_eq_ok.mp hfirst
  obtain ⟨_, c₂, hmodify, hrest⟩ := Action.bind_eq_ok.mp hrest
  obtain ⟨-, rfl⟩ := EStateM.Result.ok.inj hmodify
  obtain ⟨constants, c₃, hstart, hlast⟩ := Action.bind_eq_ok.mp hrest
  obtain ⟨rfl, rfl⟩ := EStateM.Result.ok.inj hstart
  obtain ⟨b, hset, rfl⟩ := assemble_eq_ok.mp hlast
  exact ⟨a, b, henter, hset, rfl⟩

/-- The label of the procedure that a request enters, and of its end. -/
def entryLabels : Option Decl → String × String
  | none => ("$main", "$main_end")
  | some s => (s.label, s.endLabel)

/-- The main procedure has no parameters. -/
theorem enter_of_main {procedure? : Option Decl}
    (h : (Request.enter procedure?).entersMain = true) :
    enter procedure? = enterAt (entryLabels procedure?).1 (entryLabels procedure?).2 0 true := by
  cases procedure? with
  | none => rfl
  | some s =>
    have hkind : s.kind = .program := beq_iff_eq.mp h
    exact if_pos hkind

theorem issued_enter {procedure? : Option Decl} {c c' : Compiler} {u : Unit}
    (hmain : (Request.enter procedure?).entersMain = false) (h : enter procedure? c = .ok u c') :
    Issued [] [] c c' := by
  cases procedure? with
  | none => cases hmain
  | some s =>
    have hkind : s.kind ≠ .program := beq_eq_false_iff_ne.mp hmain
    rw [enter, if_neg hkind] at h
    cases htype : s.type with
    | procedure name result params builtin? =>
      rw [htype] at h
      exact issued_enterAt h
    | _ =>
      rw [htype] at h
      cases h

theorem takeExitLabel_eq_ok {procedure? : Option Decl} {label : String} {c c' : Compiler}
    (h : takeExitLabel procedure? c = .ok label c') :
    c.exitLabel? = some label ∧ c' = { c with exitLabel? := none, pendingLengths := [] } := by
  unfold takeExitLabel at h
  split at h
  · cases h
  · rename_i hlabel
    dsimp only at h
    split at h
    · obtain ⟨rfl, rfl⟩ := EStateM.Result.ok.inj h
      exact ⟨hlabel, rfl⟩
    · split at h
      · obtain ⟨rfl, rfl⟩ := EStateM.Result.ok.inj h
        exact ⟨hlabel, rfl⟩
      · cases h

theorem issued_exit {procedure? : Option Decl} {c c' : Compiler} {u : Unit}
    (h : exit procedure? c = .ok u c') : Issued [] [] c c' := by
  obtain ⟨endLabel, c₁, htake, hexit⟩ := Action.bind_eq_ok.mp h
  obtain ⟨-, rfl⟩ := takeExitLabel_eq_ok htake
  have hissued := Compile.Issues.command (.exit endLabel) hexit
  exact ⟨hissued.assembler, hissued.constants, hissued.mainEntered⟩

/-! ### Every request -/

/-- A global variable or constant gets the next static word, and its declaration says so. -/
theorem allocVariable_of_global {s d : Decl} {c c' : Compiler} (hstored : s.isStored = true)
    (hglobal : s.isGlobal = true) (h : allocVariable s c = .ok d c') :
    d = { s with offset? := some (Int32.ofNat c.assembler.statics.words) } ∧
      ∃ a, Assembler.allocStatic 1 c.assembler = .ok c.assembler.statics.words a ∧
        c' = c.withAssembler a := by
  obtain ⟨name, kind, type, isGlobal, isReadonly, offset?, id⟩ := s
  obtain rfl : isGlobal = true := hglobal
  have hword : ((do
      let offset ← Assembler.allocStatic 1
      return ⟨name, kind, type, true, isReadonly, some (Int32.ofNat offset), id⟩) :
        Compile Decl) c = .ok d c' := by
    cases kind with
    | var | constant => exact h
    | _ => cases hstored
  obtain ⟨offset, c₁, hfirst, hdecl⟩ := Action.bind_eq_ok.mp hword
  obtain ⟨rfl, rfl⟩ := EStateM.Result.ok.inj hdecl
  obtain ⟨a, halloc, rfl⟩ := assemble_eq_ok.mp hfirst
  obtain ⟨rfl, -⟩ := Assembler.allocStatic_eq_ok halloc
  exact ⟨rfl, a, halloc, rfl⟩

namespace Request

theorem carried_of_issued {r : Request} {answer : Answer} {c c' : Compiler}
    (h : Issued ((r.storage c answer).flatMap Storage.bytes) [] c c')
    (hmain : r.entersMain = false) (hstores : r.stores c answer = [])
    (hconstants : r.constants answer = []) : r.Carried answer c c' where
  assembler := by
    rw [hstores]
    exact h.assembler
  constants := by
    rw [hmain, hconstants, ite_self, List.append_nil]
    exact h.constants
  mainEntered := by
    rw [hmain, Bool.or_false]
    exact h.mainEntered

theorem carried_construct {k : Construct} {span : Span} {inHand : Operand} {answer : Answer}
    {c c' : Compiler} (h : (construct k span inHand).run c = .ok answer c') :
    (construct k span inHand).Carried answer c c' := by
  obtain ⟨r, c₁, hcompile, hanswer⟩ := Action.bind_eq_ok.mp h
  obtain ⟨rfl, rfl⟩ := EStateM.Result.ok.inj hanswer
  cases r with
  | ok v =>
    have haccepted := accepted_of_compile hcompile
    exact ⟨haccepted.assembler, haccepted.constants,
      haccepted.mainEntered.trans (Bool.or_false _).symm⟩
  | error d =>
    -- what is rejected leaves everything as it was
    obtain rfl := Construct.compiler_of_lend_error hcompile
    exact carried_of_issued (.refl _) rfl rfl rfl

theorem carried_allocVariable {s : Decl} {answer : Answer} {c c' : Compiler}
    (h : (allocVariable s).run c = .ok answer c') : (allocVariable s).Carried answer c c' := by
  obtain ⟨d, c₁, halloc, hanswer⟩ := Action.bind_eq_ok.mp h
  obtain ⟨rfl, rfl⟩ := EStateM.Result.ok.inj hanswer
  refine carried_of_issued ?_ rfl rfl rfl
  have hissued := Compile.Issues.compositional.allocVariable s halloc
  rw [storage]
  split
  · rename_i hword
    rw [if_pos hword] at hissued
    exact hissued
  · rename_i hword
    rw [if_neg hword] at hissued
    exact hissued

theorem carried_enter {procedure? : Option Decl} {c c' : Compiler} {u : Unit}
    (h : Compiler.enter procedure? c = .ok u c') : (enter procedure?).Carried .done c c' := by
  cases hmain : (enter procedure?).entersMain with
  | false =>
    refine carried_of_issued (issued_enter hmain h) hmain ?_ rfl
    rw [stores, hmain]
    · rfl
    · exact fun _ _ _ => Request.noConfusion
  | true =>
    rw [enter_of_main hmain] at h
    obtain ⟨a, b, henter, hset, rfl⟩ := enterAt_eq_ok h
    refine ⟨?_, ?_, ?_⟩
    · rw [stores, hmain]
      · exact (Asm.Issues.command (.enter _ 0 true) henter).trans
          (Asm.Issues.compositional.setConstants c.constants hset)
      · exact fun _ _ _ => Request.noConfusion
    · rw [hmain]
      rfl
    · rw [hmain, Bool.or_true]

/-- **Every request is carried out by commands.**  What they add to the static data and which static
words they store into depends on the request and on what the compiler has noted.  This is the one
walk over all requests for facts about static storage. -/
theorem carried {r : Request} {answer : Answer} {c c' : Compiler} (h : r.run c = .ok answer c') :
    r.Carried answer c c' := by
  have hΦ := Compile.Issues.compositional
  -- requests that have nothing to do with static storage only differ in their answers
  have quiet {α : Type} {x : Compile α} {f : α → Answer} (hx : Compile.Issues [] [] x)
      (hrun : (x >>= fun v => pure (f v)) c = .ok answer c') : Issued [] [] c c' :=
    (hx.bind fun v => .pure (f v)) hrun
  cases r with
  | newLabel => exact carried_of_issued (quiet .newLabel h) rfl rfl rfl
  | define label => exact carried_of_issued (quiet (.command (.define label)) h) rfl rfl rfl
  | jump label => exact carried_of_issued (quiet (.command (.jump label)) h) rfl rfl rfl
  | loadValue x =>
    exact carried_of_issued (quiet (hΦ.loadValue x) h) rfl rfl rfl
  | loadAddress x =>
    exact carried_of_issued (quiet (hΦ.loadValue x) h) rfl rfl rfl
  | allocVariable s => exact carried_allocVariable h
  | construct k span inHand => exact carried_construct h
  | enter procedure? =>
    obtain ⟨u, c₁, henter, hanswer⟩ := Action.bind_eq_ok.mp h
    obtain ⟨rfl, rfl⟩ := EStateM.Result.ok.inj hanswer
    exact carried_enter henter
  | exit procedure? =>
    obtain ⟨u, c₁, hexit, hanswer⟩ := Action.bind_eq_ok.mp h
    obtain ⟨-, rfl⟩ := EStateM.Result.ok.inj hanswer
    exact carried_of_issued (issued_exit hexit) rfl rfl rfl
  | returnFrom => exact carried_of_issued (quiet hΦ.returnFrom h) rfl rfl rfl
  | writeString literal =>
    obtain ⟨u, c₁, hwrite, hanswer⟩ := Action.bind_eq_ok.mp h
    obtain ⟨-, rfl⟩ := EStateM.Result.ok.inj hanswer
    have hissued : Issued (Statics.stringBytes (unquote literal)) [] c c₁ :=
      hΦ.assembled.writeText (unquote literal) hwrite
    rw [← List.append_nil (Statics.stringBytes _)] at hissued
    exact carried_of_issued hissued rfl rfl rfl

end Request

/-! ### Sessions -/

/-- A request with its answer, and the compilation before and after it.  What a later request may
refer to is found in the record of the earlier ones. -/
structure Exchange where
  before : Compiler
  request : Request
  answer : Answer
  after : Compiler

/-- The request was carried out with this answer. -/
def Exchange.IsSound (e : Exchange) : Prop := e.request.run e.before = .ok e.answer e.after

/-- Carries requests out one after the other, and keeps a record of all exchanges. -/
def session : List Request → Compile (List Exchange)
  | [] => pure []
  | r :: rs => do
    let before ← get
    let answer ← r.run
    let after ← get
    let log ← session rs
    return ⟨before, r, answer, after⟩ :: log

theorem session_nil (c : Compiler) : session [] c = .ok [] c := rfl

/-- A request that is carried out is recorded before the others. -/
theorem session_of_run {r : Request} {rs : List Request} {answer : Answer} {rest : List Exchange}
    {c c' c'' : Compiler} (hrun : r.run c = .ok answer c') (hrest : session rs c' = .ok rest c'') :
    session (r :: rs) c = .ok (⟨c, r, answer, c'⟩ :: rest) c'' :=
  Action.bind_eq_ok.mpr ⟨c, c, rfl, Action.bind_eq_ok.mpr ⟨answer, c', hrun,
    Action.bind_eq_ok.mpr ⟨c', c', rfl, Action.bind_eq_ok.mpr ⟨rest, c'', hrest, rfl⟩⟩⟩⟩

theorem session_cons {r : Request} {rs : List Request} {log : List Exchange} {c c'' : Compiler} :
    session (r :: rs) c = .ok log c'' ↔ ∃ answer c' rest, r.run c = .ok answer c' ∧
      session rs c' = .ok rest c'' ∧ log = ⟨c, r, answer, c'⟩ :: rest := by
  constructor
  · intro h
    obtain ⟨before, c₀, hbefore, h⟩ := Action.bind_eq_ok.mp h
    obtain ⟨rfl, rfl⟩ := EStateM.Result.ok.inj hbefore
    obtain ⟨answer, c', hrun, h⟩ := Action.bind_eq_ok.mp h
    obtain ⟨after, c₁, hafter, h⟩ := Action.bind_eq_ok.mp h
    obtain ⟨rfl, rfl⟩ := EStateM.Result.ok.inj hafter
    obtain ⟨rest, c₂, hrest, hlog⟩ := Action.bind_eq_ok.mp h
    obtain ⟨rfl, rfl⟩ := EStateM.Result.ok.inj hlog
    exact ⟨answer, c', rest, hrun, hrest, rfl⟩
  · rintro ⟨answer, c', rest, hrun, hrest, rfl⟩
    exact session_of_run hrun hrest

/-- What comes before a request of a session is a session, and so is what comes after it.  By
induction on the exchanges before. -/
theorem session_split {rs : List Request} {earlier later : List Exchange} {e : Exchange}
    {c c' : Compiler} (h : session rs c = .ok (earlier ++ e :: later) c') :
    ∃ rs₁ rs₂, session rs₁ c = .ok earlier e.before ∧ e.IsSound ∧
      session rs₂ e.after = .ok later c' := by
  induction earlier generalizing rs c with
  | nil =>
    cases rs with
    | nil => cases h
    | cons r rs =>
      obtain ⟨answer, c₁, rest, hrun, hrest, hlog⟩ := session_cons.mp h
      obtain ⟨rfl, rfl⟩ := List.cons.inj hlog
      exact ⟨[], rs, rfl, hrun, hrest⟩
  | cons e₀ earlier ih =>
    cases rs with
    | nil => cases h
    | cons r rs =>
      obtain ⟨answer, c₁, rest, hrun, hrest, hlog⟩ := session_cons.mp h
      obtain ⟨rfl, rfl⟩ := List.cons.inj hlog
      obtain ⟨rs₁, rs₂, hearlier, hsound, hlater⟩ := ih hrest
      exact ⟨r :: rs₁, rs₂, session_of_run hrun hearlier, hsound, hlater⟩

/-- What the steps of a session preserve holds at its end.  Each request may be known to keep to a
rule, which refers to the exchanges before it.  The exchanges that are known grow along the
induction, and so the property may speak of all of them. -/
theorem session_induction {rule : List Exchange → Request → Prop}
    {P : List Exchange → Compiler → Prop}
    (hstep : ∀ known e, P known e.before → rule known e.request → e.IsSound →
      P (known ++ [e]) e.after)
    {rs : List Request} {known log : List Exchange} {c c' : Compiler}
    (hsession : session rs c = .ok log c')
    (hrule : ∀ earlier e later, log = earlier ++ e :: later → rule (known ++ earlier) e.request)
    (hP : P known c) : P (known ++ log) c' := by
  induction rs generalizing c known log with
  | nil =>
    obtain ⟨rfl, rfl⟩ := EStateM.Result.ok.inj hsession
    rwa [List.append_nil]
  | cons r rs ih =>
    obtain ⟨answer, c₁, rest, hrun, hrest, rfl⟩ := session_cons.mp hsession
    have hfirst : rule known r := by
      have h := hrule [] _ rest rfl
      rwa [List.append_nil] at h
    -- the first exchange moves from the log to the exchanges that are known
    have hlater : ∀ earlier e later, rest = earlier ++ e :: later →
        rule (known ++ [⟨c, r, answer, c₁⟩] ++ earlier) e.request := by
      intro earlier e later hsplit
      have h := hrule (⟨c, r, answer, c₁⟩ :: earlier) e later (by rw [hsplit]; rfl)
      rwa [List.append_assoc]
    have hend := ih hrest hlater (hstep known ⟨c, r, answer, c₁⟩ hP hfirst hrun)
    rwa [List.append_assoc] at hend

/-- Every exchange of a session is sound, and the session goes on after it. -/
theorem effects_of_session {rs : List Request} {log : List Exchange} {c c' : Compiler}
    (h : session rs c = .ok log c') :
    Assembler.Effects c.assembler c'.assembler ∧ ∀ e ∈ log, e.IsSound ∧
      Assembler.Effects c.assembler e.before.assembler ∧
      Assembler.Effects e.after.assembler c'.assembler := by
  induction rs generalizing c log with
  | nil =>
    obtain ⟨rfl, rfl⟩ := EStateM.Result.ok.inj h
    exact ⟨.refl, fun e he => absurd he List.not_mem_nil⟩
  | cons r rs ih =>
    obtain ⟨answer, c₁, rest, hrun, hrest, rfl⟩ := session_cons.mp h
    have hfirst := (Request.carried hrun).assembler.effects
    obtain ⟨hlater, hexchanges⟩ := ih hrest
    refine ⟨hfirst.trans hlater, fun e he => ?_⟩
    rcases List.mem_cons.mp he with rfl | hmem
    · exact ⟨hrun, .refl, hlater⟩
    · obtain ⟨hsound, hbefore, hafter⟩ := hexchanges e hmem
      exact ⟨hsound, hfirst.trans hbefore, hafter⟩

end Compiler
end MJ
