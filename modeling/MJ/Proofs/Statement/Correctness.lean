import MJ.Proofs.Layout
import MJ.Proofs.Statement.Allocation

/-!
# Compiled programs do what programs do

A program whose compilation does not end in misuse can be finished, and the finished image does
what the program does: it prints the same bytes and ends with the same values in the static
variables, or it divides by zero after the same output.

## Main definitions

* `Program.Begins` — the state of a compilation when the body of the main procedure begins.
* `Program.Agrees` — the outcome of a run is what the program does.

## Main results

* `Program.finishes` — a compiled program can be finished.
* `Program.compile_correct` — **structured programs are compiled correctly.**
-/

namespace MJ
namespace Program

open Assembler Compiler Machine

/-! ### The stages of a compilation -/

/-- A compilation in which the main procedure has begun, with words for its variables.  The size of
its frame is filled in at the end only, and so it is known of images alone. -/
structure Begins (ps : List (Variable × Nat)) (c : Compiler) : Prop where
  places : Places ps .empty c.assembler
  main : c.assembler.main? = some "$main"
  label : c.assembler.labels.address? "$main" = some 0
  size : c.assembler.code.size = 3
  newline : c.newline? = none
  enters : ∀ {image : Image} {table : String → Option Nat},
    c.assembler.RealizedBy image table → ∃ size : UInt8,
      CodeAt image.code.toArray 0 (Instruction.enter 0 size).bytes ∧
        ∀ p, c.assembler.procedure? = some p → p.size ≤ size.toNat

/-- The main procedure begins. -/
theorem enter_of_ok {c c' : Compiler} (hconstants : c.constants = [])
    (h : Compiler.enter none c = .ok () c') :
    Assembler.enter "$main" 0 true c.assembler = .ok () c'.assembler ∧
      c'.newline? = c.newline? := by
  obtain ⟨_, c₁, henter, hrest⟩ := Action.bind_eq_ok.mp h
  obtain ⟨a, hmain, rfl⟩ := assemble_eq_ok.mp henter
  obtain ⟨_, c₂, hlabel, hconstant⟩ := Action.bind_eq_ok.mp hrest
  obtain ⟨-, rfl⟩ := EStateM.Result.ok.inj hlabel
  obtain ⟨constants, c₃, hstart, hset⟩ := Action.bind_eq_ok.mp hconstant
  obtain ⟨rfl, rfl⟩ := EStateM.Result.ok.inj hstart
  obtain ⟨b, hnone, rfl⟩ := assemble_eq_ok.mp hset
  -- no global constants wait to be set
  change setConstants c.constants a = _ at hnone
  rw [hconstants] at hnone
  obtain ⟨-, rfl⟩ := EStateM.Result.ok.inj hnone
  exact ⟨hmain, rfl⟩

/-- The main procedure ends. -/
theorem exit_of_ok {c c' : Compiler} (h : Compiler.exit none c = .ok () c') :
    ∃ label, Assembler.exit label c.assembler = .ok () c'.assembler := by
  obtain ⟨label, c₁, htake, hexit⟩ := Action.bind_eq_ok.mp h
  obtain ⟨a, hlast, rfl⟩ := assemble_eq_ok.mp hexit
  have hsame : c₁.assembler = c.assembler := by
    rw [takeExitLabel] at htake
    split at htake
    · cases htake
    · obtain ⟨-, rfl⟩ := EStateM.Result.ok.inj htake
      rfl
  exact ⟨label, hsame ▸ hlast⟩

/-- The main procedure begins at address 0, since placing variables writes no code. -/
theorem begins {ps qs : List (Variable × Nat)} {a a₁ b : Assembler} {c : Compiler}
    (houter : Places ps .empty a) (hempty : SameCode .empty a)
    (henter : Assembler.enter "$main" 0 true a = .ok () a₁) (hinner : Places qs a₁ b)
    (hsame : SameCode a₁ b) (hb : c.assembler = b) (hnewline : c.newline? = none) :
    Begins (ps ++ qs) c := by
  subst hb
  have hplaces := (houter.trans (Places.enter henter)).trans hinner
  rw [List.append_nil] at hplaces
  obtain ⟨-, -, -, rfl⟩ := enter_eq_ok henter
  have hstart : a.code.size = 0 := by rw [hempty.1]; rfl
  have hlabel : ((a.withLabel "$main").opened "$main" 0 true).labels.address? "$main"
      = some 0 := by
    rw [← hstart]
    exact address?_withLabel_self a "$main"
  refine ⟨hplaces, main?_of_effects hinner.effects rfl, address?_of_effects hinner.effects hlabel,
    ?_, hnewline, fun {image table} hrealized => ?_⟩
  · rw [hsame.1, opened, Draft.size_emitHoles, Draft.size_append]
    show a.code.size + _ + 1 = 3
    rw [hstart]
    rfl
  · -- the size in the image is the final one, which later locals do not exceed
    obtain ⟨p, hopen, hslot⟩ := Option.map_eq_some_iff.mp hsame.2
    have hslot : p.sizeSlot = (a.withLabel "$main").code.size + 2 := hslot
    obtain ⟨size, hbyte, hle⟩ := hrealized.frame p hopen
    rw [hslot] at hbyte
    have hcode := (RealizedBy.of_effects hinner.effects hrealized).codeAt_opened hbyte
    rw [show (a.withLabel "$main").code.size = 0 from hstart] at hcode
    refine ⟨size, hcode, fun q hq => ?_⟩
    rw [← Option.some.inj (hopen.symm.trans hq)]
    exact hle

/-- What the compilation of a program consists of.  The other theorems start from these stages and
do not look at the actions of the compiler. -/
theorem stages {p : Program} {r : Except Diagnostic (List Decl)} {c : Compiler}
    (h : p.compile.run .empty = .ok r c) :
    ∃ ps c₁ c₂, ps.map (·.1) = p.outer ++ p.inner ∧ Begins ps c₁ ∧
      (p.body.generate (Ref.decl (Variable.placedAll ps))).run c₁ = .ok (.ok ()) c₂ ∧
      (∃ label, Assembler.exit label c₂.assembler = .ok () c.assembler) ∧
      r = .ok (Variable.placedAll ps) := by
  -- the actions one after the other: globals, the start of the main procedure, locals, the body
  obtain ⟨r₁, c₁, hrun₁, hrest₁⟩ := Action.bind_eq_ok.mp h
  obtain ⟨outer, houter, rfl⟩ := Checked.lift_eq_ok.mp hrun₁
  obtain ⟨r₂, c₂, hrun₂, hrest₂⟩ := Action.bind_eq_ok.mp hrest₁
  obtain ⟨_, henter, rfl⟩ := Checked.lift_eq_ok.mp hrun₂
  obtain ⟨r₃, c₃, hrun₃, hrest₃⟩ := Action.bind_eq_ok.mp hrest₂
  obtain ⟨inner, hinner, rfl⟩ := Checked.lift_eq_ok.mp hrun₃
  obtain ⟨r₄, c₄, hbody, hrest₄⟩ := Action.bind_eq_ok.mp hrest₃
  obtain ⟨ps, a, hps, rfl, rfl, hplaces, hsame⟩ := places_of_allocAll houter
  obtain ⟨hmain, hnewline⟩ := enter_of_ok rfl henter
  obtain ⟨qs, b, hqs, rfl, rfl, hplaces', hsame'⟩ := places_of_allocAll hinner
  have hvars : (ps ++ qs).map (·.1) = p.outer ++ p.inner := by rw [List.map_append, hps, hqs]
  have hall : Variable.placedAll ps ++ Variable.placedAll qs = Variable.placedAll (ps ++ qs) :=
    List.map_append.symm
  rw [hall] at hbody hrest₄
  obtain rfl := (p.body.builds (Ref.assignable hvars)).ok hbody
  refine ⟨ps ++ qs, c₂.withAssembler b, c₄, hvars,
    begins hplaces hsame hmain hplaces' hsame' rfl hnewline, hbody, ?_⟩
  obtain ⟨r₅, c₅, hrun₅, hreturn⟩ := Action.bind_eq_ok.mp hrest₄
  obtain ⟨_, hexit, rfl⟩ := Checked.lift_eq_ok.mp hrun₅
  obtain ⟨rfl, rfl⟩ := EStateM.Result.ok.inj hreturn
  exact ⟨exit_of_ok hexit, rfl⟩

/-! ### The finished program -/

/-- The end of the main procedure leaves no label undefined. -/
theorem settled_exit {label : String} {a b : Assembler}
    (h : Assembler.exit label a = .ok () b) : Target.Settled a.labels.Lacks b.labels.Lacks := by
  obtain ⟨p, code, -, -, -, -, rfl⟩ := exit_eq_ok h
  exact fun l hl => (Target.defines_withLabel { a with code := code, procedure? := none } label l
    hl).1

/-- A compiled program that is not too large can be finished.  Of all that could be wrong with it at
the end, everything else is excluded. -/
theorem finishes {p : Program} {r : Except Diagnostic (List Decl)} {c : Compiler}
    (h : p.compile.run .empty = .ok r c) (hsize : c.assembler.code.size ≤ 65536) :
    ∃ image b, finish c.assembler = .ok (.ok image) b ∧
      image.code.length = c.assembler.code.size := by
  obtain ⟨ps, c₁, c₂, hvars, hbegins, hbody, ⟨label, hexit⟩, -⟩ := stages h
  have hbuilds := p.body.builds (Ref.assignable hvars)
  have heffects : Effects .empty c.assembler :=
    (hbegins.places.effects.trans (hbuilds.effects hbody)).trans
      ((Command.exit label).regular hexit)
  have hmain : c.assembler.main? = some "$main" :=
    main?_of_effects ((hbuilds.effects hbody).trans ((Command.exit label).regular hexit))
      hbegins.main
  have hclosed : c.assembler.procedure? = none := by
    obtain ⟨q, code, -, -, -, -, hc⟩ := exit_eq_ok hexit
    rw [hc]
    rfl
  -- a label that lacks its definition would have lacked it before anything was compiled
  have hdefined : ∀ l, ¬ c.assembler.labels.Lacks l := by
    intro l hl
    have hstart := hbegins.places.settled l (hbuilds.labels hbody l (settled_exit hexit l hl))
    cases hstart.1
  obtain ⟨items, hlaid⟩ := laidOut_of_effects heffects
  obtain ⟨result, b, hfinish, hverdict⟩ := hlaid.finish
  cases hverdict with
  | openProcedure q hopen => cases hclosed.symm.trans hopen
  | noMainProcedure _ hnone => cases hmain.symm.trans hnone
  | undefinedLabel _ l _ _ hlacks _ => exact absurd hlacks (hdefined l)
  | codeTooLarge _ _ _ _ hlarge => exact absurd hlarge (Nat.not_lt.mpr hsize)
  | image _ image _ _ _ _ hcode => exact ⟨image, b, hfinish, hcode⟩

/-! ### Runs of the finished program -/

/-- The outcome of a run is what the program does: the bytes are printed, and the program returns
with nothing on the stack and its values in the static variables, or it divides by zero. -/
def Agrees (p : Program) (decls : List Decl) (out : List UInt8)
    (result : Option (Env (Ref (p.outer ++ p.inner)))) (o : Outcome) : Prop :=
  o.state.output.toList = out ∧ match result with
    | some env => o.ending = .returned ∧ o.state.stack = #[] ∧
      ∀ t (x : Ref (p.outer ++ p.inner) t), ((p.outer ++ p.inner).get x.index).isGlobal = true →
        staticWord? o.state.statics (Ref.decl decls t x).slot = some (t.word (env t x))
    | none => ∃ pc, o.ending = .stopped pc (.fault .divisionByZero)

/-- A run comes to the body of the main procedure with all variables zero. -/
theorem Begins.reaches {vars : List Variable} {ps : List (Variable × Nat)} {c : Compiler}
    {g : Target} (h : Begins ps c) (hvars : ps.map (·.1) = vars) (hrealizes : g.Realizes c)
    (hstart : g.image.header.startPc.toNat = 0) (input : List UInt8) :
    ∃ s, Reaches g.code (.load g.image input) s ∧ s.pc = c.assembler.code.size ∧ s.stack = #[] ∧
      s.returns = #[] ∧ s.frames.size = 1 ∧ s.output = #[] ∧
      g.Keeps (@Ref.decl vars (Variable.placedAll ps)) Env.initial s := by
  obtain ⟨size, hcode, hframe⟩ := h.enters hrealizes
  have hpc : (State.load g.image input).pc = 0 := hstart
  have henter := reaches_enter (s := .load g.image input) (hpc.symm ▸ hcode)
  refine ⟨_, henter, ?_, rfl, rfl, rfl, rfl, ?_⟩
  · rw [h.size]
    exact congrArg (· + 3) hpc
  · exact h.places.keeps hvars hrealizes rfl Array.back?_push hframe

/-- The end of the main procedure stands in the image. -/
theorem codeAt_exit {label : String} {a b : Assembler} {image : Image}
    {table : String → Option Nat} (hexit : Assembler.exit label a = .ok () b)
    (hrealized : b.RealizedBy image table) :
    CodeAt image.code.toArray a.code.size (Code.ofInstructions [.exit, .ret]) := by
  obtain ⟨p, code, -, -, hfill, -, rfl⟩ := exit_eq_ok hexit
  have hsize : code.size = a.code.size := (Draft.fillBytes_spec hfill).1
  have hcode := hrealized.codeAt
  rw [← hsize]
  exact hcode

/-- A run that comes to the end of the body, or divides by zero before, does what the program does.
The two instructions after the body give the frame back and end the run. -/
theorem yields_of_ends {p : Program} {decls : List Decl} {g : Target} {s : State} {next : Nat}
    {input out : List UInt8} {result : Option (Env (Ref (p.outer ++ p.inner)))}
    (hdecls : ∀ t (x : Ref (p.outer ++ p.inner) t),
      (Ref.decl decls t x).isGlobal = ((p.outer ++ p.inner).get x.index).isGlobal)
    (hreaches : Reaches g.code (.load g.image input) s) (hstack : s.stack = #[])
    (hreturns : s.returns = #[]) (hframes : s.frames.size = 1) (houtput : s.output = #[])
    (hends : g.Ends (Ref.decl decls) s next out result)
    (hexit : CodeAt g.code next (Code.ofInstructions [.exit, .ret])) :
    Yields g.image input (p.Agrees decls out result) := by
  cases result with
  | none =>
    obtain ⟨s', hfaults, hout⟩ := hends
    rw [houtput] at hout
    exact Faults.yields (hreaches.stops hfaults) fun pc k => ⟨hout, pc, rfl⟩
  | some env =>
    obtain ⟨s', hbody, harrives, hkeeps⟩ := hends
    have hout := harrives.output_eq
    rw [houtput] at hout
    -- no call is open, so that the return ends the run
    have hhalts := halts_exit (s := s') (by rw [harrives.frames_eq, hframes]; exact Nat.one_pos)
      (harrives.returns_eq.trans hreturns) (harrives.pc_eq.symm ▸ hexit)
    refine Halts.yields ((hreaches.trans hbody).stops hhalts) fun k => ⟨hout, rfl, ?_, ?_⟩
    · exact harrives.stack_eq.trans hstack
    · intro t x hglobal
      have hstores := hkeeps.stores t x
      rw [State.read?, Decl.region, hdecls t x, if_pos hglobal] at hstores
      exact hstores

/-- **Structured programs are compiled correctly.**  If no call of the compiler is a misuse, the
code has less than 65536 bytes and words can count the static words, then the compiler finds
nothing wrong with the program, and the program can be finished.  Every run of the finished image
does what the program does, unless it is cut short by the limits on steps and on the stack; limits
that are large enough do not cut it short. -/
theorem compile_correct {p : Program} {r : Except Diagnostic (List Decl)} {c : Compiler}
    (hcompile : p.compile.run .empty = .ok r c) (hcode : c.assembler.code.size < 65536)
    (hdata : c.assembler.statics.bytes.size < 8589934592) :
    ∃ decls image b, r = .ok decls ∧ finish c.assembler = .ok (.ok image) b ∧
      ∀ out result, p.body.Exec Env.initial out result →
        ∀ input, Yields image input (p.Agrees decls out result) := by
  obtain ⟨ps, c₁, c₂, hvars, hbegins, hbody, ⟨label, hexit⟩, rfl⟩ := stages hcompile
  obtain ⟨image, b, hfinish, hlength⟩ := finishes hcompile (Nat.le_of_lt hcode)
  obtain ⟨hsegment, main, startPc, hmain, hlabel, hstart⟩ := segments_of_finish hfinish
  have hbuilds := p.body.builds (Ref.assignable hvars)
  have heffects := (hbuilds.effects hbody).trans ((Command.exit label).regular hexit)
  -- texts come after all words that are set aside when the body begins
  let g : Target := ⟨image, b.labels.address?, c₁.assembler.statics.words, hlength ▸ hcode, by
    rw [hsegment, Array.length_toList]; exact hdata⟩
  have hrealized : c.assembler.RealizedBy g.image g.table := realizedBy_of_finish hfinish
  have hrealizes₂ : g.Realizes c₂ :=
    RealizedBy.of_effects ((Command.exit label).regular hexit) hrealized
  have hrealizes₁ : g.Realizes c₁ := hbuilds.before hbody hrealizes₂
  have hready : g.Ready c₁ := by
    refine ⟨Nat.div_mul_le_self _ _, (statics_of_effects hbegins.places.effects).2 rfl, ?_⟩
    rw [hbegins.newline]
    exact fun n hn => nomatch hn
  obtain ⟨-, hplaced⟩ := hbuilds.placed hbody hrealizes₂ hready
  have hseparates := hbegins.places.separates hvars hrealizes₁ rfl
  -- the main procedure is the first code
  have hzero : g.image.header.startPc.toNat = 0 := by
    obtain rfl := Option.some.inj (hmain.symm.trans (main?_of_effects heffects hbegins.main))
    obtain rfl := Option.some.inj (hlabel.symm.trans (address?_of_effects heffects hbegins.label))
    exact congrArg UInt32.toNat hstart
  have hdecls : ∀ t (x : Ref (p.outer ++ p.inner) t),
      (Ref.decl (Variable.placedAll ps) t x).isGlobal
        = ((p.outer ++ p.inner).get x.index).isGlobal := by
    intro t x
    obtain ⟨q, -, hq, -, hdecl⟩ := x.decl_placedAll hvars
    rw [hdecl, ← hq]
    rfl
  refine ⟨_, image, b, rfl, hfinish, fun out result hexec input => ?_⟩
  obtain ⟨s, hreaches, hpc, hstack, hreturns, hframes, houtput, hkeeps⟩ :=
    hbegins.reaches hvars hrealizes₁ hzero input
  have hends := hexec.ends hseparates (hpc.symm ▸ hplaced) hkeeps
  exact yields_of_ends hdecls hreaches hstack hreturns hframes houtput hends
    (codeAt_exit hexit hrealized)

/-- The variables of the sample: a static number and a truth value in the frame. -/
abbrev SampleVar := Ref ([⟨"n", .int, true, 0⟩] ++ [⟨"b", .bool, false, 1⟩])

/-- The number of the sample. -/
def sampleNumber : SampleVar .int := ⟨⟨0, by decide⟩, rfl⟩

/-- The truth value of the sample. -/
def sampleTruth : SampleVar .bool := ⟨⟨1, by decide⟩, rfl⟩

/-- The loop `while (n > 0) { write(n); n = n - 1; }`. -/
def sampleLoop : Stmt SampleVar :=
  .whileDo (.relation .gt ⟨2, 1⟩ (.var sampleNumber) (.int 0)) ⟨2, 1⟩
    (.seq (.writeInt (.var sampleNumber) ⟨3, 1⟩)
      (.assign sampleNumber (.binary .sub ⟨4, 1⟩ (.var sampleNumber) (.int 1)) ⟨4, 1⟩))

/-- The program `n = 1; while (n > 0) { write(n); n = n - 1; } b = n == 0; write(b);`. -/
def sample : Program where
  outer := [⟨"n", .int, true, 0⟩]
  inner := [⟨"b", .bool, false, 1⟩]
  body := .seq (.assign sampleNumber (.int 1) ⟨1, 1⟩) (.seq sampleLoop
    (.seq (.assign sampleTruth (.equality .eq ⟨5, 1⟩ (.var sampleNumber) (.int 0)) ⟨5, 1⟩)
      (.writeBool (.var sampleTruth) ⟨6, 1⟩)))

/-- The values at the end of the sample. -/
def sampleEnd : Env SampleVar :=
  ((Env.initial.set sampleNumber (1 : Word)).set sampleNumber (0 : Word)).set sampleTruth true

/-- The sample prints `1True`. -/
theorem exec_sample : sample.body.Exec Env.initial (Utf8.encode "1True") (some sampleEnd) := by
  have hbody : Stmt.Exec (.seq (.writeInt (.var sampleNumber) ⟨3, 1⟩)
      (.assign sampleNumber (.binary .sub ⟨4, 1⟩ (.var sampleNumber) (.int 1)) ⟨4, 1⟩))
      (Env.initial.set sampleNumber (1 : Word)) (Utf8.encode (toString (1 : Word).toInt) ++ [])
      (some ((Env.initial.set sampleNumber (1 : Word)).set sampleNumber (0 : Word))) :=
    .seq (.writeInt rfl) .assign
  have hloop : sampleLoop.Exec (Env.initial.set sampleNumber (1 : Word))
      (Utf8.encode (toString (1 : Word).toInt) ++ [] ++ [])
      (some ((Env.initial.set sampleNumber (1 : Word)).set sampleNumber (0 : Word))) :=
    .whileTrue rfl hbody (.whileFalse rfl)
  have hlast : Stmt.Exec (.seq
      (.assign sampleTruth (.equality .eq ⟨5, 1⟩ (.var sampleNumber) (.int 0)) ⟨5, 1⟩)
      (.writeBool (.var sampleTruth) ⟨6, 1⟩))
      ((Env.initial.set sampleNumber (1 : Word)).set sampleNumber (0 : Word))
      ([] ++ Utf8.encode (Stmt.boolText true)) (some sampleEnd) :=
    .seq .assign (.writeBool rfl)
  have hout : [] ++ (Utf8.encode (toString (1 : Word).toInt) ++ [] ++ [] ++
      ([] ++ Utf8.encode (Stmt.boolText true))) = Utf8.encode "1True" := by decide +kernel
  rw [← hout]
  exact .seq .assign (.seq hloop hlast)

/-- The sample is compiled, and every run of its image prints `1True` and leaves 0 in the static
number. -/
theorem compile_correct_countdown : ∃ r c decls image b,
    sample.compile.run .empty = .ok r c ∧ c.assembler.code.size < 65536 ∧
    c.assembler.statics.bytes.size < 8589934592 ∧ r = .ok decls ∧
    finish c.assembler = .ok (.ok image) b ∧ sampleEnd .int sampleNumber = (0 : Word) ∧
    ∀ input, Yields image input (sample.Agrees decls (Utf8.encode "1True") (some sampleEnd)) := by
  have hsmall : (match sample.compile.run .empty with
      | .ok _ c => decide (c.assembler.code.size < 65536) &&
        decide (c.assembler.statics.bytes.size < 8589934592)
      | .error _ _ => false) = true := by
    decide +kernel
  cases hcompile : sample.compile.run .empty with
  | error misuse c =>
    rw [hcompile] at hsmall
    cases hsmall
  | ok r c =>
    rw [hcompile, Bool.and_eq_true, decide_eq_true_eq, decide_eq_true_eq] at hsmall
    obtain ⟨decls, image, b, hr, hfinish, hruns⟩ := compile_correct hcompile hsmall.1 hsmall.2
    exact ⟨r, c, decls, image, b, rfl, hsmall.1, hsmall.2, hr, hfinish, by decide,
      hruns _ _ exec_sample⟩

end Program
end MJ
