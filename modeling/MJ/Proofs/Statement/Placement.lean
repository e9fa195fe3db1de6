import MJ.Proofs.Expression.Correctness
import MJ.Proofs.Printing
import MJ.Proofs.Statement.Syntax

/-!
# The code of statements

Where the code of a statement stands in a finished image, and where its jumps lead.  The addresses
of labels are known only when the program is finished, so the code is described in the image, and
the description is read off the compiler's actions from the last one to the first.

## Main definitions

* `Target` — a finished image with the addresses of its labels.
* `Target.Occupies` — instructions stand in the code between two addresses.
* `Target.TextAt` — a text stands among the static data, after the variables.
* `Stmt.Placed` — the code of a statement stands between two addresses.
* `Target.Builds` — what an action of the compiler adds to every image that it ends up in.

## Main results

* `Stmt.builds` — **compiling a statement places its code** and leaves no label undefined.
-/

namespace MJ

open Compiler

/-! ### Operands that are pushed later -/

/-- An action on an operand pushes it and then does what another action does.  Conditions and
assignments take operands that are not on the stack yet; this reduces them to actions after the
code of the expression. -/
def Pushing {β : Type} (t : Scalar) (f : Operand → Checked β) (g : Checked β) : Prop :=
  ∀ (c : Compiler) (x : Operand) (r : Except Diagnostic β) (c' : Compiler), x.type = t.ty →
    (f x).run c = .ok r c' → ∃ a, pushFrom x c.assembler = .ok () a ∧
      g.run (c.withAssembler a) = .ok r c'

theorem Pushing.newLabel {β : Type} {t : Scalar} {f : Operand → String → Checked β}
    {g : String → Checked β} (h : ∀ label, Pushing t (fun x => f x label) (g label)) :
    Pushing t (fun x => do f x (← Compiler.newLabel)) (do g (← Compiler.newLabel)) := by
  intro c x r c' htype hrun
  exact h _ { c with labelCount := c.labelCount + 1 } x r c' htype hrun

/-- An action that starts with pushing its operand. -/
theorem Pushing.of_loadIfNeeded {β : Type} {t : Scalar} {f : Operand → Checked β} {g : Checked β}
    (h : ∀ x, x.type = t.ty → f x = (do loadIfNeeded x; g)) : Pushing t f g := by
  intro c x r c' htype hrun
  rw [h x htype] at hrun
  obtain ⟨r₁, c₁, hload, hg⟩ := Action.bind_eq_ok.mp hrun
  obtain ⟨_, a, hpush, rfl, rfl⟩ := Checked.assemble_eq_ok.mp hload
  exact ⟨a, hpush, hg⟩

/-- The operand of a condition is pushed first, whether it is a variable or already the value. -/
theorem pushing_branchIfFalse (label : String) (span : Span) (rest : Checked Unit) :
    Pushing .bool (fun x => do branchIfFalse x label span; rest)
      (do Assembler.branchIf false label; rest) := by
  refine .of_loadIfNeeded fun x htype => ?_
  have hbranch : branchIfFalse x label span
      = (do loadIfNeeded x; Assembler.branchIf false label : Checked Unit) := by
    rw [branchIfFalse, htype]
    rfl
  rw [hbranch, bind_assoc]

/-- A variable to which the program may assign.  Other declarations are refused, so that nothing
would be placed for them. -/
structure Decl.Assignable (d : Decl) (t : Scalar) : Prop extends d.Declared t where
  kind_eq : d.kind = .var
  isReadonly_eq : d.isReadonly = false

/-- The operand of an assignment is pushed first. -/
theorem pushing_assign {t : Scalar} {d : Decl} (hd : d.Assignable t) (span : Span) :
    Pushing t (fun x => do assign (← Demo.valueOf d) x span)
      (liftM (Assembler.storeWord d.region d.offset) : Checked Unit) := by
  refine .of_loadIfNeeded fun x htype => ?_
  have hvalue : Demo.valueOf d = pure d.operand := by
    rw [Demo.valueOf, Operand.ofDecl, if_pos hd.isVariable, hd.offset_eq]
    rfl
  have hassign : assign d.operand x span
      = (do loadIfNeeded x; store d.operand : Checked Unit) := by
    have hsame : (t.ty != t.ty) = false := by cases t <;> rfl
    have hconstant : (DeclKind.var == DeclKind.constant) = false := rfl
    simp only [assign, Decl.operand, hd.isReadonly_eq, hd.kind_eq, hd.type_eq, htype, hsame,
      hconstant, Bool.false_and, Bool.and_false, Bool.false_eq_true, if_false]
  simp only [hvalue, pure_bind, hassign]
  rfl

/-- An expression may be pushed at once instead of by the action on its operand.  So the code of all
expressions is the code that computes them onto the stack. -/
theorem Expr.load_of_generate {V : Scalar → Type} {β : Type} {decl : (t : Scalar) → V t → Decl}
    (hdeclared : ∀ t x, (decl t x).Declared t) {t : Scalar} {e : Expr V t}
    {f : Operand → Checked β} {g : Checked β} (hf : Pushing t f g) {c c' : Compiler}
    {r : Except Diagnostic β} (h : (e.generate decl >>= f).run c = .ok r c') :
    (e.load decl >>= fun _ => g).run c = .ok r c' := by
  obtain ⟨r₁, c₁, hgenerate, hrest⟩ := Action.bind_eq_ok.mp h
  obtain ⟨x, rfl, htype, hneeds⟩ := Expr.needs hdeclared e c r₁ c₁ hgenerate
  obtain ⟨a, hpush, hg⟩ := hf c₁ x r c' htype hrest
  have haddressable := hneeds a hpush
  obtain ⟨y, a₁, hrun, -, -, hpush'⟩ := Expr.delivers hdeclared e haddressable c
  obtain ⟨hxy, rfl⟩ := EStateM.Result.ok.inj (hrun.symm.trans hgenerate)
  obtain rfl := Except.ok.inj hxy
  obtain ⟨-, rfl⟩ := EStateM.Result.ok.inj (hpush'.symm.trans hpush)
  obtain ⟨z, hload, -⟩ := Expr.load_eq hdeclared haddressable c
  rw [Checked.bind_of_ok hload]
  exact hg

/-! ### Code in a finished image -/

/-- A finished image with the addresses of its labels, small enough that instructions can name all
of its code and declarations all of its data. -/
structure Target where
  /-- The image. -/
  image : Image
  /-- The addresses of the labels. -/
  table : String → Option Nat
  /-- How many words of static data come before all texts. -/
  limit : Nat
  /-- Addresses of code fit an operand. -/
  code_lt : image.code.length < 65536
  /-- Addresses of static words fit a word. -/
  data_lt : image.data.length < 8589934592

namespace Target

open Machine

variable {V : Scalar → Type} (g : Target) (decl : (t : Scalar) → V t → Decl)

/-- The code of the image. -/
def code : Array UInt8 := g.image.code.toArray

/-- Instructions stand between two addresses.  The end is an address as well, to which a jump may
lead. -/
def Occupies (is : List Instruction) (base next : Nat) : Prop :=
  CodeAt g.code base (Code.ofInstructions is) ∧
    next = base + (Code.ofInstructions is).length ∧ next < 65536

variable {g} in
/-- A single instruction. -/
theorem occupies_singleton {i : Instruction} {base next : Nat} (hcode : CodeAt g.code base i.bytes)
    (hnext : next = base + i.size) (hlt : next < 65536) : g.Occupies [i] base next := by
  rw [Occupies, Code.ofInstructions_cons, Code.ofInstructions_nil, List.append_nil,
    Instruction.length_bytes]
  exact ⟨hcode, hnext, hlt⟩

variable {g} in
/-- Instructions that follow others. -/
theorem Occupies.append {is js : List Instruction} {base m next : Nat}
    (his : g.Occupies is base m) (hjs : g.Occupies js m next) :
    g.Occupies (is ++ js) base next := by
  obtain ⟨hcode, rfl, -⟩ := his
  obtain ⟨hcode', hnext, hlt⟩ := hjs
  rw [Occupies, Code.ofInstructions_append, codeAt_append, List.length_append, ← Nat.add_assoc]
  exact ⟨⟨hcode, hcode'⟩, hnext, hlt⟩

/-- A text stands among the static data, after the variables, and a zero byte after it.  Since no
variable comes after `limit`, assignments cannot change the text. -/
structure TextAt (address : Nat) (text : String) : Prop where
  limit_le : g.limit ≤ address
  data_eq : ∃ before after, g.image.data = before ++ (Utf8.encode text ++ 0 :: after) ∧
    before.length = address * wordSize
  noNul : 0 ∉ Utf8.encode text

variable {g} in
/-- The address of a text fits a word, as the data has fewer than 2³³ bytes. -/
theorem TextAt.address_lt {address : Nat} {text : String} (h : g.TextAt address text) :
    address < 2147483648 := by
  obtain ⟨before, after, hdata, hlength⟩ := h.data_eq
  have hlt := g.data_lt
  rw [hdata, List.length_append, hlength, wordSize] at hlt
  omega

/-- The code that prints a text. -/
def Prints (text : String) (base next : Nat) : Prop :=
  ∃ address, address < 65536 ∧ g.TextAt address text ∧
    g.Occupies [.printString (Int16.ofNat address)] base next

/-- The code that goes on at `target` if a condition is false, and after itself otherwise. -/
def Tests (c : Expr V .bool) (target base next : Nat) : Prop :=
  c.Addressable decl ∧ target < 65536 ∧
    g.Occupies (c.code decl base ++ [.ofConst 0, .branch .eq (Int16.ofNat target)]) base next

/-- The code that goes on at `target`. -/
def Jumps (target base next : Nat) : Prop :=
  target < 65536 ∧ g.Occupies [.jump (Int16.ofNat target)] base next

/-- The code that does one of two things.  The first is followed by a jump over the second. -/
def Chooses (c : Expr V .bool) (yes no : Nat → Nat → Prop) (base next : Nat) : Prop :=
  ∃ m k l, g.Tests decl c l base m ∧ yes m k ∧ g.Jumps next k l ∧ no l next

end Target

/-- The code of a statement stands between two addresses.  The addresses of labels are given as
numbers, because in a finished image there are no labels any more. -/
def Stmt.Placed {V : Scalar → Type} (g : Target) (decl : (t : Scalar) → V t → Decl) :
    Stmt V → Nat → Nat → Prop
  | .skip => fun base next => next = base
  | .seq a b => fun base next => ∃ m, a.Placed g decl base m ∧ b.Placed g decl m next
  | .assign x e _ => fun base next =>
    e.Addressable decl ∧ (decl _ x).IsAddressable ∧
      g.Occupies (e.code decl base ++ [(decl _ x).region.storeInstruction (decl _ x).offset])
        base next
  | .ifThen c _ s => fun base next => ∃ m, g.Tests decl c next base m ∧ s.Placed g decl m next
  | .ifElse c _ a b => g.Chooses decl c (a.Placed g decl) (b.Placed g decl)
  | .whileDo c _ s => fun base next =>
    ∃ m k, g.Tests decl c next base m ∧ s.Placed g decl m k ∧ g.Jumps base k next
  | .writeInt e _ => fun base next =>
    e.Addressable decl ∧ g.Occupies (e.code decl base ++ [.ofConst 0, .print]) base next
  | .writeBool e _ => g.Chooses decl e (g.Prints "True") (g.Prints "False")
  | .writeLine _ => g.Prints "\n"
  | .writeText literal _ => g.Prints (unquote literal)

/-! ### What an action adds to an image -/

namespace Target

open Assembler

/-- An image is what a compilation can become: it has the code and the data that are known, and its
labels have the addresses that are known. -/
def Realizes (g : Target) (c : Compiler) : Prop := c.assembler.RealizedBy g.image g.table

/-- The static data of a compilation are whole words, among them those of all variables, and the
text that ends a line is where it is said to be. -/
structure Ready (g : Target) (c : Compiler) : Prop where
  limit_le : g.limit * wordSize ≤ c.assembler.statics.bytes.size
  aligned : c.assembler.statics.bytes.size % wordSize = 0
  newline : ∀ address, c.newline? = some address → g.TextAt address "\n"

/-- What an action of the compiler does that ends without misuse: it finds nothing wrong, `L` says
how the labels change that are used and not defined, and in every image that the compilation ends
up in, the code of the action stands where `P` says. -/
structure Builds (x : Checked Unit) (L : (String → Prop) → (String → Prop) → Prop)
    (P : Target → Nat → Nat → Prop) : Prop where
  ok : ∀ {c r c'}, x.run c = .ok r c' → r = .ok ()
  effects : ∀ {c r c'}, x.run c = .ok r c' → Effects c.assembler c'.assembler
  labels : ∀ {c r c'}, x.run c = .ok r c' → L c.assembler.labels.Lacks c'.assembler.labels.Lacks
  placed : ∀ {g : Target} {c r c'}, x.run c = .ok r c' → g.Realizes c' → g.Ready c →
    g.Ready c' ∧ P g c.assembler.code.size c'.assembler.code.size

/-- No label more is left undefined.  This holds of whole statements, which define all labels they
make up. -/
def Settled (before after : String → Prop) : Prop := ∀ l, after l → before l

/-- At most one label more is left undefined. -/
def Uses (label : String) (before after : String → Prop) : Prop :=
  ∀ l, after l → before l ∨ l = label

/-- A label is not left undefined any more. -/
def Defines (label : String) (before after : String → Prop) : Prop :=
  ∀ l, after l → before l ∧ l ≠ label

/-- A new label is not left undefined. -/
theorem defines_withLabel (a : Assembler) (label : String) :
    Defines label a.labels.Lacks (a.withLabel label).labels.Lacks := by
  rintro l ⟨hused, hundefined⟩
  rw [address?_withLabel] at hundefined
  split at hundefined
  · cases hundefined
  · rename_i hne
    exact ⟨⟨hused, hundefined⟩, hne⟩

/-- Effects keep the static data that are there. -/
theorem Ready.of_effects {g : Target} {c c' : Compiler} (h : g.Ready c)
    (heffects : Effects c.assembler c'.assembler) (hnewline : c'.newline? = c.newline?) :
    g.Ready c' := by
  obtain ⟨hle, haligned⟩ := statics_of_effects heffects
  exact ⟨Nat.le_trans h.limit_le hle, haligned h.aligned, fun n hn => h.newline n (hnewline ▸ hn)⟩

theorem Realizes.code_lt {g : Target} {c : Compiler} (h : g.Realizes c) :
    c.assembler.code.size < 65536 :=
  Nat.lt_of_le_of_lt (RealizedBy.size h) g.code_lt

namespace Builds

variable {g : Target} {x y : Checked Unit} {L L' : (String → Prop) → (String → Prop) → Prop}
  {P Q : Target → Nat → Nat → Prop}

/-- An image that a compilation can become after an action is one that it can become before. -/
theorem before (h : Builds x L P) {c c' : Compiler} {r : Except Diagnostic Unit}
    (hrun : x.run c = .ok r c') (hrealizes : g.Realizes c') : g.Realizes c :=
  RealizedBy.of_effects (h.effects hrun) hrealizes

theorem mono (h : Builds x L P) (hL : ∀ before after, L before after → L' before after)
    (hP : ∀ g base next, P g base next → Q g base next) : Builds x L' Q where
  ok := h.ok
  effects := h.effects
  labels hrun := hL _ _ (h.labels hrun)
  placed hrun hrealizes hready := by
    obtain ⟨hready', hplaced⟩ := h.placed hrun hrealizes hready
    exact ⟨hready', hP _ _ _ hplaced⟩

/-- An action that ends as another one does. -/
theorem of_run (h : Builds y L P)
    (hrun : ∀ {c r c'}, x.run c = .ok r c' → y.run c = .ok r c') : Builds x L P where
  ok hx := h.ok (hrun hx)
  effects hx := h.effects (hrun hx)
  labels hx := h.labels (hrun hx)
  placed hx := h.placed (hrun hx)

/-- One action after the other.  The image is the one at the end, and so the second action is looked
at first: what it needs of the image is enough for the first one. -/
theorem seq (hx : Builds x L P) (hy : Builds y L' Q) :
    Builds (do x; y) (fun before after => ∃ middle, L before middle ∧ L' middle after)
      fun g base next => ∃ m, P g base m ∧ Q g m next := by
  -- no action of this kind finds anything wrong, and so the second one is always carried out
  have hparts : ∀ {c r c'}, (do x; y : Checked Unit).run c = .ok r c' →
      ∃ c₁, x.run c = .ok (.ok ()) c₁ ∧ y.run c₁ = .ok r c' := by
    intro c r c' hrun
    obtain ⟨r₁, c₁, hrunx, hrest⟩ := Action.bind_eq_ok.mp hrun
    obtain rfl := hx.ok hrunx
    exact ⟨c₁, hrunx, hrest⟩
  constructor
  · intro c r c' hrun
    obtain ⟨c₁, -, hruny⟩ := hparts hrun
    exact hy.ok hruny
  · intro c r c' hrun
    obtain ⟨c₁, hrunx, hruny⟩ := hparts hrun
    exact (hx.effects hrunx).trans (hy.effects hruny)
  · intro c r c' hrun
    obtain ⟨c₁, hrunx, hruny⟩ := hparts hrun
    exact ⟨_, hx.labels hrunx, hy.labels hruny⟩
  · intro g c r c' hrun hrealizes hready
    obtain ⟨c₁, hrunx, hruny⟩ := hparts hrun
    obtain ⟨hready₁, hP⟩ := hx.placed hrunx (hy.before hruny hrealizes) hready
    obtain ⟨hready', hQ⟩ := hy.placed hruny hrealizes hready₁
    exact ⟨hready', _, hP, hQ⟩

/-- No action. -/
theorem skip : Builds (pure ()) Settled fun _ base next => next = base := by
  have hsame : ∀ {c : Compiler} {r : Except Diagnostic Unit} {c' : Compiler},
      (pure () : Checked Unit).run c = .ok r c' → r = .ok () ∧ c' = c := by
    intro c r c' hrun
    obtain ⟨rfl, rfl⟩ := EStateM.Result.ok.inj hrun
    exact ⟨rfl, rfl⟩
  constructor
  · exact fun hrun => (hsame hrun).1
  · intro c r c' hrun
    rw [(hsame hrun).2]
  · intro c r c' hrun l hl
    rw [(hsame hrun).2] at hl
    exact hl
  · intro g c r c' hrun _ hready
    obtain ⟨-, rfl⟩ := hsame hrun
    exact ⟨hready, rfl⟩

/-- A new label changes nothing in the program under construction. -/
theorem newLabel {f : String → Checked Unit} (h : ∀ label, Builds (f label) L P) :
    Builds (do f (← Compiler.newLabel)) L P where
  ok {c _ _} hrun := (h _).ok (c := { c with labelCount := c.labelCount + 1 }) hrun
  effects {c _ _} hrun := (h _).effects (c := { c with labelCount := c.labelCount + 1 }) hrun
  labels {c _ _} hrun := (h _).labels (c := { c with labelCount := c.labelCount + 1 }) hrun
  placed {_ c _ _} hrun hrealizes hready :=
    (h _).placed (c := { c with labelCount := c.labelCount + 1 }) hrun hrealizes
      ⟨hready.limit_le, hready.aligned, hready.newline⟩

/-- An action of the assembler builds what its changes of the program say.  Nothing else of the
compiler is touched. -/
theorem assemble {x : Asm Unit} (hregular : x.Regular)
    (hL : ∀ {a b : Assembler}, x a = .ok () b → L a.labels.Lacks b.labels.Lacks)
    (hP : ∀ {g : Target} {a b : Assembler}, x a = .ok () b → b.RealizedBy g.image g.table →
      b.code.size < 65536 → g.limit * wordSize ≤ a.statics.bytes.size →
      a.statics.bytes.size % wordSize = 0 → P g a.code.size b.code.size) :
    Builds (liftM x) L P := by
  constructor
  · intro c r c' hrun
    obtain ⟨_, a, -, -, rfl⟩ := Checked.assemble_eq_ok.mp hrun
    rfl
  · intro c r c' hrun
    obtain ⟨_, a, hx, rfl, -⟩ := Checked.assemble_eq_ok.mp hrun
    exact hregular hx
  · intro c r c' hrun
    obtain ⟨_, a, hx, rfl, -⟩ := Checked.assemble_eq_ok.mp hrun
    exact hL hx
  · intro g c r c' hrun hrealizes hready
    obtain ⟨_, a, hx, rfl, -⟩ := Checked.assemble_eq_ok.mp hrun
    refine ⟨hready.of_effects (hregular hx) rfl, ?_⟩
    exact hP hx hrealizes hrealizes.code_lt hready.limit_le hready.aligned

/-- An action of the assembler that leaves the labels alone. -/
theorem assemble_settled {x : Asm Unit} (hregular : x.Regular)
    (hlabels : ∀ {a b : Assembler}, x a = .ok () b → b.labels = a.labels)
    (hP : ∀ {g : Target} {a b : Assembler}, x a = .ok () b → b.RealizedBy g.image g.table →
      b.code.size < 65536 → g.limit * wordSize ≤ a.statics.bytes.size →
      a.statics.bytes.size % wordSize = 0 → P g a.code.size b.code.size) :
    Builds (liftM x) Settled P := by
  refine assemble hregular (fun hx l hl => ?_) hP
  rw [hlabels hx] at hl
  exact hl

/-- A label is defined as the address of what follows. -/
theorem define (label : String) :
    Builds (liftM (Compiler.define label)) (Defines label) fun g base next =>
      next = base ∧ g.table label = some base ∧ base < 65536 := by
  refine assemble (Command.define label).regular (fun hx => ?_) fun hx hrealized hlt _ _ => ?_
  · obtain ⟨-, rfl⟩ := withLabel_of_define hx
    exact defines_withLabel _ label
  · obtain ⟨-, rfl⟩ := withLabel_of_define hx
    exact ⟨rfl, hrealized.labels label _ (address?_withLabel_self _ label), hlt⟩

/-- A label that is defined first may be used.  This is the top of a loop, where `seq` would say
that the label is left undefined by the jump back. -/
theorem defineFirst {label : String} (hy : Builds y (Uses label) Q) :
    Builds (do Compiler.define label; y) Settled fun g base next =>
      g.table label = some base ∧ base < 65536 ∧ Q g base next where
  ok := ((define label).seq hy).ok
  effects := ((define label).seq hy).effects
  labels {c _ c'} hrun l hl := by
    obtain ⟨r₁, c₁, hdefine, hrest⟩ := Action.bind_eq_ok.mp hrun
    obtain ⟨_, a, hx, rfl, rfl⟩ := Checked.assemble_eq_ok.mp hdefine
    -- the label stays defined, so that it is not the one that is left
    have hdefined : c'.assembler.labels.address? label = some c.assembler.code.size := by
      obtain ⟨-, rfl⟩ := withLabel_of_define hx
      exact address?_of_effects (hy.effects hrest) (address?_withLabel_self _ label)
    have hne : l ≠ label := by
      rintro rfl
      cases hl.2.symm.trans hdefined
    exact ((define label).labels hdefine l ((hy.labels hrest l hl).resolve_right hne)).1
  placed hrun hrealizes hready := by
    obtain ⟨hready', _, ⟨rfl, htable, hlt⟩, hQ⟩ :=
      ((define label).seq hy).placed hrun hrealizes hready
    exact ⟨hready', htable, hlt, hQ⟩

/-- An instruction with a label leaves at most that label undefined. -/
theorem uses_of_emitLabel {t : Transfer} {label : String} {a b : Assembler}
    (h : emitLabel t.opcode label a = .ok () b) : Uses label a.labels.Lacks b.labels.Lacks := by
  rintro l ⟨hused, hundefined⟩
  cases hlabel : a.labels.address? label with
  | some n =>
    obtain rfl := emitLabel_of_address t hlabel h
    exact Or.inl ⟨hused, hundefined⟩
  | none =>
    rw [emitLabel_of_none t hlabel] at h
    obtain ⟨-, rfl⟩ := EStateM.Result.ok.inj h
    rcases List.mem_cons.mp hused with rfl | hused
    · exact Or.inr rfl
    · exact Or.inl ⟨hused, hundefined⟩

/-- A jump goes to where its label is defined. -/
theorem jump (label : String) :
    Builds (liftM (Compiler.jump label)) (Uses label) fun g base next =>
      ∃ n, g.table label = some n ∧ g.Occupies [.jump (Int16.ofNat n)] base next := by
  refine assemble (Command.jump label).regular (uses_of_emitLabel (t := .jump))
    fun hx hrealized hlt _ _ => ?_
  obtain ⟨n, htable, hcode, hsize⟩ := RealizedBy.codeAt_emitLabel (t := .jump) hx hrealized
  exact ⟨n, htable, occupies_singleton hcode hsize hlt⟩

/-- A jump that is made if the topmost word is that of `false`.  The word is compared with a
constant, since the machine can only compare two words. -/
theorem branchIf (label : String) :
    Builds (liftM (Assembler.branchIf false label)) (Uses label) fun g base next =>
      ∃ n, g.table label = some n ∧
        g.Occupies [.ofConst 0, .branch .eq (Int16.ofNat n)] base next := by
  have hparts : ∀ {a b : Assembler}, Assembler.branchIf false label a = .ok () b →
      emitLabel Transfer.branch.opcode label (a.append [.ofConst 0]) = .ok () b := by
    intro a b hx
    obtain ⟨_, a₁, hpush, hemit⟩ := Action.bind_eq_ok.mp hx
    obtain ⟨-, rfl⟩ := EStateM.Result.ok.inj ((pushConst_eq _ a).symm.trans hpush)
    exact hemit
  refine assemble (Command.branchIf false label).regular
    (fun {a b} hx => ?_) fun {g a b} hx hrealized hlt _ _ => ?_
  · exact uses_of_emitLabel (a := a.append [.ofConst 0]) (hparts hx)
  have hemit := hparts hx
  obtain ⟨n, htable, hcode, hsize⟩ := RealizedBy.codeAt_emitLabel (t := .branch) hemit hrealized
  -- the constant was emitted before the label was looked up, and is realized as well
  have hrealized₁ := RealizedBy.of_effects (regular_emitLabel .branch label hemit) hrealized
  have hconst : g.Occupies [.ofConst 0] a.code.size (a.append [.ofConst 0]).code.size :=
    ⟨hrealized₁.codeAt, size_append _ _, Nat.lt_of_le_of_lt hrealized₁.size g.code_lt⟩
  exact ⟨n, htable, hconst.append (occupies_singleton hcode hsize hlt)⟩

/-- Actions that append instructions. -/
theorem append {x : Asm Unit} {is : List Instruction} (hregular : x.Regular)
    (h : ∀ {a b}, x a = .ok () b → b = a.append is) :
    Builds (liftM x) Settled fun g => g.Occupies is := by
  refine assemble_settled hregular (fun hx => ?_) fun hx hrealized hlt _ _ => ?_
  · rw [h hx, labels_append]
  · obtain rfl := h hx
    exact ⟨hrealized.codeAt, size_append _ _, hlt⟩

/-- A word is stored only if an instruction can name its place. -/
theorem storeWord (r : Region) (offset : Word) :
    Builds (liftM (Assembler.storeWord r offset)) Settled fun g base next =>
      r.offsetWidth.holds offset = true ∧ g.Occupies [r.storeInstruction offset] base next := by
  have happend : ∀ {a b}, Assembler.storeWord r offset a = .ok () b →
      r.offsetWidth.holds offset = true ∧ b = a.append [r.storeInstruction offset] := by
    intro a b hx
    have hholds := holds_of_emitWith hx
    exact ⟨hholds, (EStateM.Result.ok.inj ((storeWord_eq hholds a).symm.trans hx)).2.symm⟩
  refine assemble_settled (Command.storeWord r offset).regular (fun hx => ?_)
    fun hx hrealized hlt _ _ => ?_
  · rw [(happend hx).2, labels_append]
  · obtain ⟨hholds, rfl⟩ := happend hx
    exact ⟨hholds, hrealized.codeAt, size_append _ _, hlt⟩

/-- An expression is pushed, and its operand used.  That instructions can name all its variables is
not assumed but follows, as the compilation ended without misuse. -/
theorem load {V : Scalar → Type} {decl : (t : Scalar) → V t → Decl}
    (hdeclared : ∀ t x, (decl t x).Declared t) {t : Scalar} {e : Expr V t}
    {f : Operand → Checked Unit} (hf : ∀ x, x.type = t.ty → Builds (f x) L P) :
    Builds (do f (← e.load decl)) L fun g base next =>
      e.Addressable decl ∧ ∃ m, g.Occupies (e.code decl base) base m ∧ P g m next := by
  -- what was pushed is the code of the expression, and its operand has the right type
  have hload : ∀ {c r c'}, (do f (← e.load decl)).run c = .ok r c' → e.Addressable decl ∧
      ∃ x, x.type = t.ty ∧ (f x).run (c.withAssembler
        (c.assembler.append (e.code decl c.assembler.code.size))) = .ok r c' := by
    intro c r c' hrun
    obtain ⟨r₁, c₁, hrunx⟩ := Checked.exists_ok_of_bind hrun
    have haddressable := Expr.addressable_of_load hdeclared hrunx
    obtain ⟨x, hx, htype⟩ := Expr.load_eq hdeclared haddressable c
    rw [Checked.bind_of_ok hx] at hrun
    exact ⟨haddressable, x, htype, hrun⟩
  constructor
  · intro c r c' hrun
    obtain ⟨-, x, htype, hrest⟩ := hload hrun
    exact (hf x htype).ok hrest
  · intro c r c' hrun
    obtain ⟨haddressable, x, htype, hrest⟩ := hload hrun
    exact (Phrase.writable_code haddressable c.assembler).trans ((hf x htype).effects hrest)
  · intro c r c' hrun
    obtain ⟨-, x, htype, hrest⟩ := hload hrun
    have hlabels := (hf x htype).labels hrest
    exact hlabels
  · intro g c r c' hrun hrealizes hready
    obtain ⟨haddressable, x, htype, hrest⟩ := hload hrun
    have hrealizes₁ : RealizedBy _ _ _ := (hf x htype).before hrest hrealizes
    obtain ⟨hready', hP⟩ := (hf x htype).placed hrest hrealizes
      ⟨hready.limit_le, hready.aligned, hready.newline⟩
    refine ⟨hready', haddressable, _, ?_, hP⟩
    exact ⟨hrealizes₁.codeAt, size_append _ _, Nat.lt_of_le_of_lt hrealizes₁.size g.code_lt⟩

/-! ### Texts -/

/-- A text is stored from the next static word on, and so after all variables. -/
theorem textAt_of_realizedBy {a : Assembler} {text : String} (hnul : 0 ∉ Utf8.encode text)
    (hlimit : g.limit * wordSize ≤ a.statics.bytes.size)
    (haligned : a.statics.bytes.size % wordSize = 0)
    (h : RealizedBy { a with statics := a.statics.allocString text } g.image g.table) :
    g.TextAt a.statics.words text := by
  have hwords : a.statics.words * wordSize = a.statics.bytes.size :=
    Nat.div_mul_cancel (Nat.dvd_of_mod_eq_zero haligned)
  obtain ⟨rest, hdata⟩ := h.statics
  obtain ⟨zeros, hzeros⟩ := exists_stringBytes text
  have hsplit : g.image.data
      = a.statics.bytes.toList ++ (Utf8.encode text ++ 0 :: (zeros ++ rest)) := by
    rw [← hdata, Statics.allocString, hzeros]
    simp
  have hlength : a.statics.bytes.toList.length = a.statics.words * wordSize := by
    rw [hwords, Array.length_toList]
  refine ⟨?_, ⟨_, _, hsplit, hlength⟩, hnul⟩
  rw [← hwords] at hlimit
  exact Nat.le_of_mul_le_mul_right hlimit (by decide)

/-- The code that prints a text that is stored. -/
theorem prints_of_printString {a b : Assembler} {address : Nat} {text : String}
    (htext : g.TextAt address text) (hprint : Assembler.printString address a = .ok () b)
    (h : b.RealizedBy g.image g.table) :
    b = a.append [.printString (Int16.ofNat address)] ∧
      g.Prints text a.code.size b.code.size := by
  have hholds := holds_of_emitWith hprint
  obtain ⟨-, rfl⟩ := EStateM.Result.ok.inj ((printString_eq hholds a).symm.trans hprint)
  have hle : (address : Int) ≤ 65535 := Width.le_of_holds htext.address_lt hholds
  refine ⟨rfl, address, by omega, htext, h.codeAt, size_append _ _, ?_⟩
  exact Nat.lt_of_le_of_lt h.size g.code_lt

/-- Printing a stored text leaves the labels alone. -/
theorem labels_of_printString {a b : Assembler} {address : Nat}
    (h : Assembler.printString address a = .ok () b) : b.labels = a.labels := by
  obtain ⟨-, rfl⟩ := EStateM.Result.ok.inj
    ((printString_eq (holds_of_emitWith h) a).symm.trans h)
  rfl

/-- The code that prints a text which is stored for it. -/
theorem writeText {text : String} (hnul : 0 ∉ Utf8.encode text) :
    Builds (liftM (Compiler.writeText text)) Settled fun g => g.Prints text := by
  have hparts : ∀ {a b : Assembler}, Compiler.writeText text a = .ok () b →
      Assembler.printString a.statics.words { a with statics := a.statics.allocString text }
        = .ok () b := by
    intro a b hx
    obtain ⟨address, a₁, halloc, hprint⟩ := Action.bind_eq_ok.mp hx
    obtain ⟨rfl, rfl⟩ := EStateM.Result.ok.inj halloc
    exact hprint
  refine assemble_settled (((Command.allocString text).regular_answering rfl).bind fun _ =>
    (Command.printString _).regular) (fun hx => ?_) fun {g a b} hx hrealized _ hlimit haligned => ?_
  · rw [labels_of_printString (hparts hx)]
  have hrealized₁ := RealizedBy.of_effects ((Command.printString _).regular (hparts hx)) hrealized
  have htext := textAt_of_realizedBy hnul hlimit haligned hrealized₁
  exact (prints_of_printString htext (hparts hx) hrealized).2

/-- The text that ends a line was stored before, or it is stored now.  It is stored once for all
lines. -/
theorem newline_eq_ok {c c' : Compiler} {address : Nat} (h : newline c = .ok address c') :
    (c.newline? = some address ∧ c' = c) ∨
      (address = c.assembler.statics.words ∧
        c' = { c with
          assembler := { c.assembler with statics := c.assembler.statics.allocString "\n" }
          newline? := some address }) := by
  obtain ⟨_, _, hget, hrest⟩ := Action.bind_eq_ok.mp h
  obtain ⟨rfl, rfl⟩ := EStateM.Result.ok.inj hget
  cases hnewline : c.newline? with
  | some n =>
    simp only [hnewline] at hrest
    obtain ⟨rfl, rfl⟩ := EStateM.Result.ok.inj hrest
    exact Or.inl ⟨rfl, rfl⟩
  | none =>
    simp only [hnewline] at hrest
    obtain ⟨rfl, rfl⟩ := EStateM.Result.ok.inj hrest
    exact Or.inr ⟨rfl, rfl⟩

/-- The code that ends a line.  Its text is stored when it is needed first. -/
theorem writeLine : Builds (liftM (callBuiltin .writeln)) Settled fun g => g.Prints "\n" := by
  have hrun : ∀ {c r c'}, (liftM (callBuiltin .writeln) : Checked Unit).run c = .ok r c' →
      ∃ address c₁ a, newline c = .ok address c₁ ∧
        Assembler.printString address c₁.assembler = .ok () a ∧
        c' = c₁.withAssembler a ∧ r = .ok () := by
    intro c r c' h
    obtain ⟨v, hcall, rfl⟩ := Checked.lift_eq_ok.mp h
    obtain ⟨address, c₁, hnewline, hprint⟩ := Action.bind_eq_ok.mp hcall
    obtain ⟨a, hemit, rfl⟩ := assemble_eq_ok.mp hprint
    exact ⟨address, c₁, a, hnewline, hemit, rfl, rfl⟩
  constructor
  · intro c r c' h
    obtain ⟨_, _, _, -, -, -, rfl⟩ := hrun h
    rfl
  · intro c r c' h
    obtain ⟨address, c₁, a, hnewline, hprint, rfl, -⟩ := hrun h
    rcases newline_eq_ok hnewline with ⟨-, rfl⟩ | ⟨-, rfl⟩
    · exact (Command.printString _).regular hprint
    · exact ((Command.allocString "\n").regular_answering rfl rfl).trans
        ((Command.printString _).regular hprint)
  · intro c r c' h l hl
    obtain ⟨address, c₁, a, hnewline, hprint, rfl, -⟩ := hrun h
    rw [assembler_withAssembler, labels_of_printString hprint] at hl
    rcases newline_eq_ok hnewline with ⟨-, rfl⟩ | ⟨-, rfl⟩ <;> exact hl
  · intro g c r c' h hrealizes hready
    obtain ⟨address, c₁, a, hnewline, hprint, rfl, rfl⟩ := hrun h
    have hrealized := RealizedBy.of_effects ((Command.printString _).regular hprint) hrealizes
    rcases newline_eq_ok hnewline with ⟨hstored, rfl⟩ | ⟨rfl, rfl⟩
    · -- the text has been stored for an earlier line
      obtain ⟨rfl, hprints⟩ := prints_of_printString (hready.newline address hstored) hprint
        hrealizes
      exact ⟨⟨hready.limit_le, hready.aligned, hready.newline⟩, hprints⟩
    · -- the text is new; from now on all lines end with it
      have htext := textAt_of_realizedBy (by decide) hready.limit_le hready.aligned hrealized
      obtain ⟨rfl, hprints⟩ := prints_of_printString htext hprint hrealizes
      obtain ⟨hle, haligned⟩ := statics_of_effects
        ((Command.allocString "\n").regular_answering rfl (a := c.assembler) rfl)
      refine ⟨⟨Nat.le_trans hready.limit_le hle, haligned hready.aligned, ?_⟩, hprints⟩
      intro n hn
      obtain rfl := Option.some.inj hn
      exact htext

/-! ### Statements -/

section Statements

variable {V : Scalar → Type} {decl : (t : Scalar) → V t → Decl}

/-- A condition and the jump that is made if it is false are placed one after the other. -/
theorem tests {c : Expr V .bool} {base m next n : Nat} (haddressable : c.Addressable decl)
    (hcode : g.Occupies (c.code decl base) base m) (hn : n < 65536)
    (hbranch : g.Occupies [.ofConst 0, .branch .eq (Int16.ofNat n)] m next) :
    g.Tests decl c n base next :=
  ⟨haddressable, hn, hcode.append hbranch⟩

/-- One of two actions, depending on a condition.  Statements with two branches and the printing of
truth values are both compiled so. -/
theorem choose (hdeclared : ∀ t x, (decl t x).Declared t) {c : Expr V .bool}
    {f : Operand → Checked Unit} (hx : Builds x Settled P) (hy : Builds y Settled Q)
    (hf : ∀ operand, operand.type = .bool → f operand = (do
      let otherwise ← Compiler.newLabel
      let done ← Compiler.newLabel
      Assembler.branchIf false otherwise
      x
      Compiler.jump done
      Compiler.define otherwise
      y
      Compiler.define done)) :
    Builds (do f (← c.load decl)) Settled fun g => g.Chooses decl c (P g) (Q g) := by
  have hbranches : ∀ operand, operand.type = .bool →
      Builds (f operand) Settled fun g m next => ∃ m₁ k l, l < 65536 ∧
        g.Occupies [.ofConst 0, .branch .eq (Int16.ofNat l)] m m₁ ∧ P g m₁ k ∧
          g.Jumps next k l ∧ Q g l next := by
    intro operand htype
    rw [hf operand htype]
    refine .newLabel fun otherwise => .newLabel fun done => ?_
    refine ((branchIf otherwise).seq (hx.seq ((jump done).seq
      ((define otherwise).seq (hy.seq (define done)))))).mono (fun before after h => ?_)
      fun g base next h => ?_
    · -- both labels are defined at the end
      obtain ⟨m₁, hbranch, m₂, hx, m₃, hjump, m₄, hotherwise, m₅, hy, hdone⟩ := h
      intro l hl
      obtain ⟨hl₅, hne⟩ := hdone l hl
      obtain ⟨hl₃, hne'⟩ := hotherwise l (hy l hl₅)
      have hl₁ := hx l ((hjump l hl₃).resolve_right hne)
      exact (hbranch l hl₁).resolve_right hne'
    · -- a label has one address, the one of its definition
      obtain ⟨m, ⟨n, htable, hbranch⟩, k, hP, l, ⟨n', htable', hjump⟩, _,
        ⟨rfl, hotherwise, hlt⟩, _, hQ, rfl, hdone, hlt'⟩ := h
      obtain rfl := Option.some.inj (htable.symm.trans hotherwise)
      obtain rfl := Option.some.inj (htable'.symm.trans hdone)
      exact ⟨m, k, n, hlt, hbranch, hP, ⟨hlt', hjump⟩, hQ⟩
  refine (load hdeclared (t := .bool) hbranches).mono (fun _ _ h => h) fun g base next h => ?_
  obtain ⟨haddressable, m, hcode, m₁, k, l, hlt, hbranch, hP, hjump, hQ⟩ := h
  exact ⟨m₁, k, l, tests haddressable hcode hlt hbranch, hP, hjump, hQ⟩

/-- An action that is left out if a condition is false.  The label behind it is where the jump goes
to, and it is defined right after the action. -/
theorem skipUnless (hdeclared : ∀ t x, (decl t x).Declared t) {c : Expr V .bool}
    (hx : Builds x Settled P) :
    Builds (do
      let _ ← c.load decl
      let done ← Compiler.newLabel
      Assembler.branchIf false done
      x
      Compiler.define done) Settled fun g base next => ∃ m,
        g.Tests decl c next base m ∧ P g m next := by
  have hrest : Builds (do
      let done ← Compiler.newLabel
      Assembler.branchIf false done
      x
      Compiler.define done) Settled fun g m next => next < 65536 ∧ ∃ m₁,
        g.Occupies [.ofConst 0, .branch .eq (Int16.ofNat next)] m m₁ ∧ P g m₁ next := by
    refine .newLabel fun done => ?_
    refine ((branchIf done).seq (hx.seq (define done))).mono (fun _ _ h => ?_) fun g m next h => ?_
    · -- only the branch leaves a label undefined, and its definition follows
      obtain ⟨m₁, hbranch, m₂, hx, hdone⟩ := h
      intro l hl
      obtain ⟨hl₂, hne⟩ := hdone l hl
      exact (hbranch l (hx l hl₂)).resolve_right hne
    · obtain ⟨m₁, ⟨n, htable, hbranch⟩, _, hP, rfl, hdone, hlt⟩ := h
      obtain rfl := Option.some.inj (htable.symm.trans hdone)
      exact ⟨hlt, m₁, hbranch, hP⟩
  refine (load hdeclared (t := .bool) fun _ _ => hrest).mono (fun _ _ h => h)
    fun g base next h => ?_
  obtain ⟨haddressable, m, hcode, hlt, m₁, hbranch, hP⟩ := h
  exact ⟨m₁, tests haddressable hcode hlt hbranch, hP⟩

/-- What follows the label at the top of a loop.  Here this label is only used, and so it may be
defined before. -/
theorem repeatFrom (hdeclared : ∀ t x, (decl t x).Declared t) {c : Expr V .bool}
    (hx : Builds x Settled P) (top done : String) :
    Builds (do
      let _ ← c.load decl
      Assembler.branchIf false done
      x
      Compiler.jump top
      Compiler.define done) (Uses top) fun g base next => ∃ m k n, g.Tests decl c next base m ∧
        P g m k ∧ g.table top = some n ∧ g.Occupies [.jump (Int16.ofNat n)] k next := by
  refine (load hdeclared (t := .bool) fun _ _ => (branchIf done).seq
    (hx.seq ((jump top).seq (define done)))).mono (fun _ _ h => ?_) fun g base next h => ?_
  · obtain ⟨m₁, hbranch, m₂, hx, m₃, hjump, hdone⟩ := h
    intro l hl
    obtain ⟨hl₃, hne⟩ := hdone l hl
    refine (hjump l hl₃).imp_left fun hl₂ => ?_
    exact (hbranch l (hx l hl₂)).resolve_right hne
  · obtain ⟨haddressable, m, hcode, m₁, ⟨n, htable, hbranch⟩, k, hP, _, ⟨n', htop, hjump⟩,
      rfl, hdone, hlt⟩ := h
    obtain rfl := Option.some.inj (htable.symm.trans hdone)
    exact ⟨m₁, k, n', tests haddressable hcode hlt hbranch, hP, htop, hjump⟩

end Statements

end Builds
end Target

/-! ### Calls of builtin procedures -/

/-- The arguments that a builtin procedure without a result takes.  With them the compiler finds
nothing wrong, and the call is the code of the procedure. -/
def Builtin.Takes : Builtin → List Operand → Prop
  | .writeint, [x] => x.type = .int
  | .writebool, [x] => x.type = .bool
  | .writeln, [] => True
  | _, _ => False

theorem write_eq (b : Builtin) (args : List Operand) (h : b.Takes args) (span : Span) :
    Demo.write b args span = (liftM (callBuiltin b) : Checked Unit) := by
  have hcall : callProcedure b.decl args span
      = (do callBuiltin b; return none : Checked (Option Operand)) := by
    match b, args, h with
    | .writeint, [x], (h : x.type = .int) =>
      simp only [callProcedure, Builtin.decl, Builtin.type, badArgument?, h]
      rfl
    | .writebool, [x], (h : x.type = .bool) =>
      simp only [callProcedure, Builtin.decl, Builtin.type, badArgument?, h]
      rfl
    | .writeln, [], _ => rfl
  rw [Demo.write, hcall, bind_assoc]
  simp only [pure_bind, bind_pure_unit]

/-- A truth value is printed as one of two texts. -/
theorem lift_writebool : (liftM (callBuiltin .writebool) : Checked Unit) = (do
    let otherwise ← newLabel
    let done ← newLabel
    Assembler.branchIf false otherwise
    writeText "True"
    jump done
    define otherwise
    writeText "False"
    define done) := by
  simp only [callBuiltin, liftM_bind]
  rfl

namespace Stmt

open Target

variable {V : Scalar → Type} {decl : (t : Scalar) → V t → Decl}

/-- **Compiling a statement places its code** in every image that the compilation ends up in, and
leaves no label undefined.  By induction on the statement; each case composes the pieces that its
actions build, and then says where their labels are. -/
theorem builds (hdecl : ∀ t x, (decl t x).Assignable t) (s : Stmt V) :
    Builds (s.generate decl) Settled fun g => s.Placed g decl := by
  have hdeclared : ∀ t x, (decl t x).Declared t := fun t x => (hdecl t x).toDeclared
  induction s with
  | skip => exact .skip
  | seq a b iha ihb =>
    refine (iha.seq ihb).mono (fun _ _ h => ?_) fun _ _ _ h => h
    obtain ⟨middle, ha, hb⟩ := h
    exact fun l hl => ha l (hb l hl)
  | @assign t x e span =>
    -- the value is pushed by the assignment itself, after the place of the variable is known
    have hpushing := pushing_assign (hdecl t x) span
    refine .of_run ?_ (Expr.load_of_generate hdeclared hpushing)
    refine (Builds.load hdeclared fun _ _ => .storeWord _ _).mono (fun _ _ h => h)
      fun g base next h => ?_
    obtain ⟨haddressable, m, hcode, hholds, hstore⟩ := h
    exact ⟨haddressable, hholds, hcode.append hstore⟩
  | ifThen c span s ih =>
    have hpushing : ∀ done : String, Pushing .bool
        (fun x => do branchIfFalse x done span; generate decl s; define done)
        (do Assembler.branchIf false done; generate decl s; define done) :=
      fun done => pushing_branchIfFalse done span _
    refine .of_run ?_ (Expr.load_of_generate hdeclared (.newLabel hpushing))
    exact .skipUnless hdeclared ih
  | ifElse c span a b iha ihb =>
    have hpushing : ∀ otherwise done : String, Pushing .bool
        (fun x => do
          branchIfFalse x otherwise span
          generate decl a; jump done; define otherwise; generate decl b; define done)
        (do
          Assembler.branchIf false otherwise
          generate decl a; jump done; define otherwise; generate decl b; define done) :=
      fun otherwise done => pushing_branchIfFalse otherwise span _
    refine .of_run ?_ (Expr.load_of_generate hdeclared
      (.newLabel fun otherwise => .newLabel (hpushing otherwise)))
    exact .choose hdeclared iha ihb fun _ _ => rfl
  | whileDo c span s ih =>
    refine .newLabel fun top => .newLabel fun done => ?_
    have hloop := Builds.of_run (Builds.repeatFrom hdeclared (c := c) ih top done)
      (Expr.load_of_generate hdeclared (pushing_branchIfFalse done span _))
    refine hloop.defineFirst.mono (fun _ _ h => h) fun g base next h => ?_
    -- the label at the top has one address, the one of its definition
    obtain ⟨hbase, hlt, m, k, n, htests, hs, htop, hjump⟩ := h
    obtain rfl := Option.some.inj (htop.symm.trans hbase)
    exact ⟨m, k, htests, hs, hlt, hjump⟩
  | writeInt e span =>
    have hprint : ∀ x : Operand, x.type = .int → Builds (Demo.write .writeint [x] span) Settled
        fun g => g.Occupies [.ofConst 0, .print] := by
      intro x htype
      rw [write_eq .writeint [x] htype]
      refine .append Assembler.Command.printInteger.regular fun {a b} h => ?_
      exact (EStateM.Result.ok.inj ((Assembler.printInteger_eq a).symm.trans h)).2.symm
    refine (Builds.load (t := .int) hdeclared hprint).mono (fun _ _ h => h) fun g base next h => ?_
    obtain ⟨haddressable, m, hcode, hprints⟩ := h
    exact ⟨haddressable, hcode.append hprints⟩
  | writeBool e span =>
    refine .choose hdeclared (.writeText (by decide)) (.writeText (by decide)) fun x htype => ?_
    rw [write_eq .writebool [x] htype, lift_writebool]
  | writeLine span =>
    show Builds (Demo.write .writeln [] span) _ _
    rw [write_eq .writeln [] trivial]
    exact .writeLine
  | writeText literal noNul => exact .writeText (Utf8.zero_notMem_encode noNul)

end Stmt
end MJ
