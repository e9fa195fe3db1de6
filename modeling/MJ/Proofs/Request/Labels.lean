import MJ.Proofs.Request.Names

/-!
# Labels that are defined

An action defines a few labels that its caller names, and the compiler some more that it makes up
itself.  If the former are free and the latter not yet made up, then no label is found taken,
whatever else may go wrong, and all other labels stay as they are.

## Main definitions

* `Assembler.Free`, `Asm.DefinesOnly` — labels that may be defined, and actions of the assembler
  that define no others.
* `Compiler.Fresh` — the labels still to be made up are free.
* `Compiler.MayDefine`, `Compile.DefinesOnly` — the same for the compiler, which may make labels up.
* `Compiler.Request.defines`, `Compiler.Request.exitLabel?` — what a request has to do with labels.
* `Compiler.MadeUpFree` — what sessions keep up.

## Main results

* `Compile.DefinesOnly.bind` — the labels of a sequence.
* `Compile.DefinesOnly.compositional` — constructs find no label taken because their steps do not.
* `Compiler.Request.definedOnly` — **a request defines its own labels and those that it makes up.**
* `Compiler.madeUpFree_of_session` — labels are free until they are made up.
-/

namespace MJ

/-! ### Actions of the assembler -/

namespace Assembler

/-- Labels that may be defined: each is free, and none is listed twice.  A label that was listed
twice would be taken when it is defined for the second time. -/
structure Free (a : Assembler) (own : List String) : Prop where
  nodup : own.Nodup
  undefined : ∀ label ∈ own, a.labels.address? label = none

theorem Free.nil (a : Assembler) : a.Free [] := ⟨List.nodup_nil, fun _ h => nomatch h⟩

/-- What an action that may define the labels `own` results in.  It may be a misuse for other
reasons, but not because a label is taken. -/
def DefinedOnly (a : Assembler) (own : List String) {α : Type} :
    EStateM.Result Misuse Assembler α → Prop
  | .ok _ b => ∀ label, label ∉ own → b.labels.address? label = a.labels.address? label
  | .error m _ => m.isLabelTaken = false

end Assembler

open Assembler

/-- An action that defines no labels but `own`, and finds none of them taken. -/
def Asm.DefinesOnly {α : Type} (own : List String) (x : Asm α) : Prop :=
  ∀ a : Assembler, a.Free own → a.DefinedOnly own (x a)

/-- A command that succeeds leaves the addresses of all labels but its own as they are.  This is
read off its change, whose cases are fewer than the commands. -/
theorem Assembler.Command.Changes.address?_eq {k : Assembler.Command} {a b : Assembler}
    (h : k.Changes a b) {label : String} (hlabel : label ∉ k.labels) :
    b.labels.address? label = a.labels.address? label := by
  cases h with
  | code | await | data | frame | unfinished | resolving => rfl
  | label own | opening own | closing own =>
    exact (address?_withLabel _ own label).trans (if_neg (mt List.mem_singleton.mpr hlabel))

/-- A command defines no labels but its own, and does not find them taken. -/
theorem Assembler.Command.definesOnly (k : Assembler.Command) : k.run.DefinesOnly k.labels := by
  intro a hfree
  cases hrun : k.run a with
  | ok v b => exact fun label hlabel => (Command.changes hrun).address?_eq hlabel
  | error m b =>
    refine Bool.eq_false_iff.mpr fun htaken => ?_
    obtain ⟨label, hlabel, hdefined⟩ := (Command.misuse_of_run hrun).1 htaken
    exact hdefined (hfree.undefined label hlabel)

/-- An action whose answer is used defines no labels but those of its command, since the answer has
nothing to do with them. -/
theorem Assembler.Command.definesOnly_answering (k : Assembler.Command) {α : Type} {x : Asm α}
    (hx : k.run = do let _ ← x) : x.DefinesOnly k.labels := by
  intro a hfree
  have hends := k.definesOnly a hfree
  rw [hx] at hends
  cases hrun : x a with
  | ok v b =>
    rw [Action.bind_of_ok hrun] at hends
    exact hends
  | error m b =>
    rw [Action.bind_eq_error.mpr (Or.inl hrun)] at hends
    exact hends

/-! ### Actions of the compiler -/

namespace Compiler

/-- The labels still to be made up are free.  Labels are numbered, and so these are the ones from a
number on. -/
def Fresh (c : Compiler) : Prop :=
  ∀ n, c.labelCount ≤ n → c.assembler.labels.address? (madeUp n) = none

/-- Labels that may be defined: they are free, and not still to be made up.  The labels that are
still to be made up are free as well. -/
structure MayDefine (c : Compiler) (own : List String) : Prop where
  free : c.assembler.Free own
  known : ∀ label ∈ own, ∀ n, label = madeUp n → n < c.labelCount
  fresh : c.Fresh

/-- Labels may have been made up and defined, and the labels `own` may have been defined.  All other
labels that can be named at the start are as they were. -/
structure Adds (own : List String) (c c' : Compiler) : Prop where
  count : c.labelCount ≤ c'.labelCount
  fresh : c'.Fresh
  kept : ∀ label, label ∉ own → (∀ n, label = madeUp n → n < c.labelCount) →
    c'.assembler.labels.address? label = c.assembler.labels.address? label

/-- What an action that may define the labels `own` results in; the open procedure ends at
`exitLabel?` then. -/
def DefinedOnly (c : Compiler) (own : List String) (exitLabel? : Option String) {α : Type} :
    EStateM.Result Misuse Compiler α → Prop
  | .ok _ c' => Adds own c c' ∧ c'.exitLabel? = exitLabel?
  | .error m _ => m.isLabelTaken = false

variable {c c' c'' : Compiler} {own own' : List String}

theorem MayDefine.nil (h : c.Fresh) : c.MayDefine [] :=
  ⟨.nil _, fun _ hlabel => absurd hlabel List.not_mem_nil, h⟩

theorem MayDefine.singleton {label : String} (h : c.Fresh)
    (hfree : c.assembler.labels.address? label = none)
    (hknown : ∀ n, label = madeUp n → n < c.labelCount) : c.MayDefine [label] where
  free := ⟨List.pairwise_singleton _ _, fun _ hlabel => List.mem_singleton.mp hlabel ▸ hfree⟩
  known _ hlabel := List.mem_singleton.mp hlabel ▸ hknown
  fresh := h

theorem MayDefine.left (h : c.MayDefine (own ++ own')) : c.MayDefine own where
  free := ⟨(List.nodup_append.mp h.free.nodup).1,
    fun label hlabel => h.free.undefined label (List.mem_append_left _ hlabel)⟩
  known label hlabel := h.known label (List.mem_append_left _ hlabel)
  fresh := h.fresh

/-- Labels that come later are still free: the first action has not defined them, and those that it
has made up are different. -/
theorem MayDefine.right (h : c.MayDefine (own ++ own')) (hadds : Adds own c c') :
    c'.MayDefine own' where
  free := by
    obtain ⟨-, hown', hdisjoint⟩ := List.nodup_append.mp h.free.nodup
    refine ⟨hown', fun label hlabel => ?_⟩
    have hmem : label ∈ own ++ own' := List.mem_append_right _ hlabel
    rw [hadds.kept label (fun hown => hdisjoint label hown label hlabel rfl) (h.known label hmem)]
    exact h.free.undefined label hmem
  known label hlabel n hn :=
    Nat.lt_of_lt_of_le (h.known label (List.mem_append_right _ hlabel) n hn) hadds.count
  fresh := hadds.fresh

/-- Other notes of the compiler do not matter. -/
theorem Adds.of_eq (h : c.MayDefine own) (hassembler : c'.assembler = c.assembler)
    (hcount : c'.labelCount = c.labelCount) : Adds [] c c' where
  count := Nat.le_of_eq hcount.symm
  fresh := by
    rw [Fresh, hassembler, hcount]
    exact h.fresh
  kept label _ _ := by rw [hassembler]

theorem Adds.trans (h : Adds own c c') (h' : Adds own' c' c'') : Adds (own ++ own') c c'' where
  count := Nat.le_trans h.count h'.count
  fresh := h'.fresh
  kept label hlabel hknown := by
    rw [List.mem_append, not_or] at hlabel
    exact (h'.kept label hlabel.2 fun n hn => Nat.lt_of_lt_of_le (hknown n hn) h.count).trans
      (h.kept label hlabel.1 hknown)

/-- The labels of a sequence are those of its parts.  The second part may use what the first has
left, in particular where the open procedure ends. -/
theorem DefinedOnly.bind {α β : Type} {x : Compile α} {f : α → Compile β}
    {exitLabel? exitLabel?' : Option String} (hx : c.DefinedOnly own exitLabel? (x c))
    (hf : ∀ v c', x c = .ok v c' → Adds own c c' → c'.exitLabel? = exitLabel? →
      c'.DefinedOnly own' exitLabel?' (f v c')) :
    c.DefinedOnly (own ++ own') exitLabel?' ((x >>= f) c) := by
  cases hrun : x c with
  | error m c' =>
    rw [hrun] at hx
    rw [Action.bind_eq_error.mpr (Or.inl hrun)]
    exact hx
  | ok v c' =>
    rw [hrun] at hx
    have hsecond := hf v c' hrun hx.1 hx.2
    rw [Action.bind_of_ok hrun]
    cases hrest : f v c' with
    | error m c'' =>
      rw [hrest] at hsecond
      exact hsecond
    | ok w c'' =>
      rw [hrest] at hsecond
      exact ⟨hx.1.trans hsecond.1, hsecond.2⟩

/-- The label that is made up next may be defined after all others. -/
theorem MayDefine.newLabel (h : c.MayDefine own) :
    MayDefine { c with labelCount := c.labelCount + 1 } (own ++ [madeUp c.labelCount]) where
  free := by
    refine ⟨List.nodup_append.mpr ⟨h.free.nodup, List.pairwise_singleton _ _, ?_⟩, ?_⟩
    · rintro label hlabel other hother rfl
      exact Nat.lt_irrefl _ (h.known label hlabel _ (List.mem_singleton.mp hother))
    · intro label hlabel
      rcases List.mem_append.mp hlabel with hown | hnew
      · exact h.free.undefined label hown
      · rw [List.mem_singleton.mp hnew]
        exact h.fresh _ (Nat.le_refl _)
  known label hlabel n hn := by
    rcases List.mem_append.mp hlabel with hown | hnew
    · exact Nat.lt_succ_of_lt (h.known label hown n hn)
    · rw [madeUp_inj (hn.symm.trans (List.mem_singleton.mp hnew))]
      exact Nat.lt_succ_self _
  fresh n hn := h.fresh n (Nat.le_of_succ_le hn)

/-- A label that was made up in between is one of those that were still to be made up, and so need
not be listed. -/
theorem Adds.of_newLabel (h : Adds (own ++ [madeUp c.labelCount])
    { c with labelCount := c.labelCount + 1 } c') : Adds own c c' where
  count := Nat.le_of_succ_le h.count
  fresh := h.fresh
  kept label hlabel hknown := by
    refine h.kept label (fun hmem => ?_) fun n hn => Nat.lt_succ_of_lt (hknown n hn)
    rcases List.mem_append.mp hmem with hown | hnew
    · exact hlabel hown
    · exact Nat.lt_irrefl _ (hknown _ (List.mem_singleton.mp hnew))

end Compiler

open Compiler

/-- An action that defines no labels but `own` and those that it makes up, and finds none of them
taken. -/
def Compile.DefinesOnly {α : Type} (own : List String) (x : Compile α) : Prop :=
  ∀ c : Compiler, c.MayDefine own → c.DefinedOnly own c.exitLabel? (x c)

namespace Compile.DefinesOnly

variable {α β : Type} {own own' : List String}

theorem bind {x : Compile α} {f : α → Compile β} (hx : DefinesOnly own x)
    (hf : ∀ v, DefinesOnly own' (f v)) : DefinesOnly (own ++ own') (x >>= f) := by
  intro c hown
  refine (hx c hown.left).bind fun v c' _ hadds hexit => ?_
  rw [← hexit]
  exact hf v c' (hown.right hadds)

/-- An action without labels of its own before another one. -/
theorem andThen {x : Compile α} {f : α → Compile β} (hx : DefinesOnly [] x)
    (hf : ∀ v, DefinesOnly own (f v)) : DefinesOnly own (x >>= f) := hx.bind hf

theorem pure (v : α) : DefinesOnly [] (Pure.pure v : Compile α) :=
  fun _ hown => ⟨.of_eq hown rfl rfl, rfl⟩

theorem misuse (m : Misuse) (hm : m.isLabelTaken = false) : DefinesOnly own (throw m : Compile α) :=
  fun _ _ => hm

/-- An action of the assembler. -/
theorem assemble {x : Asm α} (hx : x.DefinesOnly own) : DefinesOnly own (liftM x : Compile α) := by
  intro c hown
  have hends := hx c.assembler hown.free
  show c.DefinedOnly own c.exitLabel? (Compiler.assemble x c)
  unfold Compiler.assemble
  dsimp only
  cases hrun : x c.assembler with
  | error m a =>
    rw [hrun] at hends
    exact hends
  | ok v a =>
    rw [hrun] at hends
    refine ⟨⟨Nat.le_refl _, fun n hn => ?_, fun label hlabel _ => hends label hlabel⟩, rfl⟩
    -- a label still to be made up is not among the own ones
    have hmem : madeUp n ∉ own := fun hmem =>
      Nat.not_lt_of_le hn (hown.known _ hmem n rfl)
    exact (hends _ hmem).trans (hown.fresh n hn)

theorem command (k : Assembler.Command) : DefinesOnly k.labels (liftM k.run : Compile Unit) :=
  assemble k.definesOnly

/-- A label that is made up may be defined afterwards. -/
theorem label {f : String → Compile β} (hf : ∀ label, DefinesOnly (own ++ [label]) (f label)) :
    DefinesOnly own (newLabel >>= f) := by
  intro c hown
  have hrest := hf (madeUp c.labelCount) _ hown.newLabel
  show c.DefinedOnly own c.exitLabel?
    (f (madeUp c.labelCount) { c with labelCount := c.labelCount + 1 })
  cases hrun : f (madeUp c.labelCount) { c with labelCount := c.labelCount + 1 } with
  | error m c' =>
    rw [hrun] at hrest
    exact hrest
  | ok v c' =>
    rw [hrun] at hrest
    exact ⟨hrest.1.of_newLabel, hrest.2⟩

theorem look : DefinesOnly [] (MonadState.get : Compile Compiler) :=
  fun _ hown => ⟨.of_eq hown rfl rfl, rfl⟩

theorem adjust {f : Compiler → Compiler} (hf : ∀ c, (f c).assembler = c.assembler ∧
      (f c).labelCount = c.labelCount ∧ (f c).exitLabel? = c.exitLabel?) :
    DefinesOnly [] (modify f : Compile Unit) :=
  fun c hown => ⟨.of_eq hown (hf c).1 (hf c).2.1, (hf c).2.2⟩

/-- An action finds no label taken if its steps do not. -/
theorem compositional : Compositional fun τ _ x => DefinesOnly τ.labels x where
  pure := pure
  misuse := misuse
  bind := bind
  command := command
  answering k _ _ hx := assemble (k.definesOnly_answering hx)
  makeUp := label
  look := look
  note {_ x} hx := by
    intro c hown
    cases hrun : x c with
    | ok v c' =>
      obtain ⟨noted, rfl⟩ := hx.ok hrun
      exact ⟨.of_eq hown rfl rfl, rfl⟩
    | error m c' => exact hx.error hrun

theorem callBuiltin (b : Builtin) : DefinesOnly [] (Compiler.callBuiltin b) := by
  cases b with
  | writeint => exact command .printInteger
  | readint => exact command .readInteger
  | writebool => exact compositional.writebool
  | writeln =>
    refine andThen (look.andThen fun c => ?_) fun address => command (.printString address)
    split
    · exact pure _
    · refine (compositional.answering (.allocString _) rfl).andThen fun address => ?_
      exact andThen (adjust fun _ => ⟨rfl, rfl, rfl⟩) fun _ => pure _

theorem callProcedure (s : Decl) (args : List Operand) (span : Span) :
    (Compiler.callProcedure s args span).Meets fun τ _ x => DefinesOnly τ.labels x := by
  have hΦ : Compositional fun τ _ x => DefinesOnly τ.labels x := compositional
  unfold Compiler.callProcedure
  split
  · refine hΦ.check (hΦ.check ?_)
    split
    · exact hΦ.reject _ span
    · rename_i builtin? _ _ _
      cases builtin? with
      | some b => exact hΦ.andThen (hΦ.lift (callBuiltin b)) fun _ => hΦ.accept _
      | none => exact hΦ.andThen (hΦ.lift (command (.call s.label))) fun _ => hΦ.accept _
  · exact hΦ.fail _ rfl

theorem callFunction (s : Decl) (args : List Operand) (span : Span) :
    (Compiler.callFunction s args span).Meets fun τ _ x => DefinesOnly τ.labels x := by
  have hΦ : Compositional fun τ _ x => DefinesOnly τ.labels x := compositional
  unfold Compiler.callFunction
  split
  · exact hΦ.reject _ span
  · refine hΦ.andThen (callProcedure s args span) fun result? => ?_
    cases result? with
    | some x => exact hΦ.accept x
    | none => exact hΦ.reject _ span

theorem assignConstant (offset value : Word) :
    DefinesOnly [] (Compiler.assignConstant offset value) := by
  refine look.andThen fun c => ?_
  split
  · exact compositional.assembled.setConstant offset value
  · exact adjust fun _ => ⟨rfl, rfl, rfl⟩

theorem assign (target x : Operand) (span : Span) :
    (Compiler.assign target x span).Meets fun τ _ x => DefinesOnly τ.labels x := by
  have hΦ : Compositional fun τ _ x => DefinesOnly τ.labels x := compositional
  refine hΦ.check (hΦ.check ?_)
  split
  · split
    · exact hΦ.fail _ rfl
    · exact hΦ.lift (assignConstant _ _)
  · exact hΦ.andThen (hΦ.lift (hΦ.loadIfNeeded x)) fun _ => hΦ.lift (hΦ.store target)

theorem construct (k : Construct) (span : Span) :
    Handling.Meets (fun τ _ x => DefinesOnly τ.labels x) (k.compile span) := by
  have hΦ : Compositional fun τ _ x => DefinesOnly τ.labels x := compositional
  cases k with
  | assign target x =>
    exact hΦ.handleThen (hΦ.handle (assign target x span)) fun _ => hΦ.answer _
  | callProcedure s args => exact hΦ.handle (callProcedure s args span)
  | callFunction s args =>
    exact hΦ.handleThen (hΦ.handle (callFunction s args span)) fun _ => hΦ.answer _
  | _ => exact hΦ.construct rfl span

end Compile.DefinesOnly

/-! ### The two ends of a procedure -/

namespace Compiler

/-- The procedure between two labels is opened at the first one. -/
theorem definedOnly_enterAt {c : Compiler} {label : String} (hown : c.MayDefine [label])
    (endLabel : String) (params : Nat) (isMain : Bool) :
    c.DefinedOnly [label] (some endLabel) (enterAt label endLabel params isMain c) := by
  refine (Compile.DefinesOnly.command (.enter label params isMain) c hown).bind
    fun _ c₁ _ hadds _ => ?_
  have hnote : c₁.DefinedOnly [] (some endLabel)
      ((modify fun c => { c with exitLabel? := some endLabel } : Compile Unit) c₁) :=
    ⟨.of_eq (.nil hadds.fresh) rfl rfl, rfl⟩
  refine hnote.bind fun _ c₂ _ hadds hexit => ?_
  rw [← hexit]
  split
  · have hstart : Compile.DefinesOnly [] startMain := fun _ hown => ⟨.of_eq hown rfl rfl, rfl⟩
    exact (hstart.andThen fun constants =>
      Compile.DefinesOnly.compositional.assembled.setConstants constants) c₂ (.nil hadds.fresh)
  · exact Compile.DefinesOnly.pure () c₂ (.nil hadds.fresh)

theorem definedOnly_enter {c : Compiler} {procedure? : Option Decl}
    (hown : c.MayDefine [(entryLabels procedure?).1]) :
    c.DefinedOnly [(entryLabels procedure?).1] (some (entryLabels procedure?).2)
      (enter procedure? c) := by
  cases procedure? with
  | none => exact definedOnly_enterAt hown "$main_end" 0 true
  | some s =>
    rw [enter]
    split
    · exact definedOnly_enterAt hown s.endLabel 0 true
    · cases htype : s.type with
      | procedure name result params builtin? =>
        exact definedOnly_enterAt hown s.endLabel params.length false
      | _ => rfl

/-- The label at the end is defined when the procedure is closed.  Which one it is was noted when
the procedure was entered. -/
theorem definedOnly_exit {c : Compiler} (hown : c.MayDefine c.exitLabel?.toList)
    (procedure? : Option Decl) :
    c.DefinedOnly c.exitLabel?.toList none (exit procedure? c) := by
  have htake : c.DefinedOnly [] none (takeExitLabel procedure? c) := by
    have hadds (slots : List (List Word)) :
        Adds [] c { c with exitLabel? := none, pendingLengths := slots } := .of_eq hown rfl rfl
    unfold takeExitLabel
    split
    · rfl
    · split
      · exact ⟨hadds [], rfl⟩
      · split
        · exact ⟨hadds [], rfl⟩
        · rfl
  refine htake.bind fun label c' hrun _ _ => ?_
  -- the label that was taken is the one that was noted, and so it is free
  obtain ⟨hlabel, rfl⟩ := takeExitLabel_eq_ok hrun
  rw [hlabel] at hown ⊢
  exact Compile.DefinesOnly.command (.exit label) _ ⟨hown.free, hown.known, hown.fresh⟩

/-! ### Requests -/

/-- The labels that a request defines, apart from those that it makes up. -/
def Request.defines (c : Compiler) : Request → List String
  | define label => [label]
  | enter procedure? => [(entryLabels procedure?).1]
  | exit _ => c.exitLabel?.toList
  | _ => []

/-- The label at the end of the procedure that is open after a request. -/
def Request.exitLabel? (c : Compiler) : Request → Option String
  | enter procedure? => some (entryLabels procedure?).2
  | exit _ => none
  | _ => c.exitLabel?

/-- **A request defines its own labels and those that it makes up**, and it does not find any of
them taken.  For constructs this follows from the steps that they are composed of. -/
theorem Request.definedOnly {c : Compiler} (r : Request) (hown : c.MayDefine (r.defines c)) :
    c.DefinedOnly (r.defines c) (r.exitLabel? c) (r.run c) := by
  have hΦ : Compile.Compositional fun τ _ x => Compile.DefinesOnly τ.labels x :=
    Compile.DefinesOnly.compositional
  -- the answer of a request has nothing to do with labels
  have answer {α : Type} {x : Compile α} {own : List String} {exit? : Option String}
      {f : α → Answer} (hx : c.DefinedOnly own exit? (x c)) :
      c.DefinedOnly own exit? ((x >>= fun v => Pure.pure (f v)) c) := by
    have hends := hx.bind fun v c' _ hadds hexit =>
      (show c'.DefinedOnly [] exit? ((Pure.pure (f v) : Compile Answer) c') from
        ⟨.of_eq (.nil hadds.fresh) rfl rfl, hexit⟩)
    rwa [List.append_nil] at hends
  cases r with
  | newLabel =>
    have hnew : c.DefinedOnly [] c.exitLabel? (Compiler.newLabel c) :=
      ⟨⟨Nat.le_succ _, fun n hn => hown.fresh n (Nat.le_of_succ_le hn), fun _ _ _ => rfl⟩, rfl⟩
    exact answer hnew
  | define label => exact answer (hΦ.command (.define label) c hown)
  | jump label => exact answer (hΦ.command (.jump label) c hown)
  | loadValue x => exact answer (hΦ.loadValue x c hown)
  | loadAddress x => exact answer (hΦ.loadValue x c hown)
  | allocVariable s => exact answer (hΦ.allocVariable s c hown)
  | construct k span inHand => exact answer (Compile.DefinesOnly.construct k span inHand c hown)
  | enter procedure? => exact answer (definedOnly_enter hown)
  | exit procedure? => exact answer (definedOnly_exit hown procedure?)
  | returnFrom => exact answer (hΦ.returnFrom c hown)
  | writeString literal => exact answer (hΦ.assembled.writeText _ c hown)

/-! ### Sessions -/

/-- The labels still to be made up are free, and the open procedure does not end at one.  Otherwise
the end of the procedure would define a label before it is made up. -/
structure MadeUpFree (c : Compiler) : Prop where
  fresh : c.Fresh
  exitLabel : ∀ label n, c.exitLabel? = some label → label ≠ madeUp n

/-- A label that is defined has been made up, or could not be.  A caller who defines `L7` out of
nowhere may take a label away from the compiler. -/
def Exchange.TakesLabels (e : Exchange) : Prop :=
  ∀ n, e.request = .define (madeUp n) → n < e.before.labelCount

/-- A procedure that was entered had a free label. -/
theorem undefined_of_enter {procedure? : Option Decl} {c c' : Compiler} {u : Unit}
    (h : enter procedure? c = .ok u c') :
    c.assembler.labels.address? (entryLabels procedure?).1 = none := by
  have hat {label endLabel : String} {params : Nat} {isMain : Bool}
      (h : enterAt label endLabel params isMain c = .ok u c') :
      c.assembler.labels.address? label = none := by
    obtain ⟨_, c₁, hfirst, -⟩ := Action.bind_eq_ok.mp h
    obtain ⟨a, henter, -⟩ := assemble_eq_ok.mp hfirst
    exact (enter_eq_ok henter).2.2.1
  cases procedure? with
  | none => exact hat h
  | some s =>
    rw [enter] at h
    split at h
    · exact hat h
    · cases htype : s.type with
      | procedure name result params builtin? =>
        rw [htype] at h
        exact hat h
      | _ =>
        rw [htype] at h
        cases h

/-- The labels that a request has defined were free, since the request was carried out. -/
theorem Exchange.IsSound.mayDefine {e : Exchange} (h : e.IsSound) (hlabels : e.TakesLabels)
    (hmadeUp : e.before.MadeUpFree) : e.before.MayDefine (e.request.defines e.before) := by
  obtain ⟨c, r, answer, c'⟩ := e
  -- three requests define a label that the caller knows of
  cases r with
  | define label =>
    obtain ⟨_, c₁, hdefine, -⟩ := Action.bind_eq_ok.mp h
    obtain ⟨a, haction, -⟩ := assemble_eq_ok.mp hdefine
    exact .singleton hmadeUp.fresh (withLabel_of_define haction).1
      fun n hn => hlabels n (congrArg Request.define hn)
  | enter procedure? =>
    obtain ⟨_, c₁, henter, -⟩ := Action.bind_eq_ok.mp h
    exact .singleton hmadeUp.fresh (undefined_of_enter henter)
      fun n hn => absurd hn (entryLabels_ne_madeUp procedure? n).1
  | exit procedure? =>
    obtain ⟨_, c₁, hexit, -⟩ := Action.bind_eq_ok.mp h
    obtain ⟨label, c₂, htake, hclose⟩ := Action.bind_eq_ok.mp hexit
    obtain ⟨hlabel, rfl⟩ := takeExitLabel_eq_ok htake
    obtain ⟨a, haction, -⟩ := assemble_eq_ok.mp hclose
    obtain ⟨p, code, -, -, -, hfree, -⟩ := exit_eq_ok haction
    show c.MayDefine c.exitLabel?.toList
    rw [hlabel]
    exact .singleton hmadeUp.fresh hfree fun n hn => absurd hn (hmadeUp.exitLabel label n hlabel)
  | _ => exact .nil hmadeUp.fresh

/-- A request leaves the labels to be made up free. -/
theorem Exchange.IsSound.madeUpFree {e : Exchange} (h : e.IsSound) (hlabels : e.TakesLabels)
    (hmadeUp : e.before.MadeUpFree) : e.after.MadeUpFree := by
  have hends := e.request.definedOnly (h.mayDefine hlabels hmadeUp)
  rw [h] at hends
  refine ⟨hends.1.fresh, fun label n hlabel => ?_⟩
  rw [hends.2] at hlabel
  obtain ⟨c, r, answer, c'⟩ := e
  cases r with
  | enter procedure? =>
    obtain rfl := Option.some.inj hlabel
    exact (entryLabels_ne_madeUp procedure? n).2
  | exit procedure? => cases hlabel
  | _ => exact hmadeUp.exitLabel label n hlabel

/-- **Labels are free until they are made up.**  By induction on the session, from what each request
leaves. -/
theorem madeUpFree_of_session {rs : List Request} {log : List Exchange} {c c' : Compiler}
    (h : session rs c = .ok log c') (hlabels : ∀ e ∈ log, e.TakesLabels) (hmadeUp : c.MadeUpFree) :
    c'.MadeUpFree := by
  induction rs generalizing c log with
  | nil =>
    obtain ⟨-, rfl⟩ := EStateM.Result.ok.inj h
    exact hmadeUp
  | cons r rs ih =>
    obtain ⟨answer, c₁, rest, hrun, hrest, rfl⟩ := session_cons.mp h
    obtain ⟨hfirst, hlater⟩ := List.forall_mem_cons.mp hlabels
    have hsound : Exchange.IsSound ⟨c, r, answer, c₁⟩ := hrun
    exact ih hrest hlater (hsound.madeUpFree hfirst hmadeUp)

end Compiler
end MJ
