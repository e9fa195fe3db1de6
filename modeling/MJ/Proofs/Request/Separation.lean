import MJ.Proofs.Request.Labels

/-!
# Labels do not collide

Starts and ends of procedures and the labels that are made up all have different labels.  So a
caller who enters each procedure once, and defines only labels that were made up for it, each once,
never finds a label taken; neither do the constructs that define labels of their own.

## Main definitions

* `Compiler.handedOut` — the labels that were made up for the caller.
* `Compiler.KeepsApart` — what the caller has to keep to.
* `Compiler.Separate` — which labels are free then.

## Main results

* `Compiler.Separate.mayDefine` — the labels of the next request are free.
* `Compiler.Separate.step` — what one request preserves.
* `Compiler.separate_of_session` — what a session preserves.
* `Compiler.labels_never_taken` — **labels never collide.**
-/

namespace MJ
namespace Compiler

/-! ### Rules for callers -/

/-- The label that was made up for the caller. -/
def Exchange.newLabel? (e : Exchange) : Option String :=
  match e.request, e.answer with
  | .newLabel, .label label => some label
  | _, _ => none

/-- The labels that were made up for the caller, in order. -/
def handedOut (log : List Exchange) : List String := log.filterMap Exchange.newLabel?

/-- The procedure is not entered; a main procedure without a name counts as one.  Procedures are
told apart by their keys, as their labels are. -/
def NotEntered (log : List Exchange) (procedure? : Option Decl) : Prop :=
  ∀ e ∈ log, ∀ other?, e.request = .enter other? →
    other?.map Decl.key ≠ procedure?.map Decl.key

/-- A request keeps to the rules, after the exchanges before it: each procedure is entered once, and
each label that is defined was made up for the caller and is defined once. -/
structure KeepsApart (known : List Exchange) (r : Request) : Prop where
  enters : ∀ procedure?, r = .enter procedure? → NotEntered known procedure?
  defines : ∀ label, r = .define label →
    label ∈ handedOut known ∧ ∀ e ∈ known, e.request ≠ .define label

/-! ### Free labels -/

/-- Which labels are free, after exchanges that keep to the rules.  Every label that a request may
define next is among them, and this is the invariant of such sessions. -/
structure Separate (known : List Exchange) (c : Compiler) : Prop where
  /-- The labels still to be made up. -/
  fresh : c.Fresh
  /-- Labels were made up for the caller in order. -/
  madeUp : ∀ label ∈ handedOut known, ∃ n, n < c.labelCount ∧ label = madeUp n
  /-- None was handed out twice. -/
  nodup : (handedOut known).Nodup
  /-- Those that the caller has not defined. -/
  waiting : ∀ label ∈ handedOut known, (∀ e ∈ known, e.request ≠ .define label) →
    c.assembler.labels.address? label = none
  /-- Those of procedures that were not entered. -/
  notEntered : ∀ procedure?, NotEntered known procedure? →
    c.assembler.labels.address? (entryLabels procedure?).1 = none ∧
      c.assembler.labels.address? (entryLabels procedure?).2 = none
  /-- The one at the end of the open procedure. -/
  exitLabel : ∀ label, c.exitLabel? = some label →
    c.assembler.labels.address? label = none ∧
      ∃ e ∈ known, ∃ procedure?, e.request = .enter procedure? ∧ label = (entryLabels procedure?).2

theorem separate_empty : Separate [] .empty where
  fresh _ _ := rfl
  madeUp _ h := absurd h List.not_mem_nil
  nodup := List.nodup_nil
  waiting _ _ _ := rfl
  notEntered _ _ := ⟨rfl, rfl⟩
  exitLabel _ h := nomatch h

variable {known : List Exchange} {c c' : Compiler} {r : Request}

/-- The open procedure does not end at a label that was made up. -/
theorem Separate.exitLabel_ne_madeUp (h : Separate known c) {label : String}
    (hlabel : c.exitLabel? = some label) (n : Nat) : label ≠ Compiler.madeUp n := by
  obtain ⟨-, e, -, procedure?, -, rfl⟩ := h.exitLabel label hlabel
  exact (entryLabels_ne_madeUp procedure? n).2

/-- The labels of a request that keeps to the rules are free.  Each of the three requests that
define labels has a field of the invariant for it. -/
theorem Separate.mayDefine (h : Separate known c) (hr : KeepsApart known r) :
    c.MayDefine (r.defines c) := by
  cases r with
  | define label =>
    obtain ⟨hmem, hnew⟩ := hr.defines label rfl
    obtain ⟨m, hm, rfl⟩ := h.madeUp label hmem
    exact .singleton h.fresh (h.waiting _ hmem hnew) fun n hn => madeUp_inj hn ▸ hm
  | enter procedure? =>
    exact .singleton h.fresh (h.notEntered procedure? (hr.enters procedure? rfl)).1
      fun n hn => absurd hn (entryLabels_ne_madeUp procedure? n).1
  | exit procedure? =>
    show c.MayDefine c.exitLabel?.toList
    cases hlabel : c.exitLabel? with
    | none => exact .nil h.fresh
    | some label =>
      exact .singleton h.fresh (h.exitLabel label hlabel).1
        fun n hn => absurd hn (h.exitLabel_ne_madeUp hlabel n)
  | _ => exact .nil h.fresh

/-- A request finds no label taken. -/
theorem Separate.isLabelTaken (h : Separate known c) (hr : KeepsApart known r) {m : Misuse}
    (hrun : r.run c = .error m c') : m.isLabelTaken = false := by
  have hends := r.definedOnly (h.mayDefine hr)
  rw [hrun] at hends
  exact hends

/-- A label that is made up for the caller is the next one. -/
theorem Exchange.IsSound.newLabel? {e : Exchange} (h : e.IsSound) {label : String}
    (hlabel : e.newLabel? = some label) :
    label = madeUp e.before.labelCount ∧
      e.after = { e.before with labelCount := e.before.labelCount + 1 } := by
  obtain ⟨c, r, answer, c'⟩ := e
  cases r with
  | newLabel =>
    have hrun : (.ok (.label (madeUp c.labelCount)) { c with labelCount := c.labelCount + 1 } :
        EStateM.Result Misuse Compiler Answer) = .ok answer c' := h
    obtain ⟨rfl, rfl⟩ := EStateM.Result.ok.inj hrun
    exact ⟨(Option.some.inj hlabel).symm, rfl⟩
  | _ => cases hlabel

/-! ### Sessions -/

/-- Labels that a request does not define. -/
theorem Request.not_mem_defines {label : String} (hdefine : r ≠ .define label)
    (henter : ∀ procedure?, r = .enter procedure? → label ≠ (entryLabels procedure?).1)
    (hexit : c.exitLabel? ≠ some label) : label ∉ r.defines c := by
  intro hmem
  cases r with
  | define other => exact hdefine (congrArg Request.define (List.mem_singleton.mp hmem).symm)
  | enter procedure? => exact henter procedure? rfl (List.mem_singleton.mp hmem)
  | exit procedure? => exact hexit (Option.mem_toList.mp hmem)
  | _ => exact List.not_mem_nil hmem

theorem handedOut_append (log : List Exchange) (e : Exchange) :
    handedOut (log ++ [e]) = handedOut log ++ e.newLabel?.toList := by
  rw [handedOut, List.filterMap_append]
  cases h : e.newLabel? with
  | none => rw [List.filterMap_cons_none h]; rfl
  | some label => rw [List.filterMap_cons_some h]; rfl

theorem NotEntered.left {log : List Exchange} {e : Exchange} {procedure? : Option Decl}
    (h : NotEntered (log ++ [e]) procedure?) : NotEntered log procedure? :=
  fun e' he' => h e' (List.mem_append_left _ he')

/-- The labels of procedures that are still not entered are left alone.  A request could define them
in three ways, each of which is excluded by the form of the label or by the rules. -/
theorem Separate.notEntered_step (h : Separate known c) (hr : KeepsApart known r)
    (hadds : Adds (r.defines c) c c') {procedure? : Option Decl}
    (hknown : NotEntered known procedure?)
    (hnot : ∀ other?, r = .enter other? → other?.map Decl.key ≠ procedure?.map Decl.key) :
    c'.assembler.labels.address? (entryLabels procedure?).1 = none ∧
      c'.assembler.labels.address? (entryLabels procedure?).2 = none := by
  have hne := entryLabels_ne_madeUp procedure?
  have hfree := h.notEntered procedure? hknown
  -- what the caller defines was made up
  have hdefine : ∀ label, (∀ n, label ≠ Compiler.madeUp n) → r ≠ .define label := by
    rintro label hlabel rfl
    obtain ⟨n, -, hn⟩ := h.madeUp label (hr.defines label rfl).1
    exact hlabel n hn
  -- the open procedure was entered
  have hexit : ∀ label, c.exitLabel? = some label →
      label ≠ (entryLabels procedure?).1 ∧ label ≠ (entryLabels procedure?).2 := by
    intro label hlabel
    obtain ⟨-, e, he, other?, hrequest, rfl⟩ := h.exitLabel label hlabel
    exact ⟨(fst_entryLabels_ne_snd procedure? other?).symm,
      fun heq => hknown e he other? hrequest (entryLabels_inj (Or.inr heq))⟩
  constructor
  · rw [hadds.kept _ (Request.not_mem_defines (hdefine _ fun n => (hne n).1) ?_ ?_)
      fun n hn => absurd hn (hne n).1]
    · exact hfree.1
    · exact fun other? hother heq => hnot other? hother (entryLabels_inj (Or.inl heq)).symm
    · exact fun hlabel => (hexit _ hlabel).1 rfl
  · rw [hadds.kept _ (Request.not_mem_defines (hdefine _ fun n => (hne n).2) ?_ ?_)
      fun n hn => absurd hn (hne n).2]
    · exact hfree.2
    · exact fun other? _ => (fst_entryLabels_ne_snd other? procedure?).symm
    · exact fun hlabel => (hexit _ hlabel).2 rfl

/-- A label that was made up is left alone, unless the caller defines it: no procedure starts or
ends at it. -/
theorem Separate.madeUp_step (h : Separate known c) (hadds : Adds (r.defines c) c c') {n : Nat}
    (hn : n < c.labelCount) (hdefine : r ≠ .define (Compiler.madeUp n)) :
    c'.assembler.labels.address? (Compiler.madeUp n)
      = c.assembler.labels.address? (Compiler.madeUp n) := by
  refine hadds.kept _ (Request.not_mem_defines hdefine ?_ ?_) fun m hm => madeUp_inj hm ▸ hn
  · exact fun procedure? _ => (entryLabels_ne_madeUp procedure? n).1.symm
  · exact fun hlabel => h.exitLabel_ne_madeUp hlabel n rfl

/-- The label at the end of the procedure that is open afterwards is free, so that the procedure can
be closed. -/
theorem Separate.exitLabel_step (h : Separate known c) (hr : KeepsApart known r)
    (hadds : Adds (r.defines c) c c') {label : String} (hlabel : r.exitLabel? c = some label) :
    c'.assembler.labels.address? label = none := by
  -- a label that was open before is not defined by any other request
  have hkept (hopen : c.exitLabel? = some label) (hmem : label ∉ r.defines c) :
      c'.assembler.labels.address? label = none := by
    rw [hadds.kept label hmem fun n hn => absurd hn (h.exitLabel_ne_madeUp hopen n)]
    exact (h.exitLabel label hopen).1
  cases r with
  | enter procedure? =>
    obtain rfl := Option.some.inj hlabel
    have hmem : (entryLabels procedure?).2 ∉ [(entryLabels procedure?).1] := fun hmem =>
      fst_entryLabels_ne_snd procedure? procedure? (List.mem_singleton.mp hmem).symm
    rw [hadds.kept _ hmem fun n hn => absurd hn (entryLabels_ne_madeUp procedure? n).2]
    exact (h.notEntered procedure? (hr.enters procedure? rfl)).2
  | exit procedure? => cases hlabel
  | define other =>
    refine hkept hlabel fun hmem => ?_
    obtain ⟨n, -, hn⟩ := h.madeUp other (hr.defines other rfl).1
    exact h.exitLabel_ne_madeUp hlabel n ((List.mem_singleton.mp hmem).trans hn)
  | _ => exact hkept hlabel List.not_mem_nil

/-- The procedure that is open after a request is open before it, or is entered. -/
theorem Request.exitLabel?_cases {label : String} (hlabel : r.exitLabel? c = some label) :
    c.exitLabel? = some label ∨
      ∃ procedure?, r = .enter procedure? ∧ label = (entryLabels procedure?).2 := by
  cases r with
  | enter procedure? => exact Or.inr ⟨procedure?, rfl, (Option.some.inj hlabel).symm⟩
  | exit procedure? => cases hlabel
  | _ => exact Or.inl hlabel

/-- A request that keeps to the rules leaves the right labels free.  One field of the invariant
after the other, from what the request has defined. -/
theorem Separate.step {e : Exchange} (h : Separate known e.before)
    (hr : KeepsApart known e.request) (hsound : e.IsSound) :
    Separate (known ++ [e]) e.after := by
  have hends := e.request.definedOnly (h.mayDefine hr)
  rw [hsound] at hends
  obtain ⟨hadds, hexit⟩ := hends
  have hmem : e ∈ known ++ [e] := List.mem_append_right _ List.mem_cons_self
  constructor
  case fresh => exact hadds.fresh
  case madeUp =>
    intro label hlabel
    rw [handedOut_append] at hlabel
    rcases List.mem_append.mp hlabel with hold | hnew
    · obtain ⟨n, hn, rfl⟩ := h.madeUp label hold
      exact ⟨n, Nat.lt_of_lt_of_le hn hadds.count, rfl⟩
    · obtain ⟨rfl, hafter⟩ := hsound.newLabel? (Option.mem_toList.mp hnew)
      exact ⟨_, hafter ▸ Nat.lt_succ_self _, rfl⟩
  case nodup =>
    -- a label that is made up now has a greater number than all before it
    rw [handedOut_append]
    refine List.nodup_append.mpr ⟨h.nodup, ?_, ?_⟩
    · cases e.newLabel? with
      | none => exact List.nodup_nil
      | some label => exact List.pairwise_singleton _ _
    · rintro label hold other hnew rfl
      obtain ⟨n, hn, rfl⟩ := h.madeUp label hold
      obtain ⟨hlabel, -⟩ := hsound.newLabel? (Option.mem_toList.mp hnew)
      exact Nat.lt_irrefl _ (madeUp_inj hlabel ▸ hn)
  case waiting =>
    intro label hlabel hdefine
    rw [handedOut_append] at hlabel
    rcases List.mem_append.mp hlabel with hold | hnew
    · obtain ⟨n, hn, rfl⟩ := h.madeUp label hold
      rw [h.madeUp_step hadds hn (hdefine e hmem)]
      exact h.waiting _ hold fun e' he' => hdefine e' (List.mem_append_left _ he')
    · obtain ⟨rfl, hafter⟩ := hsound.newLabel? (Option.mem_toList.mp hnew)
      rw [hafter]
      exact h.fresh _ (Nat.le_refl _)
  case notEntered =>
    intro procedure? hnot
    exact h.notEntered_step hr hadds hnot.left fun other? hother => hnot e hmem other? hother
  case exitLabel =>
    intro label hlabel
    rw [hexit] at hlabel
    refine ⟨h.exitLabel_step hr hadds hlabel, ?_⟩
    rcases Request.exitLabel?_cases hlabel with hopen | ⟨procedure?, hrequest, rfl⟩
    · obtain ⟨-, e', he', hentered⟩ := h.exitLabel label hopen
      exact ⟨e', List.mem_append_left _ he', hentered⟩
    · exact ⟨e, hmem, procedure?, hrequest, rfl⟩

/-- After a session that keeps to the rules the right labels are free. -/
theorem separate_of_session {rs : List Request} {log : List Exchange}
    (h : session rs .empty = .ok log c)
    (hrules : ∀ earlier e later, log = earlier ++ e :: later → KeepsApart earlier e.request) :
    Separate log c := by
  have hstep : ∀ (known : List Exchange) (e : Exchange), Separate known e.before →
      KeepsApart known e.request → e.IsSound → Separate (known ++ [e]) e.after :=
    fun _ _ hseparate hr hsound => hseparate.step hr hsound
  have hend : Separate ([] ++ log) c := session_induction hstep h hrules separate_empty
  exact hend

/-- **Labels never collide.**  Starts and ends of procedures have the same label only if the names
and the numbers of the procedures are the same; a start has never the label of an end, and neither
has that of a main procedure without a name or one that is made up; and all labels that are made up
are different.  So in a session in which each procedure is entered at most once, the main one
included, and the caller defines only labels that were made up for it, each at most once, no request
fails because a label is taken, and neither does the end of the program. -/
theorem labels_never_taken :
    (∀ s t : Decl, (s.label = t.label ↔ s.name = t.name ∧ s.id = t.id) ∧
      (s.endLabel = t.endLabel ↔ s.name = t.name ∧ s.id = t.id) ∧ s.label ≠ t.endLabel) ∧
    (∀ (s : Decl) (n : Nat), ∀ other ∈ ["$main", "$main_end", madeUp n],
      s.label ≠ other ∧ s.endLabel ≠ other) ∧
    (∀ m n, madeUp m ≠ "$main" ∧ madeUp m ≠ "$main_end" ∧ (madeUp m = madeUp n ↔ m = n)) ∧
    ∀ rs log c, session rs .empty = .ok log c →
      (∀ earlier e later, log = earlier ++ e :: later → KeepsApart earlier e.request) →
      (handedOut log).Nodup ∧ (∀ label ∈ handedOut log, ∃ n, label = madeUp n) ∧
      (∀ r, KeepsApart log r → ∀ misuse c', r.run c = .error misuse c' →
        ∀ label address, misuse ≠ .labelTaken label address) ∧
      ∀ misuse a, Assembler.finish c.assembler = .error misuse a →
        ∀ label address, misuse ≠ .labelTaken label address := by
  have hmain (n : Nat) := entryLabels_ne_madeUp none n
  have hspared {m : Misuse} (hm : m.isLabelTaken = false) (label : String) (address : Nat) :
      m ≠ .labelTaken label address := by
    rintro rfl
    cases hm
  refine ⟨fun s t => ⟨?_, ?_, s.label_ne_endLabel t⟩, ?_, ?_, ?_⟩
  · rw [Decl.label_inj, Decl.key_inj]
  · rw [Decl.endLabel_inj, Decl.key_inj]
  · intro s n other hother
    -- labels of procedures have a character that the others lack
    have hhash : '#' ∉ other.toList := by
      simp only [List.mem_cons, List.not_mem_nil, or_false] at hother
      rcases hother with rfl | rfl | rfl
      · decide
      · decide
      · exact not_mem_madeUp (by decide) rfl
    exact ⟨s.label_ne hhash, s.endLabel_ne hhash⟩
  · exact fun m n => ⟨(hmain m).1.symm, (hmain m).2.symm, madeUp_inj, congrArg madeUp⟩
  · intro rs log c hsession hrules
    have hseparate := separate_of_session hsession hrules
    refine ⟨hseparate.nodup, fun label hlabel => ?_, fun r hr misuse c' hrun =>
      hspared (hseparate.isLabelTaken hr hrun), fun misuse a hfinish => ?_⟩
    · obtain ⟨n, -, hn⟩ := hseparate.madeUp label hlabel
      exact ⟨n, hn⟩
    · have hends := Assembler.Command.finish.definesOnly_answering rfl c.assembler (.nil _)
      rw [hfinish] at hends
      exact hspared hends

/-- A procedure whose name looks like labels. -/
def oddlyNamed : Decl :=
  ⟨"L0#1_end", .procedure, .procedure "L0#1_end" .void [] none, true, false, none, 7⟩

/-- The compilation in which the procedure is open and one label was made up. -/
def inOddlyNamed : Compiler :=
  { Compiler.empty with
    assembler := {
      code := ⟨#[.known 48, .known 0, .hole]⟩
      statics := .empty
      labels := ⟨[("L0#1_end#7", 0)], []⟩
      procedure? := some ⟨"L0#1_end#7", 0, 2, 0⟩
      main? := none }
    labelCount := 1
    exitLabel? := some "L0#1_end#7_end" }

/-- A label is made up before a procedure with such a name is entered, and defined inside of it. -/
theorem labels_never_taken_oddly_named : ∃ log,
    session [.newLabel, .enter (some oddlyNamed)] .empty = .ok log inOddlyNamed ∧
    (handedOut log).Nodup ∧ KeepsApart log (.define "L0") ∧
    ∀ misuse c', (Request.define "L0").run inOddlyNamed = .error misuse c' →
      ∀ label address, misuse ≠ .labelTaken label address := by
  let c₁ : Compiler := { Compiler.empty with labelCount := 1 }
  let first : Exchange := ⟨.empty, .newLabel, .label "L0", c₁⟩
  let second : Exchange := ⟨c₁, .enter (some oddlyNamed), .done, inOddlyNamed⟩
  have henter : Compiler.enter (some oddlyNamed) c₁ = .ok () inOddlyNamed := by decide +kernel
  have hsession : session [.newLabel, .enter (some oddlyNamed)] .empty
      = .ok [first, second] inOddlyNamed := by
    have hnew : Request.newLabel.run .empty = .ok (.label "L0") c₁ := rfl
    have hopen : (Request.enter (some oddlyNamed)).run c₁ = .ok .done inOddlyNamed :=
      Action.bind_eq_ok.mpr ⟨(), inOddlyNamed, henter, rfl⟩
    exact session_of_run hnew (session_of_run hopen (session_nil inOddlyNamed))
  have hrules : ∀ earlier e later, [first, second] = earlier ++ e :: later →
      KeepsApart earlier e.request := by
    intro earlier e later hsplit
    rcases earlier with _ | ⟨e₁, _ | ⟨e₂, earlier⟩⟩
    · obtain ⟨rfl, -⟩ := List.cons.inj hsplit
      exact ⟨fun _ => Request.noConfusion, fun _ => Request.noConfusion⟩
    · obtain ⟨rfl, htail⟩ := List.cons.inj hsplit
      obtain ⟨rfl, -⟩ := List.cons.inj htail
      refine ⟨fun procedure? _ e he other? hother => ?_, fun _ => Request.noConfusion⟩
      rw [List.mem_singleton.mp he] at hother
      cases hother
    · have hlength := congrArg List.length hsplit
      simp only [List.length_cons, List.length_nil, List.length_append] at hlength
      omega
  have hdefine : KeepsApart [first, second] (.define "L0") := by
    refine ⟨fun _ => Request.noConfusion, fun label h => ?_⟩
    obtain rfl := Request.define.inj h
    refine ⟨List.mem_cons_self, fun e he => ?_⟩
    simp only [List.mem_cons, List.not_mem_nil, or_false] at he
    rcases he with rfl | rfl
    · exact Request.noConfusion
    · exact Request.noConfusion
  obtain ⟨hnodup, -, htaken, -⟩ := labels_never_taken.2.2.2 _ _ _ hsession hrules
  exact ⟨_, hsession, hnodup, hdefine, htaken _ hdefine⟩

end Compiler
end MJ
