import MJ.Proofs.Statement.Placement

/-!
# The code of statements does what statements do

A statement whose code stands in an image is executed by the machine: it prints the same bytes,
leaves the same values in the variables and the stack as it was, or divides by zero.

## Main definitions

* `Target.Separates` — the variables have words of their own, before all texts.
* `Target.Keeps` — the machine has the values of the variables and the texts in its memory.
* `Target.Ends` — the machine arrives after a piece of code, or divides by zero.

## Main results

* `Stmt.Exec.ends` — **what a statement does, its code does.**
-/

namespace MJ

open Machine

namespace Machine

/-! ### Arriving at an address -/

/-- What stays and what changes when the machine arrives at an address and has printed bytes.  The
variables are left out; what they contain is said by `Target.Keeps`. -/
structure State.Arrives (s s' : State) (next : Nat) (out : List UInt8) : Prop where
  pc_eq : s'.pc = next
  stack_eq : s'.stack = s.stack
  returns_eq : s'.returns = s.returns
  frames_eq : s'.frames.size = s.frames.size
  output_eq : s'.output.toList = s.output.toList ++ out

theorem State.arrives_moved (s : State) (next : Nat) : s.Arrives (s.moved next s.stack) next [] :=
  ⟨rfl, rfl, rfl, rfl, (List.append_nil _).symm⟩

/-- A word is popped and stored. -/
theorem State.arrives_setWord {s : State} {r : Region} {n m : Nat} {v : Word}
    (h : (s.word? r n).isSome = true) (stack : Array Word) (next : Nat) :
    s.Arrives (((s.moved m stack).setWord r n v).moved next s.stack) next [] := by
  cases r with
  | stack =>
    obtain ⟨w, hw⟩ := Option.isSome_iff_exists.mp h
    obtain ⟨frame, hframe, -⟩ := Option.bind_eq_some_iff.mp hw
    obtain ⟨frames, hframes⟩ := Array.back?_eq_some_iff.mp hframe
    refine ⟨rfl, rfl, rfl, ?_, (List.append_nil _).symm⟩
    show (s.frames.pop.push _).size = s.frames.size
    rw [hframes, Array.pop_push, Array.size_push, Array.size_push]
  | static => exact ⟨rfl, rfl, rfl, rfl, (List.append_nil _).symm⟩
  | heap => cases h

theorem State.Arrives.trans {s s₁ s₂ : State} {m next : Nat} {out₁ out₂ : List UInt8}
    (h : s.Arrives s₁ m out₁) (h' : s₁.Arrives s₂ next out₂) :
    s.Arrives s₂ next (out₁ ++ out₂) where
  pc_eq := h'.pc_eq
  stack_eq := h'.stack_eq.trans h.stack_eq
  returns_eq := h'.returns_eq.trans h.returns_eq
  frames_eq := h'.frames_eq.trans h.frames_eq
  output_eq := by rw [h'.output_eq, h.output_eq, List.append_assoc]

end Machine

namespace Target

variable {V : Scalar → Type}

/-- The variables have words of their own, and those of the static segment come before all
texts. -/
structure Separates (g : Target) (decl : (t : Scalar) → V t → Decl) : Prop where
  placed : ∀ t x, (decl t x).Placed t
  distinct : ∀ {t u : Scalar} {x : V t} {y : V u}, (⟨u, y⟩ : Sigma V) ≠ ⟨t, x⟩ →
    ((decl u y).region, (decl u y).slot) ≠ ((decl t x).region, (decl t x).slot)
  below : ∀ t x, (decl t x).isGlobal = true → (decl t x).slot < g.limit

/-- The machine has the values of the variables in its memory, and the texts.  This is the invariant
of a run between two statements. -/
structure Keeps (g : Target) (decl : (t : Scalar) → V t → Decl) (env : Env V) (s : State) :
    Prop where
  stores : s.Stores decl env
  size_eq : s.statics.size = g.image.data.length
  texts : ∀ k, g.limit * wordSize ≤ k → s.statics[k]? = g.image.data[k]?

/-- The machine arrives after a piece of code, having printed bytes, or it divides by zero, having
printed bytes. -/
def Ends (g : Target) (decl : (t : Scalar) → V t → Decl) (s : State) (next : Nat)
    (out : List UInt8) : Option (Env V) → Prop
  | some env => ∃ s', Reaches g.code s s' ∧ s.Arrives s' next out ∧ g.Keeps decl env s'
  | none => ∃ s', Faults g.code .divisionByZero s s' ∧ s'.output.toList = s.output.toList ++ out

section Keeps

variable {g : Target} {decl : (t : Scalar) → V t → Decl} {env : Env V} {s s' : State}

theorem Keeps.congr (h : g.Keeps decl env s) (hframes : s'.frames = s.frames)
    (hstatics : s'.statics = s.statics) : g.Keeps decl env s' where
  stores t x := by
    rw [State.read?, word?_congr hframes hstatics]
    exact h.stores t x
  size_eq := hstatics ▸ h.size_eq
  texts k hk := hstatics ▸ h.texts k hk

theorem Keeps.moved (h : g.Keeps decl env s) (pc : Nat) (stack : Array Word) :
    g.Keeps decl env (s.moved pc stack) := h.congr rfl rfl

/-- A variable can be stored, since its place exists. -/
theorem Keeps.isSome_word? (h : g.Keeps decl env s) {t : Scalar} (x : V t) :
    (s.word? (decl t x).region (decl t x).slot).isSome = true :=
  Option.isSome_iff_exists.mpr ⟨_, h.stores t x⟩

/-- An assignment in memory changes one variable: the others have other words, and the texts come
after all of them. -/
theorem Keeps.setWord [∀ t, DecidableEq (V t)] (hdecl : g.Separates decl)
    (h : g.Keeps decl env s) {t : Scalar} (x : V t) (v : t.Value) :
    g.Keeps decl (env.set x v) (s.setWord (decl t x).region (decl t x).slot (t.word v)) where
  stores u y := by
    have hsome := h.isSome_word? x
    rw [State.read?]
    by_cases hsame : (⟨u, y⟩ : Sigma V) = ⟨t, x⟩
    · cases hsame
      rw [Env.set_self, word?_setWord_self hsome]
    · rw [Env.set_of_ne env v hsame, word?_setWord_of_ne _ hsome (hdecl.distinct hsame)]
      exact h.stores u y
  size_eq := (size_statics_setWord _ _ _ _).trans h.size_eq
  texts k hk := by
    -- only a static word could be in the way, and these end where the texts begin
    refine (getElem?_statics_setWord _ fun hstatic => ?_).trans (h.texts k hk)
    have hglobal : (decl t x).isGlobal = true := by
      rw [Decl.region] at hstatic
      split at hstatic
      · assumption
      · cases hstatic
    have hlt := hdecl.below t x hglobal
    rw [wordSize] at hk ⊢
    omega

end Keeps

/-! ### Pieces of code -/

section Ends

variable {g : Target} {decl : (t : Scalar) → V t → Decl} {s s₁ : State} {next m : Nat}
  {out out₁ : List UInt8} {r : Option (Env V)}

/-- Steps before a piece of code count as steps of it. -/
theorem Ends.of_reaches (hreaches : Reaches g.code s s₁) (harrives : s.Arrives s₁ m out₁)
    (h : g.Ends decl s₁ next out r) : g.Ends decl s next (out₁ ++ out) r := by
  cases r with
  | some env =>
    obtain ⟨s', hreaches', harrives', hkeeps⟩ := h
    exact ⟨s', hreaches.trans hreaches', harrives.trans harrives', hkeeps⟩
  | none =>
    obtain ⟨s', hfaults, hout⟩ := h
    refine ⟨s', hreaches.stops hfaults, ?_⟩
    rw [hout, harrives.output_eq, List.append_assoc]

/-- Steps before a piece of code that print nothing. -/
theorem Ends.of_moved (hreaches : Reaches g.code s (s.moved m s.stack))
    (h : g.Ends decl (s.moved m s.stack) next out r) : g.Ends decl s next out r :=
  .of_reaches hreaches (s.arrives_moved m) h

/-- After a division by zero the machine does not go on anywhere. -/
theorem Ends.divided (h : g.Ends decl s m out none) : g.Ends decl s next out none := h

/-- One piece of code after the other.  What is known between them is the address and the values of
the variables, and this is all that the second piece may use. -/
theorem Ends.seq {env : Env V} (h : g.Ends decl s m out₁ (some env))
    (h' : ∀ s₁ : State, s₁.pc = m → g.Keeps decl env s₁ → g.Ends decl s₁ next out r) :
    g.Ends decl s next (out₁ ++ out) r := by
  obtain ⟨s₁, hreaches, harrives, hkeeps⟩ := h
  exact .of_reaches hreaches harrives (h' s₁ harrives.pc_eq hkeeps)

end Ends

section Pieces

variable {g : Target} {decl : (t : Scalar) → V t → Decl} {env : Env V} {s : State} {next : Nat}
  {out : List UInt8} {r : Option (Env V)}

/-- An expression is pushed by its code, which other code follows. -/
theorem pushes (hdecl : g.Separates decl) (hkeeps : g.Keeps decl env s) {t : Scalar}
    {e : Expr V t} {is : List Instruction} (haddressable : e.Addressable decl)
    (h : g.Occupies (e.code decl s.pc ++ is) s.pc next) :
    ∃ m, CodeAt g.code m (Code.ofInstructions is) ∧ next = m + (Code.ofInstructions is).length ∧
      Computes g.code s s.stack m s.stack.push (t.outcome (e.eval env)) := by
  obtain ⟨hcode, hnext, hlt⟩ := h
  rw [Code.ofInstructions_append, List.length_append, ← Nat.add_assoc] at hnext
  rw [Code.ofInstructions_append, codeAt_append] at hcode
  refine ⟨_, hcode.2, hnext, ?_⟩
  have hend := Nat.lt_of_le_of_lt (Nat.le_add_right _ _) (hnext ▸ hlt)
  exact e.computes hdecl.placed haddressable hkeeps.stores hcode.1 hend

/-- A division by zero before anything is printed.  Expressions print nothing, so that this is all
that can go wrong in one. -/
theorem ends_of_faults {stack : Array Word} {pc : Nat}
    (h : Faults g.code .divisionByZero s (s.moved pc stack)) :
    g.Ends decl s next [] none := ⟨_, h, (List.append_nil _).symm⟩

theorem Jumps.reaches {target : Nat} (h : g.Jumps target s.pc next) :
    Reaches g.code s (s.moved target s.stack) := by
  obtain ⟨hlt, hcode, -⟩ := h
  rw [Code.ofInstructions_cons, Code.ofInstructions_nil, List.append_nil] at hcode
  exact reaches_jump hlt hcode

/-- A jump at the end of a piece of code. -/
theorem Ends.jump {k target : Nat} (h : g.Ends decl s k out r) (hjump : g.Jumps target k next) :
    g.Ends decl s target out r := by
  cases r with
  | none => exact h
  | some env =>
    obtain ⟨s', hreaches, harrives, hkeeps⟩ := h
    have hlast := Jumps.reaches (s := s') (harrives.pc_eq.symm ▸ hjump)
    refine ⟨_, hreaches.trans hlast, ?_, hkeeps.moved _ _⟩
    rw [← List.append_nil out]
    exact harrives.trans (s'.arrives_moved target)

section Tests

variable {c : Expr V .bool} {target : Nat} (hdecl : g.Separates decl) (hkeeps : g.Keeps decl env s)
include hdecl hkeeps

/-- A condition that has a value decides where the machine goes on. -/
theorem Tests.reaches (h : g.Tests decl c target s.pc next) {b : Bool} (hc : c.eval env = some b) :
    Reaches g.code s (s.moved (if b then next else target) s.stack) := by
  obtain ⟨haddressable, hlt, hoccupies⟩ := h
  obtain ⟨m, hcode, hnext, hpushes⟩ := pushes hdecl hkeeps haddressable hoccupies
  rw [hc] at hpushes
  simp only [Code.ofInstructions_cons, Code.ofInstructions_nil, List.append_nil, codeAt_append]
    at hcode
  have hconst := reaches_ofConst (s := s.moved m (s.stack.push (boolWord b))) hcode.1
  have hbranch := reaches_branch (s := s.moved (m + 1) ((s.stack.push (boolWord b)).push 0)) rfl hlt
    hcode.2
  refine (Reaches.trans hpushes hconst).trans ?_
  cases b with
  | true => exact hnext ▸ hbranch
  | false => exact hbranch

/-- A condition that divides by zero. -/
theorem Tests.ends (h : g.Tests decl c target s.pc next) (hc : c.eval env = none) (k : Nat) :
    g.Ends decl s k [] none := by
  obtain ⟨haddressable, -, hoccupies⟩ := h
  obtain ⟨m, -, -, hpushes⟩ := pushes hdecl hkeeps haddressable hoccupies
  rw [hc] at hpushes
  obtain ⟨pc, extra, hfaults⟩ := hpushes
  exact ends_of_faults hfaults

/-- One of two pieces of code is executed. -/
theorem Chooses.ends {yes no : Nat → Nat → Prop} (h : g.Chooses decl c yes no s.pc next) {b : Bool}
    (hc : c.eval env = some b)
    (hyes : ∀ m k, b = true → yes m k → g.Ends decl (s.moved m s.stack) k out r)
    (hno : ∀ l, b = false → no l next → g.Ends decl (s.moved l s.stack) next out r) :
    g.Ends decl s next out r := by
  obtain ⟨m, k, l, htests, hyesPlaced, hjumps, hnoPlaced⟩ := h
  have hfirst := htests.reaches hdecl hkeeps hc
  cases b with
  | true => exact .of_moved hfirst ((hyes m k rfl hyesPlaced).jump hjumps)
  | false => exact .of_moved hfirst (hno l rfl hnoPlaced)

end Tests

/-! ### Printing -/

/-- The machine has printed bytes and goes on at an address. -/
theorem ends_of_write (hkeeps : g.Keeps decl env s) {bs : List UInt8}
    (h : Reaches g.code s { s with pc := next, output := s.output ++ bs }) :
    g.Ends decl s next bs (some env) :=
  ⟨_, h, ⟨rfl, rfl, rfl, rfl, Array.toList_appendList⟩, hkeeps.congr rfl rfl⟩

/-- The text at an address in memory ends at its first zero byte, which is the one that was stored
after it. -/
theorem TextAt.stringAt_eq {address : Nat} {text : String} (h : g.TextAt address text)
    (hkeeps : g.Keeps decl env s) : ¬ s.statics.size < address * wordSize ∧
      stringAt s.statics (address * wordSize) (s.statics.size - address * wordSize)
        = Utf8.encode text := by
  obtain ⟨before, after, hdata, hlength⟩ := h.data_eq
  have hsize := hkeeps.size_eq
  rw [hdata, List.length_append, List.length_append, hlength, List.length_cons] at hsize
  refine ⟨by omega, Machine.stringAt_eq h.noNul (fun k hk => ?_) (by omega)⟩
  have hlimit := Nat.mul_le_mul_right wordSize h.limit_le
  rw [hkeeps.texts _ (by omega), hdata, ← hlength, List.getElem?_append_right (by omega),
    Nat.add_sub_cancel_left, List.append_cons,
    List.getElem?_append_left (by rw [List.length_append, List.length_singleton]; omega)]

/-- The code that prints a text. -/
theorem Prints.ends {text : String} (h : g.Prints text s.pc next) (hkeeps : g.Keeps decl env s) :
    g.Ends decl s next (Utf8.encode text) (some env) := by
  obtain ⟨address, hlt, htext, hcode, rfl, -⟩ := h
  rw [Code.ofInstructions_cons, Code.ofInstructions_nil, List.append_nil] at hcode ⊢
  obtain ⟨hsize, hstring⟩ := htext.stringAt_eq hkeeps
  have haddress : Instruction.address (Int16.ofNat address) = address := by
    rw [Instruction.address_ofNat, Nat.mod_eq_of_lt hlt]
  refine ends_of_write hkeeps (reaches_of_execute hcode Instruction.noConfusion fun limits k => ?_)
  exact Action.bind_of_ok (printString_eq haddress (by exact hsize) hstring)

/-- The code that prints a number. -/
theorem ends_writeInt (hdecl : g.Separates decl) (hkeeps : g.Keeps decl env s) {e : Expr V .int}
    (haddressable : e.Addressable decl)
    (h : g.Occupies (e.code decl s.pc ++ [.ofConst 0, .print]) s.pc next) {v : Word}
    (he : e.eval env = some v) :
    g.Ends decl s next (Utf8.encode (toString v.toInt)) (some env) := by
  obtain ⟨m, hcode, rfl, hpushes⟩ := pushes hdecl hkeeps haddressable h
  rw [he] at hpushes
  simp only [Code.ofInstructions_cons, Code.ofInstructions_nil, List.append_nil, codeAt_append]
    at hcode
  have hconst := reaches_ofConst (s := s.moved m (s.stack.push v)) hcode.1
  refine ends_of_write hkeeps ((Reaches.trans hpushes hconst).trans ?_)
  refine reaches_of_execute hcode.2 Instruction.noConfusion fun limits k => ?_
  refine (Action.bind_of_ok (pop_push rfl)).trans ?_
  refine (Action.bind_of_ok (pop_push rfl)).trans ?_
  exact Action.bind_of_ok (writeField_decimal v _)

/-- The code of an assignment. -/
theorem ends_assign [∀ t, DecidableEq (V t)] (hdecl : g.Separates decl)
    (hkeeps : g.Keeps decl env s) {t : Scalar} {x : V t} {e : Expr V t}
    (haddressable : e.Addressable decl) (hx : (decl t x).IsAddressable)
    (h : g.Occupies (e.code decl s.pc ++ [(decl t x).region.storeInstruction (decl t x).offset])
      s.pc next) :
    g.Ends decl s next [] ((e.eval env).map (env.set x)) := by
  obtain ⟨m, hcode, hnext, hpushes⟩ := pushes hdecl hkeeps haddressable h
  cases he : e.eval env with
  | none =>
    rw [he] at hpushes
    obtain ⟨pc, extra, hfaults⟩ := hpushes
    exact ends_of_faults hfaults
  | some v =>
    rw [he] at hpushes
    rw [Code.ofInstructions_cons, Code.ofInstructions_nil, List.append_nil,
      ← Decl.ofNat_slot (hdecl.placed t x).nonneg] at hcode hnext
    rw [Instruction.length_bytes] at hnext
    subst hnext
    rw [Decl.IsAddressable, ← Decl.ofNat_slot (hdecl.placed t x).nonneg] at hx
    -- the value is on the stack, and the variables still have the values from before
    have hpushed := hkeeps.moved m (s.stack.push (t.word v))
    have hstore := reaches_store (s := s.moved m (s.stack.push (t.word v))) hx (Decl.slot_lt _)
      (hpushed.isSome_word? x) rfl hcode
    exact ⟨_, Reaches.trans hpushes hstore, State.arrives_setWord (hkeeps.isSome_word? x) _ _,
      (hpushed.setWord hdecl x v).moved _ _⟩

end Pieces
end Target

/-! ### Statements -/

open Target

/-- **What a statement does, its code does**: it prints the same bytes, leaves the same values in
the variables, or divides by zero.  The induction is on the execution and not on the statement,
since a loop is executed by executing the same loop again. -/
theorem Stmt.Exec.ends {V : Scalar → Type} [∀ t, DecidableEq (V t)] {g : Target}
    {decl : (t : Scalar) → V t → Decl} (hdecl : g.Separates decl) {stmt : Stmt V} {env : Env V}
    {out : List UInt8} {r : Option (Env V)} (h : stmt.Exec env out r) {s : State} {next : Nat}
    (hplaced : stmt.Placed g decl s.pc next) (hkeeps : g.Keeps decl env s) :
    g.Ends decl s next out r := by
  induction h generalizing s next with
  | skip => exact ⟨s, .refl s, ⟨hplaced.symm, rfl, rfl, rfl, (List.append_nil _).symm⟩, hkeeps⟩
  | seq _ _ iha ihb =>
    obtain ⟨m, ha, hb⟩ := hplaced
    exact (iha ha hkeeps).seq fun s₁ hpc hkeeps₁ => ihb (hpc.symm ▸ hb) hkeeps₁
  | seqDivided _ iha =>
    obtain ⟨m, ha, -⟩ := hplaced
    exact (iha ha hkeeps).divided
  | assign => exact ends_assign hdecl hkeeps hplaced.1 hplaced.2.1 hplaced.2.2
  | ifThenTrue hc _ ih =>
    obtain ⟨m, htests, hs⟩ := hplaced
    exact .of_moved (htests.reaches hdecl hkeeps hc) (ih hs (hkeeps.moved _ _))
  | ifThenFalse hc =>
    obtain ⟨m, htests, -⟩ := hplaced
    exact ⟨_, htests.reaches hdecl hkeeps hc, s.arrives_moved next, hkeeps.moved _ _⟩
  | ifThenDivided hc =>
    obtain ⟨m, htests, -⟩ := hplaced
    exact htests.ends hdecl hkeeps hc next
  | ifElseTrue hc _ ih =>
    -- of the two branches only the one that is taken has an execution
    refine hplaced.ends hdecl hkeeps hc (fun m k _ ha => ih ha (hkeeps.moved _ _)) fun _ hb => ?_
    cases hb
  | ifElseFalse hc _ ih =>
    refine hplaced.ends hdecl hkeeps hc (fun _ _ hb => ?_) fun l _ hb => ih hb (hkeeps.moved _ _)
    cases hb
  | ifElseDivided hc =>
    obtain ⟨m, k, l, htests, -⟩ := hplaced
    exact htests.ends hdecl hkeeps hc next
  | whileTrue hc _ _ ihs ihrest =>
    -- after the jump the code of the whole loop stands at the program counter again
    obtain ⟨m, k, htests, hs, hjumps⟩ := id hplaced
    refine .of_moved (htests.reaches hdecl hkeeps hc) ?_
    have hbody := (ihs (s := s.moved m s.stack) hs (hkeeps.moved _ _)).jump hjumps
    exact hbody.seq fun s₁ hpc hkeeps₁ => ihrest (hpc.symm ▸ hplaced) hkeeps₁
  | whileBodyDivided hc _ ih =>
    obtain ⟨m, k, htests, hs, -⟩ := hplaced
    exact .of_moved (htests.reaches hdecl hkeeps hc) (ih hs (hkeeps.moved _ _)).divided
  | whileFalse hc =>
    obtain ⟨m, k, htests, -⟩ := hplaced
    exact ⟨_, htests.reaches hdecl hkeeps hc, s.arrives_moved next, hkeeps.moved _ _⟩
  | whileDivided hc =>
    obtain ⟨m, k, htests, -⟩ := hplaced
    exact htests.ends hdecl hkeeps hc next
  | writeInt he => exact ends_writeInt hdecl hkeeps hplaced.1 hplaced.2 he
  | writeIntDivided he =>
    obtain ⟨m, -, -, hpushes⟩ := pushes hdecl hkeeps hplaced.1 hplaced.2
    rw [he] at hpushes
    obtain ⟨pc, extra, hfaults⟩ := hpushes
    exact ends_of_faults hfaults
  | @writeBool e span env b he =>
    refine hplaced.ends hdecl hkeeps he (fun m k hb hyes => ?_) fun l hb hno => ?_
    · exact hb ▸ hyes.ends (hkeeps.moved _ _)
    · exact hb ▸ hno.ends (hkeeps.moved _ _)
  | writeBoolDivided he =>
    obtain ⟨m, k, l, htests, -⟩ := hplaced
    exact htests.ends hdecl hkeeps he next
  | writeLine => exact hplaced.ends hkeeps
  | writeText => exact hplaced.ends hkeeps

end MJ
