import MJ.Machine.Run
import MJ.Proofs.Emission

/-!
# Executing code

What a machine does at an address is determined by the bytes there.  Runs are put together from
steps that no limit stops; how many steps they take matters only when the limits are looked at
again, at the end.

## Main definitions

* `Machine.CodeAt` — bytes stand in the code from an address on.
* `Machine.Path` — a number of steps that no limit stops.
* `Machine.Reaches`, `Machine.Stops` — where such steps lead, whatever was counted before.
* `Machine.Outcome.IsLimited` — a run was cut short by a limit on steps or on the stack.
* `Machine.RunsTo` — the outcome of a number of steps that no limit cuts short.
* `Machine.Yields` — the outcome of a run of an image that is not cut short.

## Main results

* `Machine.fetch_of_codeAt` — the machine fetches the instruction whose bytes stand at its
  program counter.
* `Machine.Path.runFor_or_limited`, `Machine.Path.exists_runFor` — a run follows a path unless a
  limit cuts it short, and large enough limits do not.
-/

namespace MJ

/-- Whether a fault is that a limit on steps or on the stack was reached.  These faults say
something about the limits and not about the program. -/
def Fault.isLimit : Fault → Bool
  | stepLimit _ | stackLimit _ => true
  | _ => false

/-- Whether limits allow a number of steps and of words on the stack. -/
def Limits.Allow (limits : Limits) (steps words : Nat) : Prop :=
  (∀ max, limits.maxSteps = some max → steps ≤ max) ∧ words ≤ limits.maxStack

theorem Limits.Allow.mono {limits : Limits} {steps steps' words words' : Nat}
    (h : limits.Allow steps' words') (hsteps : steps ≤ steps') (hwords : words ≤ words') :
    limits.Allow steps words :=
  ⟨fun max hmax => Nat.le_trans hsteps (h.1 max hmax), Nat.le_trans hwords h.2⟩

namespace Machine

/-! ### Code at an address -/

/-- The bytes `bs` stand in the code from `pc` on.  All that is said of runs rests on this, so that
it holds in every image that has the code somewhere. -/
def CodeAt (code : Array UInt8) (pc : Nat) (bs : List UInt8) : Prop :=
  ∀ k, k < bs.length → code[pc + k]? = bs[k]?

theorem codeAt_append {code : Array UInt8} {pc : Nat} {bs cs : List UInt8} :
    CodeAt code pc (bs ++ cs) ↔ CodeAt code pc bs ∧ CodeAt code (pc + bs.length) cs := by
  constructor
  · intro h
    refine ⟨fun k hk => ?_, fun k hk => ?_⟩
    · rw [h k (by rw [List.length_append]; omega), List.getElem?_append_left hk]
    · rw [Nat.add_assoc, h (bs.length + k) (by rw [List.length_append]; omega),
        List.getElem?_append_right (by omega), Nat.add_sub_cancel_left]
  · rintro ⟨hbs, hcs⟩ k hk
    rw [List.length_append] at hk
    by_cases hlt : k < bs.length
    · rw [hbs k hlt, List.getElem?_append_left hlt]
    · rw [List.getElem?_append_right (by omega), ← hcs (k - bs.length) (by omega)]
      congr 1
      omega

/-- Each part of a list of bytes stands after the parts before it. -/
theorem codeAt_toArray (bs cs ds : List UInt8) :
    CodeAt (bs ++ (cs ++ ds)).toArray bs.length cs := by
  intro k hk
  rw [List.getElem?_toArray, List.getElem?_append_right (by omega), Nat.add_sub_cancel_left,
    List.getElem?_append_left hk]

/-- The machine fetches the instruction whose bytes stand at its program counter.  The exception is
the instruction that marks the end of the opcodes, which the machine does not know. -/
theorem fetch_of_codeAt {code : Array UInt8} {pc : Nat} {i : Instruction}
    (h : CodeAt code pc i.bytes) (hlast : i ≠ .last) : fetch code pc = .ok i := by
  have hlength := i.length_bytes
  have hopcode : code[pc]? = some i.opcode.byte := h 0 (by rw [hlength]; exact i.size_pos)
  -- the last byte of the instruction is in the code
  have hfits : ¬ code.size < pc + i.opcode.size := by
    have hend := h (i.size - 1) (by rw [hlength]; exact Nat.sub_lt i.size_pos Nat.one_pos)
    rw [List.getElem?_eq_getElem (by rw [hlength]; exact Nat.sub_lt i.size_pos Nat.one_pos)] at hend
    have hlt := (Array.getElem?_eq_some_iff.mp hend).1
    have hpos := i.size_pos
    rw [Instruction.size] at hlt hpos
    omega
  have hoperands : ∀ k, k < i.opcode.operandSize →
      code.getD (pc + 1 + k) 0 = i.operandBytes.getD k 0 := by
    intro k hk
    have hbyte := h (k + 1) (by rw [hlength, Instruction.size, Opcode.size]; omega)
    rw [Instruction.bytes, List.getElem?_cons_succ, Nat.add_comm k 1, ← Nat.add_assoc] at hbyte
    rw [Array.getD_eq_getD_getElem?, hbyte, List.getD_eq_getElem?_getD]
  have hne : i.opcode ≠ .last := by
    intro hopcode
    apply hlast
    rw [← Instruction.ofOperands_operandBytes i, hopcode]
    rfl
  rw [fetch, hopcode]
  simp only [Opcode.ofByte?_byte]
  rw [if_neg hfits, Instruction.ofOperands_congr hoperands, Instruction.ofOperands_operandBytes]

/-! ### Paths -/

/-- The state after the fetch of an instruction. -/
def State.fetched (s : State) (i : Instruction) : State :=
  { s with steps := s.steps + 1, pc := s.pc + i.size }

/-- What the instruction at the program counter results in, whatever the limits.  The heap is the
only limit that instructions look at themselves, and those that allocate are treated apart. -/
def Performs (code : Array UInt8) (s : State) (result : EStateM.Result Stop State Bool) : Prop :=
  ∃ i, fetch code s.pc = .ok i ∧ ∀ limits, execute limits i (s.fetched i) = result

/-- A number of steps that no limit stops.  Limits are left out here, so that paths can be put
together without adding up what they take. -/
inductive Path (code : Array UInt8) : Nat → State → State → Prop
  | refl (s : State) : Path code 0 s s
  | step {n : Nat} {s s₁ s₂ : State} (hstep : Performs code s (.ok true s₁))
    (hrest : Path code n s₁ s₂) : Path code (n + 1) s s₂

theorem Path.trans {code : Array UInt8} {m n : Nat} {s s₁ s₂ : State} (h : Path code m s s₁)
    (h' : Path code n s₁ s₂) : Path code (m + n) s s₂ := by
  induction h with
  | refl s =>
    rw [Nat.zero_add]
    exact h'
  | step hstep _ ih =>
    rw [Nat.add_right_comm]
    exact .step hstep (ih h')

/-- Steps lead from one state to the other, apart from the number of steps.  The counter may start
anywhere, and so the states that are reached need not mention it. -/
def Reaches (code : Array UInt8) (s s' : State) : Prop :=
  ∃ n, ∀ k, Path code n { s with steps := k } { s' with steps := k + n }

/-- Steps lead to one whose result ends the run: a fault, or the return of the outermost
procedure. -/
def Stops (code : Array UInt8) (result : State → EStateM.Result Stop State Bool)
    (s s' : State) : Prop :=
  ∃ n, ∀ k, ∃ s₁, Path code n { s with steps := k } s₁ ∧
    Performs code s₁ (result { s' with steps := k + n + 1 })

/-- Steps lead to a fault. -/
def Faults (code : Array UInt8) (cause : Fault) : State → State → Prop :=
  Stops code (.error (.fault cause))

/-- Steps lead to the return of the outermost procedure. -/
def Halts (code : Array UInt8) : State → State → Prop := Stops code (.ok false)

variable {code : Array UInt8}

theorem Reaches.refl (s : State) : Reaches code s s := ⟨0, fun _ => .refl _⟩

theorem Reaches.trans {s s₁ s₂ : State} (h : Reaches code s s₁) (h' : Reaches code s₁ s₂) :
    Reaches code s s₂ := by
  obtain ⟨m, hm⟩ := h
  obtain ⟨n, hn⟩ := h'
  refine ⟨m + n, fun k => ?_⟩
  rw [← Nat.add_assoc]
  exact (hm k).trans (hn (k + m))

theorem Reaches.stops {result : State → EStateM.Result Stop State Bool} {s s₁ s₂ : State}
    (h : Reaches code s s₁) (h' : Stops code result s₁ s₂) : Stops code result s s₂ := by
  obtain ⟨m, hm⟩ := h
  obtain ⟨n, hn⟩ := h'
  refine ⟨m + n, fun k => ?_⟩
  obtain ⟨s', hpath, hperforms⟩ := hn (k + m)
  rw [Nat.add_assoc k m n] at hperforms
  exact ⟨s', (hm k).trans hpath, hperforms⟩

/-- One instruction after which the machine goes on. -/
theorem reaches_of_execute {s s' : State} {i : Instruction} (hcode : CodeAt code s.pc i.bytes)
    (hlast : i ≠ .last)
    (h : ∀ limits k, execute limits i { s with steps := k, pc := s.pc + i.size }
      = .ok true { s' with steps := k }) : Reaches code s s' :=
  ⟨1, fun k => .step ⟨i, fetch_of_codeAt hcode hlast, fun limits => h limits (k + 1)⟩ (.refl _)⟩

/-- One instruction that ends the run. -/
theorem stops_of_execute {result : State → EStateM.Result Stop State Bool} {s s' : State}
    {i : Instruction} (hcode : CodeAt code s.pc i.bytes) (hlast : i ≠ .last)
    (h : ∀ limits k, execute limits i { s with steps := k, pc := s.pc + i.size }
      = result { s' with steps := k }) : Stops code result s s' :=
  ⟨0, fun k => ⟨_, .refl _, i, fetch_of_codeAt hcode hlast, fun limits => h limits (k + 1)⟩⟩

/-! ### Paths under limits -/

/-- A run that a limit on steps or on the stack cut short.  Nothing more can be said of such a run.
-/
def Outcome.IsLimited (o : Outcome) : Prop :=
  ∃ pc cause, o.ending = .stopped pc (.fault cause) ∧ cause.isLimit = true

theorem checkLimits_of_allow {limits : Limits} {s : State}
    (h : limits.Allow (s.steps + 1) s.stack.size) :
    checkLimits limits s = .ok () { s with steps := s.steps + 1 } := by
  have hsteps : limits.maxSteps.filter (· < s.steps + 1) = none := by
    cases hmax : limits.maxSteps with
    | none => rfl
    | some max =>
      have hle := h.1 max hmax
      simp only [Option.filter, decide_eq_true_eq, ite_eq_right_iff]
      omega
  unfold checkLimits
  simp only [hsteps, if_neg (Nat.not_lt.mpr h.2)]

/-- The check of the limits fails for one of two reasons, of which the number of steps comes
first. -/
theorem checkLimits_split (limits : Limits) (s : State) :
    (∃ m, limits.maxSteps = some m ∧ m ≤ s.steps ∧ checkLimits limits s
        = .error (.fault (.stepLimit m)) { s with steps := s.steps + 1 }) ∨
      ((∀ m, limits.maxSteps = some m → s.steps + 1 ≤ m) ∧ limits.maxStack < s.stack.size ∧
        checkLimits limits s
          = .error (.fault (.stackLimit limits.maxStack)) { s with steps := s.steps + 1 }) ∨
      (limits.Allow (s.steps + 1) s.stack.size ∧
        checkLimits limits s = .ok () { s with steps := s.steps + 1 }) := by
  -- the steps are compared first, and the stack only if there are steps left
  by_cases hover : ∃ m, limits.maxSteps = some m ∧ m ≤ s.steps
  · obtain ⟨m, hmax, hle⟩ := hover
    have hsome : limits.maxSteps.filter (· < s.steps + 1) = some m := by
      rw [Option.filter_eq_some_iff]
      exact ⟨hmax, decide_eq_true (Nat.lt_succ_of_le hle)⟩
    refine Or.inl ⟨m, hmax, hle, ?_⟩
    unfold checkLimits
    simp only [hsome]
  · have hsteps : ∀ m, limits.maxSteps = some m → s.steps + 1 ≤ m := fun m hmax =>
      Nat.lt_of_not_le fun hle => hover ⟨m, hmax, hle⟩
    refine Or.inr ?_
    by_cases hstack : s.stack.size ≤ limits.maxStack
    · exact Or.inr ⟨⟨hsteps, hstack⟩, checkLimits_of_allow ⟨hsteps, hstack⟩⟩
    · have hnone : limits.maxSteps.filter (· < s.steps + 1) = none := by
        rw [Option.filter_eq_none_iff]
        intro m hmax
        simpa using hsteps m hmax
      refine Or.inl ⟨hsteps, Nat.lt_of_not_le hstack, ?_⟩
      unfold checkLimits
      simp only [hnone, if_pos (Nat.lt_of_not_le hstack)]

/-- The check fails only because of a limit, whichever it is. -/
theorem checkLimits_cases (limits : Limits) (s : State) :
    checkLimits limits s = .ok () { s with steps := s.steps + 1 } ∨
      ∃ cause s', checkLimits limits s = .error (.fault cause) s' ∧ cause.isLimit = true := by
  rcases checkLimits_split limits s with ⟨m, -, -, hstop⟩ | ⟨-, -, hstop⟩ | ⟨-, hcheck⟩
  · exact Or.inr ⟨_, _, hstop, rfl⟩
  · exact Or.inr ⟨_, _, hstop, rfl⟩
  · exact Or.inl hcheck

/-- A step after the check of the limits and the fetch. -/
theorem step_of_fetch {limits : Limits} {s : State} {i : Instruction}
    {result : EStateM.Result Stop State Bool} (hfetch : fetch code s.pc = .ok i)
    (hexecute : execute limits i (s.fetched i) = result)
    (hlimits : checkLimits limits s = .ok () { s with steps := s.steps + 1 }) :
    step limits code s = result := by
  have hadvance : advance code { s with steps := s.steps + 1 } = .ok i (s.fetched i) := by
    rw [advance, hfetch]
    rfl
  rw [step, Action.bind_of_ok hlimits, Action.bind_of_ok hadvance, hexecute]

/-- A step after the check of the limits. -/
theorem step_of_checkLimits {limits : Limits} {s : State}
    {result : EStateM.Result Stop State Bool} (h : Performs code s result)
    (hlimits : checkLimits limits s = .ok () { s with steps := s.steps + 1 }) :
    step limits code s = result := by
  obtain ⟨i, hfetch, hexecute⟩ := h
  exact step_of_fetch hfetch (hexecute limits) hlimits

/-- A step that only the check can keep from being made is made, unless a limit cuts the run short.
Both are said of runs of any length, since the next step is their first one. -/
theorem step_or_limited {limits : Limits} {s : State} {result : EStateM.Result Stop State Bool}
    (h : checkLimits limits s = .ok () { s with steps := s.steps + 1 } →
      step limits code s = result) :
    step limits code s = result ∨ ∀ m, (runFor limits code (m + 1) s).IsLimited := by
  rcases checkLimits_cases limits s with hlimits | ⟨cause, s', hlimits, hcause⟩
  · exact Or.inl (h hlimits)
  · have hstopped : step limits code s = .error (.fault cause) s' :=
      Action.bind_eq_error.mpr (Or.inl hlimits)
    refine Or.inr fun m => ?_
    rw [runFor, hstopped]
    exact ⟨s.pc, cause, rfl, hcause⟩

/-- The next step is made, unless a limit cuts the run short. -/
theorem Performs.step_or_limited {s : State} {result : EStateM.Result Stop State Bool}
    (h : Performs code s result) (limits : Limits) :
    step limits code s = result ∨ ∀ m, (runFor limits code (m + 1) s).IsLimited :=
  Machine.step_or_limited (step_of_checkLimits h)

/-- A run follows a path until the path or the run ends, unless a limit cuts it short.  By induction
on the path: each of its steps is a step of the run. -/
theorem Path.runFor_or_limited {n : Nat} {s s' : State} (h : Path code n s s') (limits : Limits)
    (m : Nat) :
    (runFor limits code m s).IsLimited ∨
      (m < n ∧ (runFor limits code m s).ending = .unfinished) ∨
      ∃ r, m = n + r ∧ runFor limits code m s = runFor limits code r s' := by
  induction h generalizing m with
  | refl s => exact Or.inr (Or.inr ⟨m, (Nat.zero_add m).symm, rfl⟩)
  | @step n s s₁ s₂ hstep _ ih =>
    cases m with
    | zero => exact Or.inr (Or.inl ⟨Nat.succ_pos n, rfl⟩)
    | succ m =>
      rcases hstep.step_or_limited limits with hfirst | hlimited
      · rw [runFor, hfirst]
        rcases ih m with hlimited | ⟨hlt, hunfinished⟩ | ⟨r, rfl, hrun⟩
        · exact Or.inl hlimited
        · exact Or.inr (Or.inl ⟨Nat.succ_lt_succ hlt, hunfinished⟩)
        · exact Or.inr (Or.inr ⟨r, Nat.add_right_comm n r 1, hrun⟩)
      · exact Or.inl (hlimited m)

/-- Limits that are large enough do not stop a path, which has finitely many states and so a largest
stack. -/
theorem Path.exists_runFor {n : Nat} {s s' : State} (h : Path code n s s') :
    ∃ steps words, ∀ limits : Limits, limits.Allow steps words →
      ∀ r, runFor limits code (n + r) s = runFor limits code r s' := by
  induction h with
  | refl s => exact ⟨0, 0, fun _ _ r => by rw [Nat.zero_add]⟩
  | @step n s s₁ s₂ hstep _ ih =>
    obtain ⟨steps, words, hrest⟩ := ih
    refine ⟨max (s.steps + 1) steps, max s.stack.size words, fun limits hallow r => ?_⟩
    have hfirst : limits.Allow (s.steps + 1) s.stack.size :=
      hallow.mono (Nat.le_max_left _ _) (Nat.le_max_left _ _)
    have hlater : limits.Allow steps words :=
      hallow.mono (Nat.le_max_right _ _) (Nat.le_max_right _ _)
    rw [Nat.add_right_comm, runFor, step_of_checkLimits hstep (checkLimits_of_allow hfirst)]
    exact hrest limits hlater r

/-- The last step of a run is reached, unless the run is too short or a limit cuts it short. -/
theorem Stops.runFor_or_limited {result : State → EStateM.Result Stop State Bool} {s s' : State}
    (h : Stops code result s s') (limits : Limits) (m : Nat) :
    (runFor limits code m s).IsLimited ∨ (runFor limits code m s).ending = .unfinished ∨
      ∃ s₁ r k, runFor limits code m s = runFor limits code (r + 1) s₁ ∧
        step limits code s₁ = result { s' with steps := k } := by
  obtain ⟨n, hn⟩ := h
  obtain ⟨s₁, hpath, hperforms⟩ := hn s.steps
  rcases hpath.runFor_or_limited limits m with hlimited | ⟨-, hunfinished⟩ | ⟨r, rfl, hrun⟩
  · exact Or.inl hlimited
  · exact Or.inr (Or.inl hunfinished)
  · rw [hrun]
    cases r with
    | zero => exact Or.inr (Or.inl rfl)
    | succ r =>
      rcases hperforms.step_or_limited limits with hlast | hlimited
      · exact Or.inr (Or.inr ⟨s₁, r, _, rfl, hlast⟩)
      · exact Or.inl (hlimited r)

/-- Limits that are large enough do not keep a run from its last step. -/
theorem Stops.exists_runFor {result : State → EStateM.Result Stop State Bool} {s s' : State}
    (h : Stops code result s s') :
    ∃ n steps words, ∀ limits : Limits, limits.Allow steps words → ∀ r, ∃ s₁ k,
      runFor limits code (n + (r + 1)) s = runFor limits code (r + 1) s₁ ∧
        step limits code s₁ = result { s' with steps := k } := by
  obtain ⟨n, hn⟩ := h
  obtain ⟨s₁, hpath, hperforms⟩ := hn s.steps
  obtain ⟨steps, words, hrun⟩ := hpath.exists_runFor
  refine ⟨n, max (s₁.steps + 1) steps, max s₁.stack.size words, fun limits hallow r => ?_⟩
  have hlast : limits.Allow (s₁.steps + 1) s₁.stack.size :=
    hallow.mono (Nat.le_max_left _ _) (Nat.le_max_left _ _)
  have hearlier : limits.Allow steps words :=
    hallow.mono (Nat.le_max_right _ _) (Nat.le_max_right _ _)
  exact ⟨s₁, _, hrun limits hearlier (r + 1),
    step_of_checkLimits hperforms (checkLimits_of_allow hlast)⟩

/-- A run of `n` steps has an outcome, unless a limit on steps or on the stack cuts it short; limits
that are large enough do not. -/
def RunsTo (code : Array UInt8) (s : State) (n : Nat) (o : Outcome) : Prop :=
  (∀ limits, (runFor limits code n s).IsLimited ∨ runFor limits code n s = o) ∧
    ∃ steps words, ∀ limits : Limits, limits.Allow steps words → runFor limits code n s = o

theorem Path.runsTo {n : Nat} {s s' : State} (h : Path code n s s') :
    RunsTo code s n ⟨.unfinished, s'⟩ := by
  refine ⟨fun limits => ?_, ?_⟩
  · rcases h.runFor_or_limited limits n with hlimited | ⟨hlt, -⟩ | ⟨r, hr, hrun⟩
    · exact Or.inl hlimited
    · exact absurd hlt (Nat.lt_irrefl n)
    · obtain rfl : r = 0 := by omega
      exact Or.inr hrun
  · obtain ⟨steps, words, hrun⟩ := h.exists_runFor
    exact ⟨steps, words, fun limits hallow => hrun limits hallow 0⟩

theorem Reaches.runsTo {s s' : State} (h : Reaches code s s') :
    ∃ n, RunsTo code s n ⟨.unfinished, { s' with steps := s.steps + n }⟩ := by
  obtain ⟨n, hn⟩ := h
  exact ⟨n, (hn s.steps).runsTo⟩

theorem Faults.runsTo {cause : Fault} {s s' : State} (h : Faults code cause s s') :
    ∃ n pc, RunsTo code s n ⟨.stopped pc (.fault cause), { s' with steps := s.steps + n }⟩ := by
  obtain ⟨n, hn⟩ := h
  obtain ⟨s₁, hpath, hperforms⟩ := hn s.steps
  -- the last step is the one that faults, if no limit comes before
  have hlast : ∀ limits : Limits, step limits code s₁
      = .error (.fault cause) { s' with steps := s.steps + n + 1 } → runFor limits code 1 s₁
        = ⟨.stopped s₁.pc (.fault cause), { s' with steps := s.steps + (n + 1) }⟩ := by
    intro limits hstep
    rw [runFor, hstep]
    rfl
  refine ⟨n + 1, s₁.pc, fun limits => ?_, ?_⟩
  · rcases hpath.runFor_or_limited limits (n + 1) with hlimited | ⟨hlt, -⟩ | ⟨r, hr, hrun⟩
    · exact Or.inl hlimited
    · exact absurd hlt (by omega)
    · obtain rfl : r = 1 := by omega
      rw [hrun]
      rcases hperforms.step_or_limited limits with hstep | hlimited
      · exact Or.inr (hlast limits hstep)
      · exact Or.inl (hlimited 0)
  · obtain ⟨steps, words, hrun⟩ := hpath.exists_runFor
    refine ⟨max (s₁.steps + 1) steps, max s₁.stack.size words, fun limits hallow => ?_⟩
    rw [hrun limits (hallow.mono (Nat.le_max_right _ _) (Nat.le_max_right _ _)) 1]
    exact hlast limits (step_of_checkLimits hperforms
      (checkLimits_of_allow (hallow.mono (Nat.le_max_left _ _) (Nat.le_max_left _ _))))

/-! ### Runs of an image -/

/-- A run that a limit cut short, or that came to the end of the counter of steps.  The counter is
there to make runs finite, and stands for a machine that is switched off. -/
def Outcome.IsCutShort (o : Outcome) : Prop := o.IsLimited ∨ o.ending = .unfinished

/-- Every run of an image that is not cut short has an outcome of a kind, and limits that are large
enough do not cut it short. -/
def Yields (image : Image) (input : List UInt8) (good : Outcome → Prop) : Prop :=
  (∀ limits, (run limits image input).IsCutShort ∨ good (run limits image input)) ∧
    ∃ steps words, ∀ limits : Limits, limits.Allow steps words → steps ≤ stepBound limits →
      good (run limits image input)

/-- What is true of the last step of a run is true of the outcome of every run that is not cut
short. -/
theorem Stops.yields {image : Image} {input : List UInt8} {good : Outcome → Prop}
    {result : State → EStateM.Result Stop State Bool} {s' : State}
    (h : Stops image.code.toArray result (.load image input) s')
    (hgood : ∀ limits s r k, step limits image.code.toArray s = result { s' with steps := k } →
      good (runFor limits image.code.toArray (r + 1) s)) : Yields image input good := by
  refine ⟨fun limits => ?_, ?_⟩
  · rcases h.runFor_or_limited limits (stepBound limits) with hlimited | hunfinished | hlast
    · exact Or.inl (Or.inl hlimited)
    · exact Or.inl (Or.inr hunfinished)
    · obtain ⟨s, r, k, hrun, hstep⟩ := hlast
      refine Or.inr ?_
      rw [run, hrun]
      exact hgood limits s r k hstep
  · obtain ⟨n, steps, words, hrun⟩ := h.exists_runFor
    refine ⟨max (n + 1) steps, words, fun limits hallow hbound => ?_⟩
    -- the counter of steps is not used up before the last step
    obtain ⟨r, hr⟩ : ∃ r, stepBound limits = n + (r + 1) :=
      ⟨stepBound limits - (n + 1), by omega⟩
    obtain ⟨s, k, hlast, hstep⟩ :=
      hrun limits (hallow.mono (Nat.le_max_right _ _) (Nat.le_refl _)) r
    rw [run, hr, hlast]
    exact hgood limits s r k hstep

theorem Halts.yields {image : Image} {input : List UInt8} {good : Outcome → Prop} {s' : State}
    (h : Halts image.code.toArray (.load image input) s')
    (hgood : ∀ k, good ⟨.returned, { s' with steps := k }⟩) : Yields image input good := by
  refine Stops.yields h fun limits s r k hstep => ?_
  rw [runFor, hstep]
  exact hgood k

theorem Faults.yields {image : Image} {input : List UInt8} {good : Outcome → Prop} {cause : Fault}
    {s' : State} (h : Faults image.code.toArray cause (.load image input) s')
    (hgood : ∀ pc k, good ⟨.stopped pc (.fault cause), { s' with steps := k }⟩) :
    Yields image input good := by
  refine Stops.yields h fun limits s r k hstep => ?_
  rw [runFor, hstep]
  exact hgood s.pc k

/-! ### Single instructions -/

/-- The state with another program counter and evaluation stack.  Most instructions change nothing
else, and the states of a run are written with this alone. -/
def State.moved (s : State) (pc : Nat) (stack : Array Word) : State :=
  { s with pc := pc, stack := stack }

@[simp] theorem pc_moved (s : State) (pc : Nat) (stack : Array Word) :
    (s.moved pc stack).pc = pc := rfl

@[simp] theorem stack_moved (s : State) (pc : Nat) (stack : Array Word) :
    (s.moved pc stack).stack = stack := rfl

@[simp] theorem moved_moved (s : State) (pc pc' : Nat) (stack stack' : Array Word) :
    (s.moved pc stack).moved pc' stack' = s.moved pc' stack' := rfl

theorem moved_self (s : State) : s.moved s.pc s.stack = s := rfl

theorem pop_push {s : State} {stack : Array Word} {v : Word} (h : s.stack = stack.push v) :
    pop s = .ok v { s with stack := stack } := by
  rw [pop, h, Array.back?_push, Array.pop_push]

theorem pop_eq_ok {s t : State} {v : Word} (h : pop s = .ok v t) :
    ∃ stack, s.stack = stack.push v ∧ t = { s with stack := stack } := by
  unfold pop at h
  split at h
  · rename_i hback
    cases h
    obtain ⟨stack, hstack⟩ := Array.back?_eq_some_iff.mp hback
    exact ⟨stack, hstack, by rw [hstack, Array.pop_push]⟩
  · cases h

theorem execute_ofConst (limits : Limits) (v : Word) (s : State) :
    execute limits (.ofConst v) s = .ok true { s with stack := s.stack.push v } := by
  rcases Instruction.ofConst_cases v with ⟨k, hv, h⟩ | ⟨hv, h⟩ | ⟨-, h⟩
  · rw [h, hv]
    rfl
  · rw [h, hv]
    rfl
  · rw [h]
    rfl

theorem reaches_ofConst {s : State} {v : Word}
    (hcode : CodeAt code s.pc (Instruction.ofConst v).bytes) :
    Reaches code s (s.moved (s.pc + (Instruction.ofConst v).size) (s.stack.push v)) :=
  reaches_of_execute hcode (Instruction.ofConst_plain v).1 fun _ _ => execute_ofConst _ _ _

section TopOfStack

variable {s : State} {stack : Array Word} {a b v : Word}

theorem execute_neg (limits : Limits) (hstack : s.stack = stack.push v) :
    execute limits .neg s = .ok true { s with stack := stack.push (-v) } := by
  rw [execute, Action.bind_of_ok (pop_push hstack)]
  rfl

theorem reaches_neg (hstack : s.stack = stack.push v)
    (hcode : CodeAt code s.pc Instruction.neg.bytes) :
    Reaches code s (s.moved (s.pc + 1) (stack.push (-v))) :=
  reaches_of_execute hcode Instruction.noConfusion fun limits _ => execute_neg limits hstack

/-- The two topmost words are popped, the topmost first. -/
theorem pop_pop_push (hstack : s.stack = (stack.push a).push b) {α : Type}
    (f : Word → Word → Exec α) :
    (do let b ← pop; let a ← pop; f a b : Exec α) s = f a b { s with stack := stack } := by
  rw [Action.bind_of_ok (pop_push hstack), Action.bind_of_ok (pop_push rfl)]

theorem execute_arithmetic (limits : Limits) (op : Arithmetic)
    (hstack : s.stack = (stack.push a).push b) :
    execute limits (.arithmetic op) s = match op.apply a b with
      | some v => .ok true { s with stack := stack.push v }
      | none => .error (.fault .divisionByZero) { s with stack := stack } := by
  rw [execute, pop_pop_push hstack]
  cases op.apply a b with
  | some v => rfl
  | none => rfl

theorem reaches_arithmetic {op : Arithmetic} (hstack : s.stack = (stack.push a).push b)
    (happly : op.apply a b = some v) (hcode : CodeAt code s.pc (Instruction.arithmetic op).bytes) :
    Reaches code s (s.moved (s.pc + 1) (stack.push v)) := by
  have hsize : (Instruction.arithmetic op).size = 1 := by cases op <;> rfl
  refine reaches_of_execute hcode Instruction.noConfusion fun limits k => ?_
  refine (execute_arithmetic limits op (by exact hstack)).trans ?_
  rw [happly, hsize]
  rfl

theorem faults_arithmetic {op : Arithmetic} (hstack : s.stack = (stack.push a).push b)
    (happly : op.apply a b = none) (hcode : CodeAt code s.pc (Instruction.arithmetic op).bytes) :
    Faults code .divisionByZero s (s.moved (s.pc + 1) stack) := by
  have hsize : (Instruction.arithmetic op).size = 1 := by cases op <;> rfl
  refine stops_of_execute hcode Instruction.noConfusion fun limits k => ?_
  refine (execute_arithmetic limits op (by exact hstack)).trans ?_
  rw [happly, hsize]
  rfl

theorem execute_branch (limits : Limits) (test : Comparison) (n : Int16)
    (hstack : s.stack = (stack.push a).push b) :
    execute limits (.branch test n) s = .ok true { s with
      pc := if test.holds a b then Instruction.address n else s.pc, stack := stack } := by
  rw [execute, pop_pop_push hstack]
  cases test.holds a b with
  | true => rfl
  | false => rfl

theorem reaches_branch {test : Comparison} {n : Nat} (hstack : s.stack = (stack.push a).push b)
    (hn : n < 65536) (hcode : CodeAt code s.pc (Instruction.branch test (Int16.ofNat n)).bytes) :
    Reaches code s (s.moved (if test.holds a b then n else s.pc + 3) stack) := by
  have hsize : (Instruction.branch test (Int16.ofNat n)).size = 3 := by cases test <;> rfl
  refine reaches_of_execute hcode Instruction.noConfusion fun limits k => ?_
  refine (execute_branch limits test _ (by exact hstack)).trans ?_
  rw [Instruction.address_ofNat, Nat.mod_eq_of_lt hn, hsize]
  rfl

end TopOfStack

theorem reaches_jump {s : State} {n : Nat} (hn : n < 65536)
    (hcode : CodeAt code s.pc (Instruction.jump (Int16.ofNat n)).bytes) :
    Reaches code s (s.moved n s.stack) := by
  refine reaches_of_execute hcode Instruction.noConfusion fun limits k => ?_
  show EStateM.Result.ok true _ = _
  rw [Instruction.address_ofNat, Nat.mod_eq_of_lt hn]
  rfl

/-- The start of a procedure without parameters. -/
theorem reaches_enter {s : State} {size : UInt8}
    (hcode : CodeAt code s.pc (Instruction.enter 0 size).bytes) :
    Reaches code s { s with
      pc := s.pc + 3, frames := s.frames.push (Array.replicate size.toNat 0) } := by
  refine reaches_of_execute hcode Instruction.noConfusion fun limits k => ?_
  show EStateM.Result.ok true _ = _
  rw [show max size.toNat (0 : UInt8).toNat = size.toNat from Nat.max_zero _]
  rfl

/-- The end of the outermost procedure.  There is no return address left, which is how the machine
knows that the program is over. -/
theorem halts_exit {s : State} (hframes : 0 < s.frames.size) (hreturns : s.returns = #[])
    (hcode : CodeAt code s.pc (Code.ofInstructions [.exit, .ret])) :
    Halts code s { s with pc := s.pc + 2, frames := s.frames.pop } := by
  simp only [Code.ofInstructions_cons, Code.ofInstructions_nil, List.append_nil, codeAt_append]
    at hcode
  have hnonempty : ¬ s.frames.isEmpty = true := by
    rw [Array.isEmpty_iff_size_eq_zero]
    omega
  have hexit : Reaches code s { s with pc := s.pc + 1, frames := s.frames.pop } := by
    refine reaches_of_execute hcode.1 Instruction.noConfusion fun limits k => ?_
    exact Action.bind_of_ok (v := ()) (if_neg hnonempty)
  refine hexit.stops (stops_of_execute hcode.2 Instruction.noConfusion fun limits k => ?_)
  show ret _ = _
  rw [ret, hreturns]
  rfl

/-- The code that turns a comparison into a word goes one of two ways to the same place. -/
theorem reaches_compareCode {test : Comparison} {s : State} {stack : Array Word} {a b : Word}
    (hstack : s.stack = (stack.push a).push b) (hend : s.pc + 8 < 65536)
    (hcode : CodeAt code s.pc (Code.ofInstructions (Assembler.compareCode test s.pc))) :
    Reaches code s (s.moved (s.pc + 8) (stack.push (boolWord (test.holds a b)))) := by
  have hsize : (Instruction.branch test (Int16.ofNat (s.pc + 7))).bytes.length = 3 := by
    cases test <;> rfl
  simp only [Assembler.compareCode, Code.ofInstructions_cons, Code.ofInstructions_nil,
    List.append_nil, codeAt_append] at hcode
  obtain ⟨hbranch, hzero, hjump, hone⟩ := hcode
  have hfirst := reaches_branch hstack (by omega) hbranch
  rw [hsize] at hzero hjump hone
  cases hholds : test.holds a b with
  | true =>
    rw [hholds, if_pos rfl] at hfirst
    exact hfirst.trans (reaches_ofConst (s := s.moved (s.pc + 7) stack) hone)
  | false =>
    rw [hholds] at hfirst
    -- 0 is pushed, and the code that pushes 1 is jumped over
    refine hfirst.trans ((reaches_ofConst (s := s.moved (s.pc + 3) stack) hzero).trans ?_)
    exact reaches_jump (s := s.moved (s.pc + 4) (stack.push 0)) hend hjump

end Machine
end MJ
