import MJ.Proofs.Commit

/-!
# Runs under limits

Limits cut a run short and do nothing else.  A run that ends for another reason ends the same way
under larger limits; a limit on steps stops a run after exactly so many instructions; and the
stack of words and the stack of return addresses never outgrow their limits by more than the one
word that an instruction pushes before the next check.

## Main definitions

* `Limits.Within` — limits that are not above others.
* `Fault.isExhaustion`, `Machine.Outcome.IsExhausted` — a limit was reached.
* `Machine.Relaxes` — an action that does the same as another that a limit may stop.
* `Machine.executed` — how many instructions a run executes.

## Main results

* `Machine.runFor_of_within` — larger limits do not change a run that no limit stops.
* `Machine.runFor_limited` — a run under a limit on steps is a part of the run without it.
* `Machine.limits_only_cut_short` — **limits only cut runs short.**
* `Machine.resources_bounded` — **the bounds on resources hold at every moment.**
-/

namespace MJ

/-- Whether a fault is that a limit was reached.  Besides the limits that are checked before each
step, there are those on calls and on the heap. -/
def Fault.isExhaustion : Fault → Bool
  | stepLimit _ | stackLimit _ | callDepth _ | heapExhausted _ => true
  | _ => false

/-- Limits of which none is above that of the other; no limit on steps is above every limit. -/
structure Limits.Within (limits limits' : Limits) : Prop where
  steps : ∀ n, limits'.maxSteps = some n → ∃ m, limits.maxSteps = some m ∧ m ≤ n
  stack : limits.maxStack ≤ limits'.maxStack
  calls : limits.maxCalls ≤ limits'.maxCalls
  heap : limits.heapWords ≤ limits'.heapWords

theorem Limits.Within.allow {limits limits' : Limits} (h : limits.Within limits')
    {steps words : Nat} (hallow : limits.Allow steps words) : limits'.Allow steps words := by
  refine ⟨fun n hn => ?_, Nat.le_trans hallow.2 h.stack⟩
  obtain ⟨m, hm, hle⟩ := h.steps n hn
  exact Nat.le_trans (hallow.1 m hm) hle

namespace Machine

/-- A run that a limit cut short. -/
def Outcome.IsExhausted (o : Outcome) : Prop :=
  ∃ pc cause, o.ending = .stopped pc (.fault cause) ∧ cause.isExhaustion = true

variable {code : Array UInt8} {limits limits' : Limits}

/-! ### Larger limits -/

/-- The second action does what the first one does, unless a limit stops the first.  Sequences of
such actions are related so, which leaves the three places where limits are looked at. -/
def Relaxes {α : Type} (x x' : Exec α) : Prop :=
  ∀ s, x' s = x s ∨ ∃ cause t, x s = .error (.fault cause) t ∧ cause.isExhaustion = true

namespace Relaxes

theorem refl {α : Type} (x : Exec α) : Relaxes x x := fun _ => Or.inl rfl

theorem bind {α β : Type} {x x' : Exec α} {f f' : α → Exec β} (hx : Relaxes x x')
    (hf : ∀ v, Relaxes (f v) (f' v)) : Relaxes (x >>= f) (x' >>= f') := by
  intro s
  rcases hx s with hsame | ⟨cause, t, hstop, hcause⟩
  · cases h : x s with
    | error cause t =>
      rw [h] at hsame
      rw [Action.bind_eq_error.mpr (Or.inl hsame), Action.bind_eq_error.mpr (Or.inl h)]
      exact Or.inl rfl
    | ok v t =>
      rw [h] at hsame
      rw [Action.bind_of_ok hsame, Action.bind_of_ok h]
      exact hf v t
  · exact Or.inr ⟨cause, t, Action.bind_eq_error.mpr (Or.inl hstop), hcause⟩

theorem checkLimits (h : limits.Within limits') :
    Relaxes (Machine.checkLimits limits) (Machine.checkLimits limits') := by
  intro s
  rcases checkLimits_split limits s with ⟨m, -, -, hstop⟩ | ⟨-, -, hstop⟩ | ⟨hallow, hcheck⟩
  · exact Or.inr ⟨_, _, hstop, rfl⟩
  · exact Or.inr ⟨_, _, hstop, rfl⟩
  · rw [hcheck, checkLimits_of_allow (h.allow hallow)]
    exact Or.inl rfl

theorem allocate (h : limits.Within limits') (words : Nat) :
    Relaxes (Machine.allocate limits words) (Machine.allocate limits' words) := by
  intro s
  unfold Machine.allocate
  dsimp only
  by_cases hfull : limits.heapWords < s.heap.size + words
  · rw [if_pos hfull]
    exact Or.inr ⟨_, _, rfl, rfl⟩
  · have hroom : ¬ limits'.heapWords < s.heap.size + words := by
      have := h.heap
      omega
    rw [if_neg hfull, if_neg hroom]
    exact Or.inl rfl

theorem call (h : limits.Within limits') (target : Nat) :
    Relaxes (Machine.call limits target) (Machine.call limits' target) := by
  intro s
  unfold Machine.call
  by_cases hdeep : limits.maxCalls ≤ s.returns.size
  · rw [if_pos hdeep]
    exact Or.inr ⟨_, _, rfl, rfl⟩
  · have hroom : ¬ limits'.maxCalls ≤ s.returns.size := by
      have := h.calls
      omega
    rw [if_neg hdeep, if_neg hroom]
    exact Or.inl rfl

/-- Only three instructions look at the limits. -/
theorem execute (h : limits.Within limits') (i : Instruction) :
    Relaxes (Machine.execute limits i) (Machine.execute limits' i) := by
  cases i with
  | new n => exact (allocate h _).bind fun _ => refl _
  | newArray kind =>
    refine (refl Machine.pop).bind fun length => ?_
    split
    · exact refl _
    · exact (allocate h _).bind fun _ => refl _
  | call n => exact (call h _).bind fun _ => refl _
  | _ => exact refl _

theorem step (h : limits.Within limits') (code : Array UInt8) :
    Relaxes (Machine.step limits code) (Machine.step limits' code) :=
  (checkLimits h).bind fun _ => (refl _).bind fun i => execute h i

end Relaxes

/-- Larger limits do not change a run that no limit stops.  By induction on the number of steps:
each step is the same under both, since the smaller limits do not stop it. -/
theorem runFor_of_within (h : limits.Within limits') (n : Nat) {s : State}
    (hrun : ¬ (runFor limits code n s).IsExhausted) :
    runFor limits' code n s = runFor limits code n s := by
  induction n generalizing s with
  | zero => rfl
  | succ n ih =>
    rcases Relaxes.step h code s with hstep | ⟨cause, t, hstep, hcause⟩
    · rw [runFor, runFor, hstep]
      rw [runFor] at hrun
      cases hresult : step limits code s with
      | error cause t => rfl
      | ok goesOn t =>
        cases goesOn with
        | true =>
          rw [hresult] at hrun
          exact ih hrun
        | false => rfl
    · -- a step that differs is stopped by a limit, and then so is the run
      refine absurd ⟨s.pc, cause, ?_, hcause⟩ hrun
      rw [runFor, hstep]

/-! ### The length of a run -/

/-- A run that has ended is not changed by more steps, so that its outcome does not depend on how
many were allowed for. -/
theorem runFor_add {n : Nat} {s : State} (h : (runFor limits code n s).ending ≠ .unfinished)
    (k : Nat) : runFor limits code (n + k) s = runFor limits code n s := by
  fun_induction runFor limits code n s with
  | case1 s => exact absurd rfl h
  | case2 n s t hstep ih =>
    rw [Nat.succ_add, runFor, hstep]
    exact ih h
  | case3 n s t hstep => rw [Nat.succ_add, runFor, hstep]
  | case4 n s pc cause t hstep => rw [Nat.succ_add, runFor, hstep]

/-- A step that is made is counted. -/
theorem steps_of_step {s t : State} (h : step limits code s = .ok true t) :
    t.steps = s.steps + 1 := by
  obtain ⟨i, -, -, u, hpopped, hcommit⟩ := change_of_step h
  cases hcommit <;> exact hpopped.steps

/-- A run that has not ended has made all its steps, and the counter shows them. -/
theorem steps_of_unfinished {n : Nat} {s : State}
    (h : (runFor limits code n s).ending = .unfinished) :
    (runFor limits code n s).state.steps = s.steps + n := by
  fun_induction runFor limits code n s with
  | case1 s => rfl
  | case2 n s t hstep ih => rw [ih h, steps_of_step hstep, Nat.add_right_comm, Nat.add_assoc]
  | case3 n s t hstep => cases h
  | case4 n s pc cause t hstep => cases h

/-- A step is refused when all steps are used up.  It is counted all the same, and so the counter
ends one above the limit. -/
theorem step_of_maxSteps {m : Nat} {s : State} (hmax : limits.maxSteps = some m)
    (hle : m ≤ s.steps) : step limits code s
      = .error (.fault (.stepLimit m)) { s with steps := s.steps + 1 } := by
  rcases step_cases limits code s with ⟨cause, hprevented, hstop⟩ | ⟨i, hallow, -⟩
  · cases hprevented with
    | stepLimit m' hmax' =>
      obtain rfl := Option.some.inj (hmax.symm.trans hmax')
      exact hstop
    | stackLimit hsteps => exact absurd (hsteps m hmax) (by omega)
    | fetch _ hallow => exact absurd (hallow.1 m hmax) (by omega)
  · exact absurd (hallow.1 m hmax) (by omega)

/-- A run under a limit on steps ends, at the latest with the step after the last one that is
allowed. -/
theorem ended_of_maxSteps {m : Nat} (hmax : limits.maxSteps = some m) {n : Nat} {s : State}
    (hle : m ≤ s.steps + n) : (runFor limits code (n + 1) s).ending ≠ .unfinished := by
  induction n generalizing s with
  | zero =>
    rw [runFor, step_of_maxSteps hmax hle]
    exact Ending.noConfusion
  | succ n ih =>
    rw [runFor]
    cases hresult : step limits code s with
    | error cause t => exact Ending.noConfusion
    | ok goesOn t =>
      cases goesOn with
      | true => exact ih (by rw [steps_of_step hresult]; omega)
      | false => exact Ending.noConfusion

/-- How many instructions a run of at most `n` steps executes.  A step that the check of the limits
stops does not come to an instruction. -/
def executed (limits : Limits) (code : Array UInt8) : (n : Nat) → State → Nat
  | 0, _ => 0
  | n + 1, s =>
    match checkLimits limits s with
    | .error _ _ => 0
    | .ok _ _ =>
      match step limits code s with
      | .ok true t => executed limits code n t + 1
      | .ok false _ | .error _ _ => 1

/-- No more instructions are executed than there are steps left.  By induction on the steps: each
instruction that is executed raises the counter. -/
theorem executed_le {m : Nat} (hmax : limits.maxSteps = some m) (n : Nat) (s : State) :
    executed limits code n s ≤ m - s.steps := by
  induction n generalizing s with
  | zero => exact Nat.zero_le _
  | succ n ih =>
    rw [executed]
    rcases checkLimits_split limits s with ⟨_, -, -, hcheck⟩ | ⟨-, -, hcheck⟩ | ⟨hallow, hcheck⟩
    · rw [hcheck]
      exact Nat.zero_le _
    · rw [hcheck]
      exact Nat.zero_le _
    · rw [hcheck]
      have hsteps := hallow.1 m hmax
      dsimp only
      split
      · rename_i t hstep
        have hrest := ih t
        rw [steps_of_step hstep] at hrest
        omega
      · omega
      · omega

/-! ### A limit on steps -/

/-- What becomes of an outcome if the next step is refused. -/
def Outcome.refused (m : Nat) (o : Outcome) : Outcome :=
  match o.ending with
  | .unfinished =>
    ⟨.stopped o.state.pc (.fault (.stepLimit m)), { o.state with steps := o.state.steps + 1 }⟩
  | _ => o

theorem Outcome.refused_of_ne {m : Nat} {o : Outcome} (h : o.ending ≠ .unfinished) :
    o.refused m = o := by
  unfold Outcome.refused
  split
  · rename_i hunfinished
    exact absurd hunfinished h
  · rfl

theorem Outcome.refused_of_eq {m : Nat} {o : Outcome} (h : o.ending = .unfinished) :
    o.refused m = ⟨.stopped o.state.pc (.fault (.stepLimit m)),
      { o.state with steps := o.state.steps + 1 }⟩ := by
  rw [Outcome.refused, h]

/-- Before the steps are used up, a limit on them makes no difference. -/
theorem step_of_steps_lt {m : Nat} {s : State} (h : s.steps < m) :
    step { limits with maxSteps := some m } code s
      = step { limits with maxSteps := none } code s := by
  have hcheck : checkLimits { limits with maxSteps := some m } s
      = checkLimits { limits with maxSteps := none } s := by
    have hfilter : (some m).filter (· < s.steps + 1) = none := by
      rw [Option.filter_eq_none_iff]
      intro m' hm
      obtain rfl := Option.some.inj hm
      simpa using Nat.succ_le_of_lt h
    unfold checkLimits
    simp only [hfilter, Option.filter_none]
  have hexecute : ∀ i, execute { limits with maxSteps := some m } i
      = execute { limits with maxSteps := none } i := by
    intro i
    cases i <;> rfl
  show EStateM.bind _ _ s = EStateM.bind _ _ s
  simp only [EStateM.bind, hcheck, hexecute]

/-- A run under a limit on steps is the run without it, cut after so many steps.  The counter stands
in the state, and so the limit is compared with the steps so far and those to come. -/
theorem runFor_limited {m n : Nat} {s : State} (h : s.steps + n = m) :
    runFor { limits with maxSteps := some m } code (n + 1) s
      = (runFor { limits with maxSteps := none } code n s).refused m := by
  induction n generalizing s with
  | zero =>
    have hstop : step { limits with maxSteps := some m } code s
        = .error (.fault (.stepLimit m)) { s with steps := s.steps + 1 } :=
      step_of_maxSteps rfl (Nat.le_of_eq h.symm)
    simp only [runFor, hstop]
    rfl
  | succ n ih =>
    rw [runFor, runFor, step_of_steps_lt (by omega)]
    cases hresult : step { limits with maxSteps := none } code s with
    | error cause t => rfl
    | ok goesOn t =>
      cases goesOn with
      | true => exact ih (by rw [steps_of_step hresult]; omega)
      | false => rfl

/-- A run ends because its steps are used up only if they are limited, and the fault names this
limit. -/
theorem maxSteps_of_stepLimit {n k pc : Nat} {s : State}
    (h : (runFor limits code n s).ending = .stopped pc (.fault (.stepLimit k))) :
    limits.maxSteps = some k := by
  fun_induction runFor limits code n s with
  | case1 s => cases h
  | case2 n s t hstep ih => exact ih h
  | case3 n s t hstep => cases h
  | case4 n s pc' cause t hstep =>
    obtain ⟨-, rfl⟩ := Ending.stopped.inj h
    rcases step_cases limits code s with ⟨cause, hprevented, hstop⟩ | ⟨i, -, -, hexecute⟩
    · cases hstop.symm.trans hstep
      cases hprevented with
      | stepLimit _ hmax => exact hmax
      | fetch _ _ hfetch => cases isLimit_of_fetch hfetch
    · -- what an instruction does has nothing to do with the limit
      have hcommitted := execute_committed limits i (s.fetched i)
      rw [← hexecute, hstep] at hcommitted
      cases hcommitted.2

/-! ### The outcome of a run -/

/-- A run that no limit stops is the same under larger limits.  The limit on steps is a number of
sixty-four bits, as the counter of steps is. -/
theorem run_of_within {image : Image} {input : List UInt8} (h : limits.Within limits')
    (hcounted : ∀ m, limits.maxSteps = some m → m < UInt64.size)
    (hrun : ¬ (run limits image input).IsExhausted) :
    run limits' image input = run limits image input := by
  unfold run at hrun ⊢
  cases hmax : limits.maxSteps with
  | none =>
    have hmax' : limits'.maxSteps = none := by
      refine Option.eq_none_iff_forall_ne_some.mpr fun n hn => ?_
      obtain ⟨m, hm, -⟩ := h.steps n hn
      cases hmax.symm.trans hm
    have hbound : stepBound limits' = stepBound limits := by rw [stepBound, stepBound, hmax, hmax']
    rw [hbound]
    exact runFor_of_within h _ hrun
  | some m =>
    -- the larger limits allow for more steps, which the run does not need as it has ended
    have hbound : stepBound limits = m + 1 := by rw [stepBound, hmax]
    obtain ⟨k, hk⟩ : ∃ k, stepBound limits' = m + 1 + k := by
      refine ⟨stepBound limits' - (m + 1), (Nat.add_sub_cancel' ?_).symm⟩
      unfold stepBound
      split
      · rename_i n hn
        obtain ⟨m', hm', hle⟩ := h.steps n hn
        obtain rfl := Option.some.inj (hmax.symm.trans hm')
        exact Nat.succ_le_succ hle
      · exact hcounted m hmax
    rw [hbound] at hrun
    have hsame := runFor_of_within h _ hrun
    have hended : (runFor limits' image.code.toArray (m + 1) (.load image input)).ending
        ≠ .unfinished := by
      rw [hsame]
      exact ended_of_maxSteps hmax (Nat.le_add_left m _)
    rw [hbound, hk, runFor_add hended, hsame]

/-- **Limits only cut runs short.**  A run that no limit stops is the same under larger limits; a
limit on steps is a number of sixty-four bits, as the counter of steps is.  A run under a limit of
`m` steps ends because of it exactly if the first `m` steps of the run without it are all made and
do not end the run, and then it leaves the machine as these steps do. -/
theorem limits_only_cut_short (limits : Limits) (image : Image) (input : List UInt8) :
    (∀ limits', limits.Within limits' → (∀ m, limits.maxSteps = some m → m < UInt64.size) →
      ¬ (run limits image input).IsExhausted →
      run limits' image input = run limits image input) ∧
    ∀ m o, runFor { limits with maxSteps := none } image.code.toArray m (.load image input) = o →
      ((∃ pc k, (run { limits with maxSteps := some m } image input).ending
        = .stopped pc (.fault (.stepLimit k))) ↔ o.ending = .unfinished) ∧
      (o.ending = .unfinished → run { limits with maxSteps := some m } image input
        = ⟨.stopped o.state.pc (.fault (.stepLimit m)), { o.state with steps := m + 1 }⟩) := by
  refine ⟨fun limits' h hcounted hrun => run_of_within h hcounted hrun, ?_⟩
  rintro m o rfl
  have hrun : run { limits with maxSteps := some m } image input
      = (runFor { limits with maxSteps := none } image.code.toArray m
        (.load image input)).refused m :=
    runFor_limited (Nat.zero_add m)
  rw [hrun]
  refine ⟨⟨?_, fun h => ?_⟩, fun h => ?_⟩
  · -- without a limit on steps no run ends because of one, and so this one was cut
    rintro ⟨pc, k, h⟩
    refine Decidable.byContradiction fun hended => ?_
    rw [Outcome.refused_of_ne hended] at h
    cases maxSteps_of_stepLimit h
  · exact ⟨_, m, by rw [Outcome.refused_of_eq h]⟩
  · rw [Outcome.refused_of_eq h, steps_of_unfinished h]
    simp [State.load]

/-- The image of `1 / 0`. -/
def divisionByZero : Image :=
  .ofSegments (Code.ofInstructions [.const 1, .const 0, .arithmetic .div]) [] 0

/-- Three steps and two words on the stack are enough for the division to fault, and two steps are
not. -/
theorem limits_only_cut_short_division :
    Limits.Within ⟨some 3, 2, 0, 0⟩ .standard ∧
      (run ⟨some 3, 2, 0, 0⟩ divisionByZero []).failure? = some ⟨.divisionByZero, 10, []⟩ ∧
      run .standard divisionByZero [] = run ⟨some 3, 2, 0, 0⟩ divisionByZero [] ∧
      (∃ pc k, (run ⟨some 2, 2, 0, 0⟩ divisionByZero []).ending
        = .stopped pc (.fault (.stepLimit k))) ∧
      (run ⟨some 2, 2, 0, 0⟩ divisionByZero []).state.stack = #[1, 0] := by
  have hwithin : Limits.Within ⟨some 3, 2, 0, 0⟩ .standard :=
    ⟨fun n hn => (by cases hn), by decide, by decide, by decide⟩
  have hfailure : (run ⟨some 3, 2, 0, 0⟩ divisionByZero []).ending
      = .stopped 10 (.fault .divisionByZero) := by decide +kernel
  have hcounted : ∀ m, some 3 = some m → m < UInt64.size := by
    rintro m ⟨⟩
    decide
  have hended : ¬ (run ⟨some 3, 2, 0, 0⟩ divisionByZero []).IsExhausted := by
    rintro ⟨pc, cause, hstopped, hcause⟩
    cases hfailure.symm.trans hstopped
    cases hcause
  obtain ⟨hsame, hcut⟩ := limits_only_cut_short ⟨some 3, 2, 0, 0⟩ divisionByZero []
  obtain ⟨hiff, hstate⟩ := hcut 2 _ rfl
  have htwo : (runFor ⟨none, 2, 0, 0⟩ divisionByZero.code.toArray 2
      (.load divisionByZero [])).ending = .unfinished := by decide +kernel
  refine ⟨hwithin, by decide +kernel, hsame _ hwithin hcounted hended, hiff.mpr htwo, ?_⟩
  rw [hstate htwo]
  decide +kernel

/-! ### Bounds on resources -/

/-- The stack has at most the one word too many that the next step finds, and no more calls are open
than allowed. -/
structure Fits (limits : Limits) (s : State) : Prop where
  stack : s.stack.size ≤ limits.maxStack + 1
  returns : s.returns.size ≤ limits.maxCalls

theorem Popped.fits {s t : State} (h : Popped s t) (hs : Fits limits s) : Fits limits t :=
  ⟨Nat.le_trans h.size_le hs.stack, h.returns ▸ hs.returns⟩

/-- A change pushes at most one word, and opens a call only if that is allowed.  The stack has been
checked before the step, and there it fits without the word too many. -/
theorem Commit.fits {i : Instruction} {s t : State} (h : Commit limits i s t)
    (hstack : s.stack.size ≤ limits.maxStack) (hreturns : s.returns.size ≤ limits.maxCalls) :
    Fits limits t := by
  cases h with
  | push | newObject | newArray =>
    refine ⟨?_, hreturns⟩
    rw [Array.size_push]
    exact Nat.succ_le_succ hstack
  | call n hi hcalls =>
    refine ⟨Nat.le_succ_of_le hstack, ?_⟩
    rw [Array.size_push]
    exact hcalls
  | ret address hi hback =>
    refine ⟨Nat.le_succ_of_le hstack, ?_⟩
    rw [Array.size_pop]
    exact Nat.le_trans (Nat.sub_le _ _) hreturns
  | rest | setLocal | setStatic | setHeap | goto | enter | exit | write =>
    exact ⟨Nat.le_succ_of_le hstack, hreturns⟩

/-- What a step may result in: the stacks fit, and the last step of a run does not leave the one
word too many. -/
def Contained (limits : Limits) : EStateM.Result Stop State Bool → Prop
  | .ok true t => Fits limits t
  | .ok false t => Fits limits t ∧ t.stack.size ≤ limits.maxStack
  | .error _ t => Fits limits t

theorem contained_of_step {s : State} {result : EStateM.Result Stop State Bool}
    (h : Fits limits s) (hstep : step limits code s = result) : Contained limits result := by
  rcases step_cases limits code s with ⟨cause, -, hstop⟩ | ⟨i, hallow, -, hexecute⟩
  · rw [← hstep, hstop]
    exact ⟨h.stack, h.returns⟩
  · have hstarted : Fits limits (s.fetched i) := ⟨h.stack, h.returns⟩
    have hcommitted := execute_committed limits i (s.fetched i)
    rw [← hexecute, hstep] at hcommitted
    match result, hcommitted with
    | .ok true t, ⟨u, hpopped, hcommit⟩ =>
      exact hcommit.fits (Nat.le_trans hpopped.size_le hallow.2) (hpopped.fits hstarted).returns
    | .ok false t, ⟨hpopped, _⟩ =>
      exact ⟨hpopped.fits hstarted, Nat.le_trans hpopped.size_le hallow.2⟩
    | .error cause t, ⟨hpopped, _⟩ => exact hpopped.fits hstarted

/-- The stacks fit at every moment of a run, and without the one word too many when it returns. -/
theorem runFor_fits (n : Nat) {s : State} (h : Fits limits s) :
    Fits limits (runFor limits code n s).state ∧
      ((runFor limits code n s).ending = .returned →
        (runFor limits code n s).state.stack.size ≤ limits.maxStack) := by
  fun_induction runFor limits code n s with
  | case1 s =>
    refine ⟨h, fun hending => ?_⟩
    cases hending
  | case2 n s t hstep ih => exact ih (contained_of_step h hstep)
  | case3 n s t hstep =>
    obtain ⟨hfits, hstack⟩ := contained_of_step h hstep
    exact ⟨hfits, fun _ => hstack⟩
  | case4 n s pc cause t hstep =>
    refine ⟨contained_of_step h hstep, fun hending => ?_⟩
    cases hending

/-- **The bounds on resources hold at every moment.**  After any number of steps the stack has at
most one word more than allowed and no more calls are open than allowed; a run that returns leaves
no more words than allowed.  Under a limit of `m` steps every run ends, whatever the code, and
executes at most `m` instructions. -/
theorem resources_bounded (limits : Limits) (image : Image) (input : List UInt8) :
    (∀ n o, runFor limits image.code.toArray n (.load image input) = o →
      o.state.stack.size ≤ limits.maxStack + 1 ∧ o.state.returns.size ≤ limits.maxCalls ∧
      (o.ending = .returned → o.state.stack.size ≤ limits.maxStack)) ∧
    ∀ m, limits.maxSteps = some m →
      (run limits image input).ending ≠ .unfinished ∧
      (∀ n, m < n → runFor limits image.code.toArray n (.load image input)
        = run limits image input) ∧
      ∀ n, executed limits image.code.toArray n (.load image input) ≤ m := by
  refine ⟨?_, ?_⟩
  · rintro n o rfl
    have hload : Fits limits (.load image input) := ⟨Nat.zero_le _, Nat.zero_le _⟩
    obtain ⟨hfits, hreturned⟩ := runFor_fits n hload
    exact ⟨hfits.stack, hfits.returns, hreturned⟩
  · intro m hmax
    have hrun : run limits image input
        = runFor limits image.code.toArray (m + 1) (.load image input) := by
      rw [run, stepBound, hmax]
    have hended : (runFor limits image.code.toArray (m + 1) (.load image input)).ending
        ≠ .unfinished := ended_of_maxSteps hmax (Nat.le_add_left m _)
    rw [hrun]
    refine ⟨hended, fun n hn => ?_, fun n => executed_le hmax n _⟩
    -- a run that has ended stays as it is, however many steps it is given
    obtain ⟨k, rfl⟩ := Nat.exists_eq_add_of_le (Nat.succ_le_of_lt hn)
    exact runFor_add hended k

/-- A jump to itself is executed as often as allowed. -/
theorem resources_bounded_endless :
    (run ⟨some 4, 0, 0, 0⟩ (.ofSegments (Code.ofInstructions [.jump 0]) [] 0) []).ending
      ≠ .unfinished ∧
    ∀ n, executed ⟨some 4, 0, 0, 0⟩ (Code.ofInstructions [.jump 0]).toArray n
      (.load (.ofSegments (Code.ofInstructions [.jump 0]) [] 0) []) ≤ 4 := by
  obtain ⟨-, hsteps⟩ := resources_bounded ⟨some 4, 0, 0, 0⟩
    (.ofSegments (Code.ofInstructions [.jump 0]) [] 0) []
  exact ⟨(hsteps 4 rfl).1, (hsteps 4 rfl).2.2⟩

end Machine
end MJ
