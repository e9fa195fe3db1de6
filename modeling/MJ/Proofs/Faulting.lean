import MJ.Proofs.Commit

/-!
# What a fault leaves behind

An instruction that faults has popped operands, and may have read a line of input.  It has done
nothing else, whichever instruction it is and whatever made it fault.  The failure that a run
reports names that instruction, although the program counter has already moved past it.

## Main results

* `Machine.popped_of_error` — a step that fails pops and reads, and moves at most past the
  instruction.
* `Machine.runFor_eq_stopped` — a run stops where a step fails, and only there.
* `Machine.fault_only_pops` — **a fault commits nothing but pops, and is reported where it struck.**
-/

namespace MJ
namespace Machine

variable {limits : Limits} {code : Array UInt8}

/-! ### Steps that fail -/

/-- A step that fails has popped words and read input.  The program counter is where it was if there
was no instruction to execute, and past the instruction otherwise. -/
theorem popped_of_error {s t : State} {cause : Stop} (h : step limits code s = .error cause t) :
    ∃ pc, Popped { s with steps := s.steps + 1, pc := pc } t ∧
      (pc = s.pc ∨ ∃ i, fetch code s.pc = .ok i ∧ pc = s.pc + i.size) := by
  rcases step_cases limits code s with ⟨cause', -, hstop⟩ | ⟨i, -, hfetch, hstep⟩
  · obtain ⟨-, rfl⟩ := EStateM.Result.error.inj (hstop.symm.trans h)
    exact ⟨s.pc, .refl _, Or.inl rfl⟩
  · have hcommitted := execute_committed limits i (s.fetched i)
    rw [← hstep, h] at hcommitted
    exact ⟨s.pc + i.size, hcommitted.1, Or.inr ⟨i, hfetch, rfl⟩⟩

/-! ### Runs that stop -/

/-- A run stops where a step fails, and only there.  By induction on the number of steps in both
directions: the first step is made, or it is the one that fails. -/
theorem runFor_eq_stopped {n pc : Nat} {cause : Stop} {s t : State} :
    runFor limits code n s = ⟨.stopped pc cause, t⟩ ↔
      ∃ m u, m < n ∧ runFor limits code m s = ⟨.unfinished, u⟩ ∧
        step limits code u = .error cause t ∧ pc = u.pc := by
  induction n generalizing s with
  | zero =>
    constructor
    · intro h
      cases h
    · rintro ⟨m, u, hm, -⟩
      exact absurd hm (Nat.not_lt_zero m)
  | succ n ih =>
    constructor
    · intro h
      rw [runFor] at h
      -- the step is made, or it ends the run, or it is the one that fails
      split at h
      · rename_i s' hstep
        obtain ⟨m, u, hm, hrun, hlast⟩ := ih.mp h
        refine ⟨m + 1, u, by omega, ?_, hlast⟩
        rw [runFor, hstep]
        exact hrun
      · cases h
      · rename_i hstep
        cases h
        exact ⟨0, s, Nat.succ_pos n, rfl, hstep, rfl⟩
    · rintro ⟨m, u, hm, hrun, hlast, rfl⟩
      cases m with
      | zero =>
        cases hrun
        rw [runFor, hlast]
      | succ m =>
        rw [runFor] at hrun ⊢
        split at hrun
        · exact ih.mpr ⟨m, u, by omega, hrun, hlast, rfl⟩
        · cases hrun
        · cases hrun

/-- The failure of a run is that of the fault that stopped it. -/
theorem failure?_eq_some {o : Outcome} {f : Failure} :
    o.failure? = some f ↔
      o.ending = .stopped f.pc (.fault f.fault) ∧ f.callStack = o.state.returns.toList := by
  unfold Outcome.failure?
  constructor
  · intro h
    split at h
    · rename_i hending
      cases h
      exact ⟨hending, rfl⟩
    · cases h
  · rintro ⟨hending, hcalls⟩
    rw [hending]
    simp only [← hcalls]

/-- **A fault commits nothing but pops, and is reported where it struck.**  A step that fails, for
whatever reason, leaves the heap, the static data, the frames, the return addresses and the output
as they were, and of the evaluation stack a lower part.  A run reports a failure exactly if one of
its steps faults; the failure has the address where that step started and the return addresses of
that moment, and the machine is left as the step left it. -/
theorem fault_only_pops (limits : Limits) (image : Image) (input : List UInt8) :
    (∀ code s t cause, step limits code s = .error cause t →
      t.stack.toList <+: s.stack.toList ∧ t.heap = s.heap ∧ t.statics = s.statics ∧
        t.frames = s.frames ∧ t.returns = s.returns ∧ t.output = s.output) ∧
    ∀ f, (run limits image input).failure? = some f ↔
      ∃ n s t, n < stepBound limits ∧
        runFor limits image.code.toArray n (.load image input) = ⟨.unfinished, s⟩ ∧
        step limits image.code.toArray s = .error (.fault f.fault) t ∧
        (run limits image input).state = t ∧
        f.pc = s.pc ∧ f.callStack = s.returns.toList := by
  refine ⟨?_, ?_⟩
  · intro code s t cause h
    obtain ⟨pc, hpopped, -⟩ := popped_of_error h
    exact ⟨hpopped.stack, hpopped.heap, hpopped.statics, hpopped.frames, hpopped.returns,
      hpopped.output⟩
  · intro f
    rw [failure?_eq_some]
    constructor
    · rintro ⟨hending, hcalls⟩
      have hrun : run limits image input
          = ⟨.stopped f.pc (.fault f.fault), (run limits image input).state⟩ := by
        rw [← hending]
      obtain ⟨n, s, hn, hs, hstep, hpc⟩ := runFor_eq_stopped.mp hrun
      -- the step that failed has not touched the return addresses
      obtain ⟨pc, hpopped, -⟩ := popped_of_error hstep
      exact ⟨n, s, _, hn, hs, hstep, rfl, hpc, hcalls.trans (congrArg Array.toList hpopped.returns)⟩
    · rintro ⟨n, s, t, hn, hs, hstep, -, hpc, hcalls⟩
      have hrun : run limits image input = ⟨.stopped f.pc (.fault f.fault), t⟩ :=
        runFor_eq_stopped.mpr ⟨n, s, hn, hs, hstep, hpc⟩
      obtain ⟨pc, hpopped, -⟩ := popped_of_error hstep
      rw [hrun]
      exact ⟨rfl, hcalls.trans (congrArg Array.toList hpopped.returns).symm⟩

/-- The image of a procedure that stores 7 in a field of no object, called from the main one. -/
def nullStore : Image :=
  .ofSegments (Code.ofInstructions [.call 4, .ret, .const 0, .const 7, .putField 0]) [] 0

/-- The store at address 14 faults when both operands are popped.  The program counter has moved on
to 17, and the call would return to 3. -/
theorem fault_only_pops_null_store : ∃ s t,
    step ⟨some 5, 9, 9, 9⟩ nullStore.code.toArray s = .error (.fault .nullReference) t ∧
      14 = s.pc ∧ t.pc = 17 ∧ [3] = s.returns.toList ∧ t.stack = #[] ∧
      t.stack.toList <+: s.stack.toList ∧ t.heap = s.heap ∧ t.returns = s.returns := by
  obtain ⟨hpops, hreport⟩ := fault_only_pops ⟨some 5, 9, 9, 9⟩ nullStore []
  have hfailure : (run ⟨some 5, 9, 9, 9⟩ nullStore []).failure?
      = some ⟨.nullReference, 14, [3]⟩ := by decide +kernel
  obtain ⟨n, s, t, -, -, hstep, rfl, hpc, hcalls⟩ := (hreport _).mp hfailure
  obtain ⟨hstack, hheap, -, -, hreturns, -⟩ := hpops _ _ _ _ hstep
  exact ⟨s, _, hstep, hpc, by decide +kernel, hcalls, by decide +kernel, hstack, hheap, hreturns⟩

end Machine
end MJ
