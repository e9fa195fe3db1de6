import MJ.Proofs.Commit

/-!
# Open calls and frames

A call puts its return address on top of those of the calls that are open, and `enter` puts a frame
on top of the open frames.  Only a return and an `exit` take them off again, and an instruction
changes no frame but the innermost.  So what lies below stays as it is for as long as the stack
above it is not used up, whatever code is run.

## Main definitions

* `Machine.Segment` — a part of a run in all of whose states something holds.

## Main results

* `Machine.returns_of_step`, `Machine.frames_of_step`, `Machine.statics_of_step` — which
  instructions change calls, frames and static words, and how.
* `Machine.Segment.returns`, `Machine.Segment.frames` — what a part of a run keeps.
* `Machine.resumes_after_call`, `Machine.frames_after_exit` — what the end of an activation brings
  back.
* `Machine.exists_rise` — whatever is open was opened.
* `Machine.activations_nested` — **a return resumes after its call, and an exit brings back the
  frames of its enter.**
-/

namespace MJ
namespace Machine

variable {limits : Limits} {code : Array UInt8}

/-! ### Steps -/

/-- An array that is not empty ends in an element. -/
theorem eq_push_of_back? {α : Type} {xs : Array α} {v : α} (h : xs.back? = some v) :
    xs = xs.pop.push v := by
  obtain ⟨ys, rfl⟩ := Array.back?_eq_some_iff.mp h
  rw [Array.pop_push]

/-- A step leaves the return addresses alone, or is a call that puts the address after itself on
top, or is a return that goes to the address on top. -/
theorem returns_of_step {s t : State} (h : step limits code s = .ok true t) :
    t.returns = s.returns ∨
      (∃ n, fetch code s.pc = .ok (.call n) ∧
        t.returns = s.returns.push (s.pc + (Instruction.call n).size)) ∨
      (fetch code s.pc = .ok .ret ∧ s.returns = t.returns.push t.pc) := by
  obtain ⟨i, -, hfetch, u, hpopped, hcommit⟩ := change_of_step h
  have hreturns : u.returns = s.returns := hpopped.returns
  cases hcommit with
  | call n hi hcalls =>
    subst hi
    refine Or.inr (Or.inl ⟨n, hfetch, ?_⟩)
    rw [hreturns, hpopped.pc]
    rfl
  | ret address hi hback =>
    subst hi
    refine Or.inr (Or.inr ⟨hfetch, ?_⟩)
    rw [← hreturns]
    exact eq_push_of_back? hback
  | _ => exact Or.inl hreturns

/-- A step leaves the static data alone, or is a `putstatic` that writes one word. -/
theorem statics_of_step {s t : State} (h : step limits code s = .ok true t) :
    t.statics = s.statics ∨ ∃ n v, fetch code s.pc = .ok (.putStatic n) ∧
      t.statics = writeAt s.statics (Instruction.address n * wordSize) (Width.s32.encode v) := by
  obtain ⟨i, -, hfetch, u, hpopped, hcommit⟩ := change_of_step h
  have hstatics : u.statics = s.statics := hpopped.statics
  cases hcommit with
  | setStatic n v hi haddress =>
    subst hi
    refine Or.inr ⟨n, v, hfetch, ?_⟩
    rw [← hstatics]
  | _ => exact Or.inl hstatics

/-- A step changes at most the innermost frame, or is an `enter` that puts a frame on top, or is an
`exit` that takes one off. -/
theorem frames_of_step {s t : State} (h : step limits code s = .ok true t) :
    (t.frames.size = s.frames.size ∧ t.frames.pop = s.frames.pop) ∨
      (∃ params size frame, fetch code s.pc = .ok (.enter params size) ∧
        t.frames = s.frames.push frame) ∨
      (∃ frame, fetch code s.pc = .ok .exit ∧ s.frames = t.frames.push frame) := by
  obtain ⟨i, -, hfetch, u, hpopped, hcommit⟩ := change_of_step h
  have hframes : u.frames = s.frames := hpopped.frames
  cases hcommit with
  | setLocal frame slot v hframe hslot =>
    -- the innermost frame is taken off and put back, changed
    obtain ⟨below, hbelow⟩ := Array.back?_eq_some_iff.mp hframe
    refine Or.inl ⟨?_, ?_⟩
    · rw [← hframes, hbelow, Array.pop_push, Array.size_push, Array.size_push]
    · rw [← hframes, Array.pop_push]
  | enter params size frame hi =>
    subst hi
    refine Or.inr (Or.inl ⟨params, size, frame, hfetch, ?_⟩)
    rw [hframes]
  | exit frame hi hframe =>
    subst hi
    refine Or.inr (Or.inr ⟨frame, hfetch, ?_⟩)
    rw [← hframes]
    exact eq_push_of_back? hframe
  | _ => exact Or.inl ⟨congrArg Array.size hframes, congrArg Array.pop hframes⟩

/-! ### Parts of runs -/

/-- The machine goes from one state to another, and something holds of both and of all states
between them.  Steps are added at the end, so that an induction follows the run as it is made. -/
inductive Segment (limits : Limits) (code : Array UInt8) (inside : State → Prop) (s : State) :
    State → Prop
  | start (h : inside s) : Segment limits code inside s s
  | step {t u : State} (hrest : Segment limits code inside s t)
    (hstep : Machine.step limits code t = .ok true u) (h : inside u) :
    Segment limits code inside s u

namespace Segment

variable {inside : State → Prop} {s t : State}

theorem last (h : Segment limits code inside s t) : inside t := by
  cases h with
  | start h => exact h
  | step _ _ h => exact h

theorem first (h : Segment limits code inside s t) : inside s := by
  induction h with
  | start h => exact h
  | step _ _ _ ih => exact ih

/-- While more than `k` calls are open, the return address of the `k`-th and those below it stay.  A
return may take off only what lies above them. -/
theorem returns {k : Nat} (h : Segment limits code (fun u => k < u.returns.size) s t) {i : Nat}
    (hi : i ≤ k) : t.returns[i]? = s.returns[i]? := by
  induction h with
  | start => rfl
  | @step t u hrest hstep hu ih =>
    have ht : k < t.returns.size := hrest.last
    rw [← ih]
    rcases returns_of_step hstep with hsame | ⟨n, -, hpush⟩ | ⟨-, hpush⟩
    · rw [hsame]
    · rw [hpush, Array.getElem?_push_lt (by omega), Array.getElem?_eq_getElem]
    · rw [hpush, Array.getElem?_push_lt (by omega), Array.getElem?_eq_getElem]

/-- While more than `k` frames are open, the first `k` of them stay.  The next one may be the
innermost, and so its locals may change. -/
theorem frames {k : Nat} (h : Segment limits code (fun u => k < u.frames.size) s t) {i : Nat}
    (hi : i < k) : t.frames[i]? = s.frames[i]? := by
  induction h with
  | start => rfl
  | @step t u hrest hstep hu ih =>
    have ht : k < t.frames.size := hrest.last
    rw [← ih]
    rcases frames_of_step hstep with ⟨hsize, hbelow⟩ | ⟨_, _, frame, -, hpush⟩ | ⟨frame, -, hpush⟩
    · have hpop : u.frames.pop[i]? = t.frames.pop[i]? := by rw [hbelow]
      rwa [Array.getElem?_pop, if_pos (by omega), Array.getElem?_pop, if_pos (by omega)] at hpop
    · rw [hpush, Array.getElem?_push_lt (by omega), Array.getElem?_eq_getElem]
    · rw [hpush, Array.getElem?_push_lt (by omega), Array.getElem?_eq_getElem]

end Segment

/-! ### Matching calls and frames -/

/-- Arrays that agree up to their last elements are equal. -/
theorem eq_of_push_getElem? {α : Type} {xs ys : Array α} {v w : α} (hsize : xs.size = ys.size)
    (h : ∀ i, i ≤ ys.size → (xs.push v)[i]? = (ys.push w)[i]?) : xs = ys ∧ v = w := by
  have hlast := h ys.size (Nat.le_refl _)
  rw [Array.getElem?_push_size, ← hsize, Array.getElem?_push_size] at hlast
  obtain rfl := Option.some.inj hlast
  refine ⟨Array.ext_getElem? fun i => ?_, rfl⟩
  by_cases hi : i < ys.size
  · have hentry := h i (Nat.le_of_lt hi)
    rwa [Array.getElem?_push_lt (hsize ▸ hi), Array.getElem?_push_lt hi,
      ← Array.getElem?_eq_getElem, ← Array.getElem?_eq_getElem] at hentry
  · rw [Array.getElem?_eq_none (by omega), Array.getElem?_eq_none (by omega)]

/-- The return that closes a call goes on after it.  That the two steps are a call and a return is
not assumed: the numbers of open calls leave nothing else. -/
theorem resumes_after_call {k : Nat} {s₀ s₁ s₂ s₃ : State}
    (hopen : step limits code s₀ = .ok true s₁)
    (hinside : Segment limits code (fun u => k < u.returns.size) s₁ s₂)
    (hclose : step limits code s₂ = .ok true s₃) (h₀ : s₀.returns.size = k)
    (h₃ : s₃.returns.size = k) :
    ∃ n, fetch code s₀.pc = .ok (.call n) ∧ fetch code s₂.pc = .ok .ret ∧
      s₃.pc = s₀.pc + (Instruction.call n).size ∧ s₃.returns = s₀.returns := by
  have h₁ : k < s₁.returns.size := hinside.first
  have h₂ : k < s₂.returns.size := hinside.last
  rcases returns_of_step hopen with hsame | ⟨n, hcall, hpush⟩ | ⟨-, hpop⟩
  · rw [hsame] at h₁
    omega
  · rcases returns_of_step hclose with hsame | ⟨_, -, hpush'⟩ | ⟨hret, hpop⟩
    · rw [hsame] at h₃
      omega
    · rw [hpush', Array.size_push] at h₃
      omega
    · -- what the call has pushed, and all below it, is still there when the return pops it
      have hkept : ∀ i, i ≤ s₀.returns.size → (s₃.returns.push s₃.pc)[i]?
          = (s₀.returns.push (s₀.pc + (Instruction.call n).size))[i]? := by
        intro i hi
        rw [← hpop, ← hpush]
        exact hinside.returns (h₀ ▸ hi)
      obtain ⟨hreturns, hpc⟩ := eq_of_push_getElem? (h₃.trans h₀.symm) hkept
      exact ⟨n, hcall, hret, hpc, hreturns⟩
  · rw [hpop, Array.size_push] at h₀
    omega

/-- The exit that drops a frame brings back the frames below it.  As with calls, the numbers of open
frames say which instructions the two steps are. -/
theorem frames_after_exit {k : Nat} {s₀ s₁ s₂ s₃ : State}
    (hopen : step limits code s₀ = .ok true s₁)
    (hinside : Segment limits code (fun u => k < u.frames.size) s₁ s₂)
    (hclose : step limits code s₂ = .ok true s₃) (h₀ : s₀.frames.size = k)
    (h₃ : s₃.frames.size = k) :
    ∃ params size, fetch code s₀.pc = .ok (.enter params size) ∧
      fetch code s₂.pc = .ok .exit ∧ s₃.frames = s₀.frames := by
  have h₁ : k < s₁.frames.size := hinside.first
  have h₂ : k < s₂.frames.size := hinside.last
  rcases frames_of_step hopen with ⟨hsize, -⟩ | ⟨params, size, frame, henter, hpush⟩ | ⟨_, -, hpop⟩
  · omega
  · rcases frames_of_step hclose with ⟨hsize, -⟩ | ⟨_, _, _, -, hpush'⟩ | ⟨frame', hexit, hpop⟩
    · omega
    · rw [hpush', Array.size_push] at h₃
      omega
    · -- the frame on top may have changed in between, but it is the one that is dropped
      refine ⟨params, size, henter, hexit, Array.ext_getElem? fun i => ?_⟩
      by_cases hi : i < k
      · have hkept := hinside.frames hi
        rwa [hpop, hpush, Array.getElem?_push_lt (h₃ ▸ hi), Array.getElem?_push_lt (h₀ ▸ hi),
          ← Array.getElem?_eq_getElem, ← Array.getElem?_eq_getElem] at hkept
      · rw [Array.getElem?_eq_none (by omega), Array.getElem?_eq_none (by omega)]
  · rw [hpop, Array.size_push] at h₀
    omega

/-! ### Runs -/

/-- A run of one step more makes one step more at its end.  Runs are defined by their first step,
and segments grow by their last one. -/
theorem runFor_succ_unfinished {n : Nat} {s t : State} :
    runFor limits code (n + 1) s = ⟨.unfinished, t⟩ ↔
      ∃ u, runFor limits code n s = ⟨.unfinished, u⟩ ∧ step limits code u = .ok true t := by
  induction n generalizing s with
  | zero =>
    constructor
    · intro h
      refine ⟨s, rfl, ?_⟩
      rw [runFor] at h
      split at h
      · rename_i u hstep
        cases h
        exact hstep
      · cases h
      · cases h
    · rintro ⟨u, hs, hstep⟩
      cases hs
      rw [runFor, hstep]
      rfl
  | succ n ih =>
    -- both runs begin with the same step, and one that ends the run leaves nothing to show
    rw [runFor, runFor]
    split
    · exact ih
    · constructor
      · intro h
        cases h
      · rintro ⟨_, h, -⟩
        cases h
    · constructor
      · intro h
        cases h
      · rintro ⟨_, h, -⟩
        cases h

/-- A size that grows by at most one in a step, and has grown, passed each number on the way, and
has stayed above it since some moment.  By induction on the run: the last step stays above the
number, or is the one that passes it. -/
theorem exists_rise {size : State → Nat}
    (hstep : ∀ s t, step limits code s = .ok true t → size t ≤ size s + 1) {k n : Nat} {s t : State}
    (hrun : runFor limits code n s = ⟨.unfinished, t⟩) (hs : size s ≤ k) (ht : k < size t) :
    ∃ m s₀ s₁, runFor limits code m s = ⟨.unfinished, s₀⟩ ∧ size s₀ = k ∧
      step limits code s₀ = .ok true s₁ ∧ Segment limits code (fun u => k < size u) s₁ t := by
  induction n generalizing t with
  | zero =>
    cases hrun
    omega
  | succ n ih =>
    obtain ⟨u, hrun, hlast⟩ := runFor_succ_unfinished.mp hrun
    by_cases hu : k < size u
    · obtain ⟨m, s₀, s₁, hm, hsize, hopen, hinside⟩ := ih hrun hu
      exact ⟨m, s₀, s₁, hm, hsize, hopen, .step hinside hlast ht⟩
    · have hle := hstep u t hlast
      exact ⟨n, u, t, hrun, by omega, hlast, .start ht⟩

theorem size_returns_of_step {s t : State} (h : step limits code s = .ok true t) :
    t.returns.size ≤ s.returns.size + 1 := by
  rcases returns_of_step h with hsame | ⟨n, -, hpush⟩ | ⟨-, hpop⟩
  · rw [hsame]
    omega
  · rw [hpush]
    exact Nat.le_of_eq (Array.size_push _)
  · rw [hpop, Array.size_push]
    omega

theorem size_frames_of_step {s t : State} (h : step limits code s = .ok true t) :
    t.frames.size ≤ s.frames.size + 1 := by
  rcases frames_of_step h with ⟨hsize, -⟩ | ⟨_, _, _, -, hpush⟩ | ⟨_, -, hpop⟩
  · omega
  · rw [hpush]
    exact Nat.le_of_eq (Array.size_push _)
  · rw [hpop, Array.size_push]
    omega

/-- **Calls and frames are nested.**  While more than `k` calls are open, the return addresses of
the first `k` and of the next one do not change; so the return that leaves `k` calls open goes on
after the call that opened the next one.  While more than `k` frames are open, the first `k` do not
change; so the exit that leaves `k` frames brings back the frames that its enter found.  In a run
that starts with at most `k` calls or frames, each that is open above these was opened by such a
call or enter. -/
theorem activations_nested (limits : Limits) (code : Array UInt8) (k : Nat) :
    (∀ s t, Segment limits code (fun u => k < u.returns.size) s t →
      ∀ i, i ≤ k → t.returns[i]? = s.returns[i]?) ∧
    (∀ s₀ s₁ s₂ s₃, step limits code s₀ = .ok true s₁ →
      Segment limits code (fun u => k < u.returns.size) s₁ s₂ →
      step limits code s₂ = .ok true s₃ → s₀.returns.size = k → s₃.returns.size = k →
      ∃ n, fetch code s₀.pc = .ok (.call n) ∧ fetch code s₂.pc = .ok .ret ∧
        s₃.pc = s₀.pc + (Instruction.call n).size ∧ s₃.returns = s₀.returns) ∧
    (∀ s n t, runFor limits code n s = ⟨.unfinished, t⟩ → s.returns.size ≤ k →
      k < t.returns.size → ∃ m s₀ s₁, runFor limits code m s = ⟨.unfinished, s₀⟩ ∧
        s₀.returns.size = k ∧ step limits code s₀ = .ok true s₁ ∧
        Segment limits code (fun u => k < u.returns.size) s₁ t) ∧
    (∀ s t, Segment limits code (fun u => k < u.frames.size) s t →
      ∀ i, i < k → t.frames[i]? = s.frames[i]?) ∧
    (∀ s₀ s₁ s₂ s₃, step limits code s₀ = .ok true s₁ →
      Segment limits code (fun u => k < u.frames.size) s₁ s₂ →
      step limits code s₂ = .ok true s₃ → s₀.frames.size = k → s₃.frames.size = k →
      ∃ params size, fetch code s₀.pc = .ok (.enter params size) ∧
        fetch code s₂.pc = .ok .exit ∧ s₃.frames = s₀.frames) ∧
    (∀ s n t, runFor limits code n s = ⟨.unfinished, t⟩ → s.frames.size ≤ k →
      k < t.frames.size → ∃ m s₀ s₁, runFor limits code m s = ⟨.unfinished, s₀⟩ ∧
        s₀.frames.size = k ∧ step limits code s₀ = .ok true s₁ ∧
        Segment limits code (fun u => k < u.frames.size) s₁ t) := by
  refine ⟨fun s t h i => h.returns, fun s₀ s₁ s₂ s₃ => resumes_after_call, ?_,
    fun s t h i => h.frames, fun s₀ s₁ s₂ s₃ => frames_after_exit, ?_⟩
  · intro s n t hrun hs ht
    exact exists_rise (fun _ _ => size_returns_of_step) hrun hs ht
  · intro s n t hrun hs ht
    exact exists_rise (fun _ _ => size_frames_of_step) hrun hs ht

/-- A procedure keeps 5 in its local and calls another, which keeps -1 in its own. -/
def twoLocals : Array UInt8 :=
  #[48, 0, 1, 20, 7, 46, 0, 10, 49, 47, 48, 0, 1, 21, 7, 49, 47]

/-- The state after a number of steps of the two procedures. -/
def twoLocalsAfter (n : Nat) : State :=
  (runFor .standard twoLocals n (.load (.ofSegments twoLocals.toList [] 0) [])).state

/-- The return of the called procedure goes on after the call, and its exit brings back the frame
with the 5. -/
theorem activations_nested_two_locals :
    (step .standard twoLocals (twoLocalsAfter 3) = .ok true (twoLocalsAfter 4) ∧
      Segment .standard twoLocals (fun u => 0 < u.returns.size) (twoLocalsAfter 4)
        (twoLocalsAfter 8) ∧
      step .standard twoLocals (twoLocalsAfter 8) = .ok true (twoLocalsAfter 9) ∧
      (twoLocalsAfter 9).pc = (twoLocalsAfter 3).pc + 3 ∧
      (twoLocalsAfter 9).returns = (twoLocalsAfter 3).returns) ∧
    Segment .standard twoLocals (fun u => 1 < u.frames.size) (twoLocalsAfter 5) (twoLocalsAfter 7) ∧
      (twoLocalsAfter 7).frames = #[#[5], #[-1]] ∧
      step .standard twoLocals (twoLocalsAfter 7) = .ok true (twoLocalsAfter 8) ∧
      (twoLocalsAfter 8).frames = (twoLocalsAfter 4).frames := by
  have hstep : ∀ n, n < 9 →
      step .standard twoLocals (twoLocalsAfter n) = .ok true (twoLocalsAfter (n + 1)) := by
    decide +kernel
  have hcalls : ∀ n, n < 9 → 4 ≤ n → 0 < (twoLocalsAfter n).returns.size := by decide +kernel
  have hframes : ∀ n, n < 8 → 5 ≤ n → 1 < (twoLocalsAfter n).frames.size := by decide +kernel
  have hcalled : Segment .standard twoLocals (fun u => 0 < u.returns.size) (twoLocalsAfter 4)
      (twoLocalsAfter 8) :=
    .step (.step (.step (.step (.start (hcalls 4 (by omega) (by omega)))
      (hstep 4 (by omega)) (hcalls 5 (by omega) (by omega)))
      (hstep 5 (by omega)) (hcalls 6 (by omega) (by omega)))
      (hstep 6 (by omega)) (hcalls 7 (by omega) (by omega)))
      (hstep 7 (by omega)) (hcalls 8 (by omega) (by omega))
  have hentered : Segment .standard twoLocals (fun u => 1 < u.frames.size) (twoLocalsAfter 5)
      (twoLocalsAfter 7) :=
    .step (.step (.start (hframes 5 (by omega) (by omega)))
      (hstep 5 (by omega)) (hframes 6 (by omega) (by omega)))
      (hstep 6 (by omega)) (hframes 7 (by omega) (by omega))
  obtain ⟨-, hreturn, -⟩ := activations_nested .standard twoLocals 0
  obtain ⟨n, -, -, hpc, hreturns⟩ := hreturn _ _ _ _ (hstep 3 (by omega)) hcalled
    (hstep 8 (by omega)) (by decide +kernel) (by decide +kernel)
  obtain ⟨-, -, -, -, hexit, -⟩ := activations_nested .standard twoLocals 1
  obtain ⟨-, -, -, -, hsame⟩ := hexit _ _ _ _ (hstep 4 (by omega)) hentered
    (hstep 7 (by omega)) (by decide +kernel) (by decide +kernel)
  exact ⟨⟨hstep 3 (by omega), hcalled, hstep 8 (by omega), hpc, hreturns⟩, hentered,
    by decide +kernel, hstep 7 (by omega), hsame⟩

end Machine
end MJ
