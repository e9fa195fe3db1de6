import MJ.Proofs.Guarded.Agreement

/-!
# No run breaches a guard

The machine stays in sound states, so none of its guards ever fails, whatever the code, the static
segment, the start address and the input are.  A single operation is refused without a fault: a
number or a character that is to be printed in a field wider than 65535.

## Main definitions

* `Machine.PrintsWide` — the next step prints in too wide a field.
* `Machine.Guarded.after` — the state that the guarded machine is in after a number of steps.

## Main results

* `Machine.step_eq_wideField` — when a step is stopped by too wide a field.
* `Machine.Guarded.sound_of_step` — steps lead from sound states to sound states.
* `Machine.Guarded.run_unbreached` — **every step of a run completes or faults, unless it prints in
  too wide a field.**
-/

namespace MJ
namespace Machine

variable {limits : Limits} {code : Array UInt8}

/-! ### Fields that are too wide -/

/-- The next step prints a number or a character, the topmost word is the width of its field, and
that is more than 65535. -/
def PrintsWide (limits : Limits) (code : Array UInt8) (s : State) : Prop :=
  limits.Allow (s.steps + 1) s.stack.size ∧
    (∃ i, fetch code s.pc = .ok i ∧ i.printsField = true) ∧
    ∃ (below : Array Word) (v width : Word),
      s.stack = (below.push v).push width ∧ 65535 < width

/-- Popping is never refused without a fault. -/
theorem pop_ne_wideField (s t : State) : pop s ≠ .error .wideField t := by
  intro h
  have hleads := PopsOnly.pop .ret s
  rw [h] at hleads
  exact Bool.false_ne_true hleads.2

/-- A text is refused only if its field is too wide. -/
theorem lt_of_writeField {width : Word} {text : List Char} {s t : State}
    (h : writeField width text s = .error .wideField t) : 65535 < width := by
  unfold writeField at h
  split at h
  · assumption
  · cases h

/-- Both ways to print in a field take the width of the field first, and differ in the text alone.
-/
theorem execute_printsField (limits : Limits) {i : Instruction} (hi : i.printsField = true) :
    ∃ text : Word → List Char, execute limits i = (do
      let width ← pop
      let v ← pop
      writeField width (text v)
      return true) := by
  cases i with
  | print => exact ⟨fun v => Text.decimal v.toInt, rfl⟩
  | printByte => exact ⟨fun v => [Char.ofNat v.toUInt32.toUInt8.toNat], rfl⟩
  | _ => cases hi

/-- Printing is refused just if the field is too wide.  That nothing else is refused without a fault
is known from what an instruction does when it does not complete. -/
theorem execute_eq_wideField {i : Instruction} {s : State} :
    (∃ t, execute limits i s = .error .wideField t) ↔
      i.printsField = true ∧
        ∃ (below : Array Word) (v width : Word),
          s.stack = (below.push v).push width ∧ 65535 < width := by
  constructor
  · rintro ⟨t, h⟩
    have hcommitted := execute_committed limits i s
    rw [h] at hcommitted
    have hi : i.printsField = true := hcommitted.2
    obtain ⟨text, hexecute⟩ := execute_printsField limits hi
    refine ⟨hi, ?_⟩
    rw [hexecute] at h
    -- of the three actions only the last can refuse anything without a fault
    rcases Action.bind_eq_error.mp h with h | ⟨width, s₁, hwidth, h⟩
    · exact absurd h (pop_ne_wideField s t)
    rcases Action.bind_eq_error.mp h with h | ⟨v, s₂, hv, hprint⟩
    · exact absurd h (pop_ne_wideField s₁ t)
    rcases Action.bind_eq_error.mp hprint with hwrite | ⟨_, s₃, -, hpure⟩
    · obtain ⟨stack, hstack, rfl⟩ := pop_eq_ok hwidth
      obtain ⟨below, rfl, -⟩ := pop_eq_ok hv
      exact ⟨below, v, width, hstack, lt_of_writeField hwrite⟩
    · cases hpure
  · rintro ⟨hi, below, v, width, hstack, hwide⟩
    obtain ⟨text, hexecute⟩ := execute_printsField limits hi
    refine ⟨{ s with stack := below }, ?_⟩
    have hrefused : writeField width (text v) { s with stack := below }
        = .error .wideField { s with stack := below } := by
      rw [writeField, if_pos hwide]
      rfl
    rw [hexecute, pop_pop_push hstack fun v width => do writeField width (text v); return true]
    exact Action.bind_eq_error.mpr (Or.inl hrefused)

/-- A step is stopped by too wide a field just if it prints in one and the limits let it be made. -/
theorem step_eq_wideField {s : State} :
    (∃ t, step limits code s = .error .wideField t) ↔ PrintsWide limits code s := by
  constructor
  · rintro ⟨t, h⟩
    rcases step_cases limits code s with ⟨cause, -, hstop⟩ | ⟨i, hallow, hfetch, hstep⟩
    · cases hstop.symm.trans h
    · obtain ⟨hi, hstack⟩ := execute_eq_wideField.mp ⟨t, hstep.symm.trans h⟩
      exact ⟨hallow, ⟨i, hfetch, hi⟩, hstack⟩
  · rintro ⟨hallow, ⟨i, hfetch, hi⟩, hstack⟩
    have hrefused : ∃ t, execute limits i (s.fetched i) = .error .wideField t :=
      execute_eq_wideField.mpr ⟨hi, hstack⟩
    obtain ⟨t, hexecute⟩ := hrefused
    exact ⟨t, (step_of_fetch hfetch rfl (checkLimits_of_allow hallow)).trans hexecute⟩

/-! ### Runs -/

/-- A change leaves the input as it is. -/
theorem Commit.input_eq {i : Instruction} {s t : State} (h : Commit limits i s t) :
    t.input = s.input := by
  cases h <;> rfl

namespace Guarded

/-- Steps lead from sound states to sound states.  The heap stays below its limit, and the input can
only become shorter. -/
theorem sound_of_step {s t : State} (h : Machine.step limits code s = .ok true t)
    (hs : Sound limits s) : Sound limits t := by
  obtain ⟨i, -, hgrows⟩ := grows_of_step h
  obtain ⟨j, -, -, u, hpopped, hcommit⟩ := change_of_step h
  have hinput := hpopped.input.length_le
  rw [← hcommit.input_eq] at hinput
  exact ⟨hgrows.roomy hs.toRoomy, Nat.lt_of_le_of_lt hinput hs.input⟩

theorem sound_load (limits : Limits) (image : Image) {input : List UInt8}
    (hinput : input.length < 9223372036854775808) : Sound limits (.load image input) :=
  ⟨roomy_load limits image input, hinput⟩

/-- The state that the guarded machine is in after `n` steps, if it goes on that long. -/
def after (limits : Limits) (code : List UInt8) : (n : Nat) → State → Option State
  | 0, s => some s
  | n + 1, s =>
    match step limits code s with
    | .ok true t => after limits code n t
    | _ => none

/-- A run stays in sound states, by induction on the number of its steps. -/
theorem sound_of_runFor {n : Nat} {s t : State} (hs : Sound limits s)
    (h : runFor limits code n s = ⟨.unfinished, t⟩) : Sound limits t := by
  fun_induction runFor limits code n s with
  | case1 s =>
    cases h
    exact hs
  | case2 n s u hstep ih => exact ih (sound_of_step hstep hs) h
  | case3 n s u hstep => cases h
  | case4 n s pc cause u hstep => cases h

/-- The guarded machine comes through the states that the machine comes through.  Soundness goes
along the induction, since the two agree in sound states only. -/
theorem after_eq_some (hlimit : limits.heapWords ≤ 2147483647) {code : List UInt8}
    (hcode : code.length < 9223372036854775808) {n : Nat} {s t : State} (hs : Sound limits s) :
    after limits code n s = some t ↔ runFor limits code.toArray n s = ⟨.unfinished, t⟩ := by
  induction n generalizing s with
  | zero => simp [after, runFor]
  | succ n ih =>
    rw [after, runFor, step_eq_lift hlimit hcode hs]
    cases hstep : Machine.step limits code.toArray s with
    | error cause u => simp [lift_of_error hstep]
    | ok goesOn u =>
      rw [lift_of_ok hstep]
      cases goesOn with
      | true => exact ih (sound_of_step hstep hs)
      | false => simp

/-- What a step does in a sound state: it breaches only if it prints in too wide a field. -/
theorem step_cases_of_sound (hlimit : limits.heapWords ≤ 2147483647) {code : List UInt8}
    (hcode : code.length < 9223372036854775808) {s : State} (hs : Sound limits s) :
    (PrintsWide limits code.toArray s ∧ ∃ t, step limits code s = .error (.breach .width) t) ∨
      ¬ PrintsWide limits code.toArray s ∧
        ((∃ goesOn t, step limits code s = .ok goesOn t) ∨
          ∃ cause t, step limits code s = .error (.fault cause) t) := by
  rw [← step_eq_wideField, step_eq_lift hlimit hcode hs]
  cases hstep : Machine.step limits code.toArray s with
  | ok goesOn t =>
    rw [lift_of_ok hstep]
    exact Or.inr ⟨by simp, Or.inl ⟨goesOn, t, rfl⟩⟩
  | error cause t =>
    rw [lift_of_error hstep]
    cases cause with
    | fault cause => exact Or.inr ⟨by simp, Or.inr ⟨cause, t, rfl⟩⟩
    | wideField => exact Or.inl ⟨⟨t, rfl⟩, t, rfl⟩

/-- **Every step of a run completes or faults, unless it prints in too wide a field.**  The image,
the input and the limits are arbitrary, but for what fits the memory and the addresses of the heap.
The guarded machine comes through the same states as the machine, and in each of them its step is
that of the machine: no index, range, number or cut is refused. -/
theorem run_unbreached (limits : Limits) (image : Image) (input : List UInt8)
    (hheap : limits.heapWords ≤ 2147483647) (hcode : image.code.length < 9223372036854775808)
    (hinput : input.length < 9223372036854775808) (n : Nat) (s : State) :
    (after limits image.code n (.load image input) = some s ↔
        runFor limits image.code.toArray n (.load image input) = ⟨.unfinished, s⟩) ∧
      (after limits image.code n (.load image input) = some s →
        step limits image.code s = lift (Machine.step limits image.code.toArray) s ∧
        ((PrintsWide limits image.code.toArray s ∧
            ∃ t, step limits image.code s = .error (.breach .width) t) ∨
          ¬ PrintsWide limits image.code.toArray s ∧
            ((∃ goesOn t, step limits image.code s = .ok goesOn t) ∨
              ∃ cause t, step limits image.code s = .error (.fault cause) t))) := by
  have hload := sound_load limits image hinput
  have hsame : after limits image.code n (.load image input) = some s ↔
      runFor limits image.code.toArray n (.load image input) = ⟨.unfinished, s⟩ :=
    after_eq_some hheap hcode hload
  refine ⟨hsame, fun hafter => ?_⟩
  have hs : Sound limits s := sound_of_runFor hload (hsame.mp hafter)
  exact ⟨step_eq_lift hheap hcode hs, step_cases_of_sound hheap hcode hs⟩

/-- The image of a program that prints 3 in a field whose width it reads. -/
def widthFromInput : Image :=
  .ofSegments (Code.ofInstructions [.const 3, .read, .print, .ret]) [] 0

/-- The line `ü 65536`, whose first character has two bytes. -/
def wideLine : List UInt8 := [195, 188, 32, 54, 53, 53, 51, 54, 10]

/-- The width is read without a breach, and is then refused. -/
theorem run_unbreached_wide_line :
    ∃ s, after ⟨none, 9, 9, 1⟩ widthFromInput.code 2 (.load widthFromInput wideLine) = some s ∧
      s.stack = #[3, 65536] ∧
      ∃ t, step ⟨none, 9, 9, 1⟩ widthFromInput.code s = .error (.breach .width) t := by
  let s : State := ⟨6, 2, #[3, 65536], #[], #[], #[0], #[], [], #[]⟩
  have hrun : runFor ⟨none, 9, 9, 1⟩ widthFromInput.code.toArray 2 (.load widthFromInput wideLine)
      = ⟨.unfinished, s⟩ := by decide +kernel
  have hwide : PrintsWide ⟨none, 9, 9, 1⟩ widthFromInput.code.toArray s :=
    ⟨⟨nofun, by decide⟩, ⟨.print, rfl, rfl⟩, #[], 3, 65536, rfl, by decide⟩
  obtain ⟨hsame, hsteps⟩ := run_unbreached ⟨none, 9, 9, 1⟩ widthFromInput wideLine (by decide)
    (by decide) (by decide) 2 s
  have hafter := hsame.mpr hrun
  rcases (hsteps hafter).2 with ⟨-, hbreach⟩ | ⟨hnot, -⟩
  · exact ⟨s, hafter, rfl, hbreach⟩
  · exact absurd hwide hnot

end Guarded
end Machine
end MJ
