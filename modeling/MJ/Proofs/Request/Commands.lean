import MJ.Proofs.Request.Composition

/-!
# Commands that the compiler issues

The compiler works on the program under construction by commands to the assembler only.  What a
sequence of commands does to static storage is the sum of what the commands do.  Most actions issue
no command that adds static data or stores into static words.

## Main definitions

* `Assembler.Issued`, `Compiler.Issued` — commands led from one program, or from one compilation, to
  another.
* `Asm.Issues`, `Compile.Issues` — actions that are carried out by commands.

## Main results

* `Asm.Issues.compositional`, `Compile.Issues.compositional` — an action is carried out by commands
  if its steps are.
-/

namespace MJ

/-! ### Actions of the assembler -/

namespace Assembler

/-- Commands that add bytes to the static data and store into static words lead from one program
to another.  Which commands they are is left open; what is counted are their bytes and stores. -/
def Issued (bs : List UInt8) (offsets : List Word) (a b : Assembler) : Prop :=
  ∃ commands, session commands a = .ok () b ∧ commands.flatMap Command.staticBytes = bs ∧
    commands.flatMap Command.staticStores = offsets

theorem Issued.refl (a : Assembler) : Issued [] [] a a := ⟨[], rfl, rfl, rfl⟩

theorem Issued.trans {bs bs' : List UInt8} {offsets offsets' : List Word} {a b c : Assembler}
    (h : Issued bs offsets a b) (h' : Issued bs' offsets' b c) :
    Issued (bs ++ bs') (offsets ++ offsets') a c := by
  obtain ⟨commands, hsession, rfl, rfl⟩ := h
  obtain ⟨commands', hsession', rfl, rfl⟩ := h'
  exact ⟨commands ++ commands', session_append.mpr ⟨b, hsession, hsession'⟩, List.flatMap_append,
    List.flatMap_append⟩

theorem Issued.of_command (k : Command) {a b : Assembler} (h : k.run a = .ok () b) :
    Issued k.staticBytes k.staticStores a b :=
  ⟨[k], session_cons.mpr ⟨b, h, rfl⟩, List.append_nil _, List.append_nil _⟩

theorem Issued.effects {bs : List UInt8} {offsets : List Word} {a b : Assembler}
    (h : Issued bs offsets a b) : Effects a b := by
  obtain ⟨commands, hsession, -, -⟩ := h
  exact effects_session hsession

end Assembler

/-- An action that is carried out by commands. -/
def Asm.Issues {α : Type} (bs : List UInt8) (offsets : List Word) (x : Asm α) : Prop :=
  ∀ ⦃a b : Assembler⦄ ⦃v : α⦄, x a = .ok v b → a.Issued bs offsets b

namespace Asm.Issues

open Assembler

variable {α β : Type} {bs bs' : List UInt8} {offsets offsets' : List Word}

theorem pure (v : α) : Issues [] [] (Pure.pure v : Asm α) := by
  intro a b w h
  obtain ⟨-, rfl⟩ := EStateM.Result.ok.inj h
  exact .refl a

theorem bind {x : Asm α} {f : α → Asm β} (hx : x.Issues bs offsets)
    (hf : ∀ v, (f v).Issues bs' offsets') :
    (x >>= f).Issues (bs ++ bs') (offsets ++ offsets') := by
  intro a c w h
  obtain ⟨v, b, hfirst, hrest⟩ := Action.bind_eq_ok.mp h
  exact (hx hfirst).trans (hf v hrest)

/-- A command. -/
theorem command (k : Assembler.Command) : k.run.Issues k.staticBytes k.staticStores :=
  fun _ _ _ h => .of_command k h

/-- An action whose answer is used is carried out by its command, as the answer is no part of the
program. -/
theorem answering (k : Assembler.Command) {x : Asm α} (hk : k.run = do let _ ← x) :
    x.Issues k.staticBytes k.staticStores := by
  intro a b v h
  refine .of_command k ?_
  rw [hk, Action.bind_of_ok h]
  rfl

/-- An action of the assembler is carried out by commands if its steps are. -/
theorem compositional : Compositional fun τ _ x => Issues τ.bytes τ.offsets x where
  pure := pure
  bind := bind
  command := command
  answering k _ _ hx := answering k hx

end Asm.Issues

/-! ### Actions of the compiler -/

namespace Compiler

/-- Commands led from one compilation to another, and the constants still to be set are the same.
Assignments to constants are the only actions of which the second part is not true. -/
structure Issued (bs : List UInt8) (offsets : List Word) (c c' : Compiler) : Prop where
  assembler : c.assembler.Issued bs offsets c'.assembler
  constants : c'.constants = c.constants
  mainEntered : c'.mainEntered = c.mainEntered

theorem Issued.refl (c : Compiler) : Issued [] [] c c := ⟨.refl _, rfl, rfl⟩

theorem Issued.trans {bs bs' : List UInt8} {offsets offsets' : List Word} {c c' c'' : Compiler}
    (h : Issued bs offsets c c') (h' : Issued bs' offsets' c' c'') :
    Issued (bs ++ bs') (offsets ++ offsets') c c'' where
  assembler := h.assembler.trans h'.assembler
  constants := h'.constants.trans h.constants
  mainEntered := h'.mainEntered.trans h.mainEntered

end Compiler

/-- An action that is carried out by commands and leaves the constants still to be set alone. -/
def Compile.Issues {α : Type} (bs : List UInt8) (offsets : List Word) (x : Compile α) : Prop :=
  ∀ ⦃c c' : Compiler⦄ ⦃v : α⦄, x c = .ok v c' → c.Issued bs offsets c'

namespace Compile.Issues

open Compiler

variable {α β : Type} {bs bs' : List UInt8} {offsets offsets' : List Word}

theorem pure (v : α) : Issues [] [] (Pure.pure v : Compile α) := by
  intro c c' w h
  obtain ⟨-, rfl⟩ := EStateM.Result.ok.inj h
  exact .refl c

theorem bind {x : Compile α} {f : α → Compile β} (hx : Issues bs offsets x)
    (hf : ∀ v, Issues bs' offsets' (f v)) :
    Issues (bs ++ bs') (offsets ++ offsets') (x >>= f) := by
  intro c c'' w h
  obtain ⟨v, c', hfirst, hrest⟩ := Action.bind_eq_ok.mp h
  exact (hx hfirst).trans (hf v hrest)

theorem misuse (m : Misuse) : Issues bs offsets (throw m : Compile α) := by
  intro c c' v h
  cases h

theorem assemble {x : Asm α} (hx : x.Issues bs offsets) :
    Issues bs offsets (liftM x : Compile α) := by
  intro c c' v h
  obtain ⟨a, haction, rfl⟩ := assemble_eq_ok.mp h
  exact ⟨hx haction, rfl, rfl⟩

/-- A command to the assembler. -/
theorem command (k : Assembler.Command) :
    Issues k.staticBytes k.staticStores (liftM k.run : Compile Unit) :=
  assemble (.command k)

theorem newLabel : Issues [] [] Compiler.newLabel := by
  intro c c' label h
  obtain ⟨-, rfl⟩ := EStateM.Result.ok.inj h
  exact ⟨.refl _, rfl, rfl⟩

/-- An action of the compiler is carried out by commands if its steps are.  Labels do not matter: a
label that is made up leaves no trace in the static data. -/
theorem compositional : Compositional fun τ _ x => Issues τ.bytes τ.offsets x where
  pure := pure
  misuse m _ := misuse m
  bind := bind
  command := command
  answering k _ _ hx := assemble (.answering k hx)
  makeUp {_ τ f} hf := by
    have h : Issues ([] ++ (τ.bytes ++ [])) ([] ++ (τ.offsets ++ [])) (Compiler.newLabel >>= f) :=
      newLabel.bind hf
    rwa [List.append_nil, List.append_nil] at h
  look := by
    intro c c' v h
    obtain ⟨-, rfl⟩ := EStateM.Result.ok.inj h
    exact .refl _
  note hx := by
    intro c c' v h
    obtain ⟨noted, rfl⟩ := hx.ok h
    exact ⟨.refl _, rfl, rfl⟩

end Compile.Issues
end MJ
