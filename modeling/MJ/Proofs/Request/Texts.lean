import Mathlib.Data.List.Pairwise
import MJ.Proofs.Activation
import MJ.Proofs.Printing
import MJ.Proofs.Request.Constants

/-!
# Texts in static storage

Variables, constants and texts share the static data.  No two of them share a word, and a program
that assigns to variables only prints each of its texts as it was written, whatever it did before.

## Main definitions

* `Compiler.Assignable` — an operand that a session may assign to.
* `Machine.StoresWithin`, `Machine.KeepsOutside` — code that stores into some static words only, and
  static data that is the same outside of them.

## Main results

* `Machine.runFor_keepsOutside` — a run changes no static word that its code does not store into.
* `Compiler.stores_of_session` — the code of a session stores into words of variables only.
* `Compiler.texts_printed` — **allocations share no word, and texts are printed as they were
  written.**
-/

namespace MJ

/-! ### Static words that code does not store into -/

namespace Machine

/-- Whether instructions store into the given static words only. -/
def StoresWithin (words : Nat → Prop) (is : List Instruction) : Prop :=
  ∀ n, .putStatic n ∈ is → words (Instruction.address n)

/-- The static data of a state is as given, except for some words.  Bytes are compared and not
words, because a text need not end with a word. -/
structure KeepsOutside (words : Nat → Prop) (data : Array UInt8) (s : State) : Prop where
  size : s.statics.size = data.size
  bytes : ∀ k, ¬ words (k / wordSize) → s.statics[k]? = data[k]?

theorem KeepsOutside.of_eq {words : Nat → Prop} {data : Array UInt8} {s t : State}
    (h : KeepsOutside words data s) (hstatics : t.statics = s.statics) :
    KeepsOutside words data t :=
  ⟨hstatics ▸ h.size, hstatics ▸ h.bytes⟩

/-- A step keeps the words that the code does not store into: only `putstatic` changes static data,
and the one that is executed is an instruction of the code. -/
theorem KeepsOutside.step {words : Nat → Prop} {is : List Instruction} {data : Array UInt8}
    {limits : Limits}
    {s t : State} (h : KeepsOutside words data s) (hwithin : StoresWithin words is)
    (hlast : .last ∉ is) (hpc : Code.Boundary is s.pc)
    (hstep : Machine.step limits (Code.ofInstructions is).toArray s = .ok true t) :
    KeepsOutside words data t := by
  rcases statics_of_step hstep with hsame | ⟨n, v, hfetch, hwritten⟩
  · exact h.of_eq hsame
  · -- the instruction is one of the code, since the program counter is between two of them
    have hword : words (Instruction.address n) := by
      rcases fetch_of_boundary hlast hpc with ⟨i, hi, hfetched, -⟩ | ⟨hfetched, -⟩
      · obtain rfl := Except.ok.inj (hfetch.symm.trans hfetched)
        exact hwithin n hi
      · cases hfetch.symm.trans hfetched
    have hlength : (Width.s32.encode v).length = wordSize := Width.length_encode _ _
    refine ⟨by rw [hwritten, size_writeAt, h.size], fun k hk => ?_⟩
    rw [hwritten, getElem?_writeAt_of_outside, h.bytes k hk]
    rw [hlength]
    by_contra hinside
    refine hk ?_
    rw [show k / wordSize = Instruction.address n by
      simp only [wordSize] at hinside ⊢
      omega]
    exact hword

/-- A run keeps the words that its code does not store into.  By induction on the steps; the program
counter stays between instructions, so that no other store can be put together from their bytes. -/
theorem runFor_keepsOutside {words : Nat → Prop} {is : List Instruction} {data : Array UInt8}
    {limits : Limits} {n : Nat} {s t : State} (htargeted : WellTargeted is)
    (hwithin : StoresWithin words is) (hs : OnBoundary is s) (h : KeepsOutside words data s)
    (hrun : runFor limits (Code.ofInstructions is).toArray n s = ⟨.unfinished, t⟩) :
    KeepsOutside words data t := by
  induction n generalizing t with
  | zero =>
    obtain ⟨-, rfl⟩ := Outcome.mk.inj hrun
    exact h
  | succ n ih =>
    obtain ⟨u, hrun, hlast⟩ := runFor_succ_unfinished.mp hrun
    have hu := (runFor_boundaries htargeted limits n hs).1
    rw [hrun] at hu
    exact (ih hrun).step hwithin htargeted.noLast hu.pc hlast

/-- A text in static words that were kept is printed as it was written.  Printing ends at the zero
byte behind the text, which belongs to the words that were kept. -/
theorem printString_of_keepsOutside {words : Nat → Prop} {data : List UInt8} {s : State} {n : Int16}
    {address : Nat} {text : String} {bs bs' : List UInt8} (h : KeepsOutside words data.toArray s)
    (hdata : data = bs ++ (Statics.stringBytes text ++ bs'))
    (hlength : bs.length = address * wordSize) (hn : Instruction.address n = address)
    (hnul : Char.ofNat 0 ∉ text.toList)
    (hkept : ∀ k, k < (Statics.stringBytes text).length → ¬ words (address + k / wordSize)) :
    printString n s = .ok () { s with output := s.output ++ Utf8.encode text } := by
  have hstringBytes : ∀ k, k < (Statics.stringBytes text).length →
      s.statics[address * wordSize + k]? = (Statics.stringBytes text)[k]? := by
    intro k hk
    have hword : (address * wordSize + k) / wordSize = address + k / wordSize := by
      simp only [wordSize]
      omega
    rw [h.bytes _ (hword ▸ hkept k hk), List.getElem?_toArray, hdata, ← hlength,
      List.getElem?_append_right (Nat.le_add_right _ _), Nat.add_sub_cancel_left,
      List.getElem?_append_left hk]
  -- the text, its zero byte and the bytes that fill the last word all lie in these words
  obtain ⟨zeros, hzeros⟩ := Assembler.exists_stringBytes text
  have hsize : address * wordSize + ((Utf8.encode text).length + 1) ≤ s.statics.size := by
    rw [h.size, List.size_toArray, hdata, hzeros]
    simp only [List.length_append, List.length_cons, hlength]
    omega
  refine printString_eq hn (by omega) (stringAt_eq (Utf8.zero_notMem_encode hnul) ?_ (by omega))
  intro k hk
  rw [hstringBytes, hzeros, List.append_cons,
    List.getElem?_append_left (by rw [List.length_append, List.length_singleton]; omega)]
  rw [hzeros, List.length_append, List.length_cons]
  omega

end Machine

/-! ### Where the code of a session stores -/

/-- Whether a construct selects a part of the operand in hand.  What is selected is in the heap. -/
def Construct.isSelection : Construct → Bool
  | selectElement _ | selectField _ => true
  | _ => false

namespace Compiler

/-- A request assigns to a global operand. -/
def Request.AssignsAt (offset : Word) (r : Request) : Prop :=
  ∃ target x span inHand, r = .construct (.assign target x) span inHand ∧
    target.isGlobal = true ∧ target.offset = offset

/-- The code of a request stores where it assigns to, or into constants that were noted before.
These were assigned to as well, by earlier requests. -/
theorem Request.mem_stores {r : Request} {answer : Answer} {c : Compiler} {offset : Word}
    (h : offset ∈ r.stores c answer) : r.AssignsAt offset ∨ offset ∈ c.constants.map Prod.fst := by
  cases r with
  | construct k span inHand =>
    rw [stores] at h
    split at h
    · cases h
    · cases k with
      | assign target x =>
        have hglobal : target.isGlobal = true ∧ offset = target.offset := by
          simp only [constructStores] at h
          split at h <;> rename_i hglobal <;> split at h <;> simp_all
        exact Or.inl ⟨target, x, span, inHand, rfl, hglobal.1, hglobal.2.symm⟩
      | _ => cases h
  | enter procedure? =>
    rw [stores] at h
    · split at h
      · exact Or.inr h
      · cases h
    · exact fun _ _ _ => Request.noConfusion
  | _ => cases h

/-- Every static word that the code stores into, or will, is one that a request assigned to. -/
structure Tracked (known : List Exchange) (c : Compiler) : Prop where
  adds : ∃ bs, Assembler.empty.Adds bs
    (known.flatMap fun e => e.request.stores e.before e.answer) c.assembler
  stores : ∀ offset ∈ known.flatMap fun e => e.request.stores e.before e.answer,
    ∃ e ∈ known, e.request.AssignsAt offset
  constants : ∀ offset ∈ c.constants.map Prod.fst, ∃ e ∈ known, e.request.AssignsAt offset

/-- A request keeps track: what it stores into was assigned to by itself, or by one that had noted a
constant.  This is the step of the induction over sessions. -/
theorem Tracked.step {known : List Exchange} {e : Exchange} (h : Tracked known e.before)
    (hsound : e.IsSound) : Tracked (known ++ [e]) e.after := by
  have hcarried := Request.carried hsound
  have earlier {offset : Word} (hknown : ∃ e ∈ known, e.request.AssignsAt offset) :
      ∃ e' ∈ known ++ [e], e'.request.AssignsAt offset := by
    obtain ⟨e', he', hassigns⟩ := hknown
    exact ⟨e', List.mem_append_left _ he', hassigns⟩
  have now {offset : Word} (hassigns : e.request.AssignsAt offset) :
      ∃ e' ∈ known ++ [e], e'.request.AssignsAt offset :=
    ⟨e, List.mem_append_right _ (List.mem_singleton_self e), hassigns⟩
  refine ⟨?_, fun offset hoffset => ?_, fun offset hoffset => ?_⟩
  · obtain ⟨bs, hadds⟩ := h.adds
    simp only [List.flatMap_append, List.flatMap_cons, List.flatMap_nil, List.append_nil]
    exact ⟨_, hadds.trans hcarried.assembler.adds⟩
  · simp only [List.flatMap_append, List.flatMap_cons, List.flatMap_nil, List.append_nil] at hoffset
    rcases List.mem_append.mp hoffset with hoffset | hoffset
    · exact earlier (h.stores offset hoffset)
    · -- a store is for this assignment, or for a constant that an earlier one had noted
      rcases Request.mem_stores hoffset with hassigns | hconstant
      · exact now hassigns
      · exact earlier (h.constants offset hconstant)
  · rw [hcarried.constants] at hoffset
    split at hoffset
    · cases hoffset
    · rw [List.map_append] at hoffset
      rcases List.mem_append.mp hoffset with hoffset | hoffset
      · exact earlier (h.constants offset hoffset)
      · split at hoffset
        · cases hoffset
        · obtain ⟨p, hp, rfl⟩ := List.mem_map.mp hoffset
          obtain ⟨target, x, span, inHand, hrequest, hglobal, -, hoffset⟩ :=
            Request.exists_assign hp
          exact now ⟨target, x, span, inHand, hrequest, hglobal, hoffset.symm⟩

theorem tracked_of_session {rs : List Request} {log : List Exchange} {c : Compiler}
    (h : session rs .empty = .ok log c) : Tracked log c :=
  @session_induction (fun _ _ => True) Tracked (fun _ _ htracked _ hsound => htracked.step hsound)
    rs [] log .empty c h (fun _ _ _ _ => trivial)
    ⟨⟨[], .refl _⟩, fun _ h => absurd h List.not_mem_nil, fun _ h => absurd h List.not_mem_nil⟩

/-! ### What may be assigned to -/

/-- The last change to the operand in hand counts, whatever was done to it before. -/
theorem isGlobal_of_changeInHand {α : Type} {a : Handling α} {f : Operand → Operand}
    {desk desk' : Desk} {u : Unit} (hf : ∀ x, (f x).isGlobal = false)
    (h : (a >>= fun _ => Handling.changeInHand f).run desk = .ok (.ok u) desk') :
    desk'.inHand.isGlobal = false := by
  obtain ⟨_, desk₁, -, hchange⟩ := Checked.bind_eq_ok h
  obtain ⟨-, rfl⟩ := EStateM.Result.ok.inj hchange
  exact hf desk₁.inHand

theorem isGlobal_of_selectElement {index : Operand} {span : Span} {desk desk' : Desk} {u : Unit}
    (h : (Handling.selectElement index span).run desk = .ok (.ok u) desk') :
    desk'.inHand.isGlobal = false := by
  obtain ⟨array, desk₁, -, h⟩ := Checked.bind_eq_ok h
  split at h
  · split at h
    · cases h
    · split at h
      · cases h
      · exact isGlobal_of_changeInHand (fun _ => rfl) h
  · cases h

theorem isGlobal_of_selectField {field : String} {span : Span} {desk desk' : Desk} {u : Unit}
    (h : (Handling.selectField field span).run desk = .ok (.ok u) desk') :
    desk'.inHand.isGlobal = false := by
  obtain ⟨record, desk₁, -, h⟩ := Checked.bind_eq_ok h
  split at h
  · split at h
    · cases h
    · split at h
      · cases h
      · exact isGlobal_of_changeInHand (fun _ => rfl) h
  · cases h

/-- A request selected an operand, which is an element or a field. -/
def Exchange.Selects (e : Exchange) (x : Operand) : Prop :=
  ∃ k span inHand result?, e.request = .construct k span inHand ∧ k.isSelection = true ∧
    e.answer = .compiled x result?

/-- Elements and fields are in no static word, so that assigning to them stores into the heap. -/
theorem Exchange.Selects.isGlobal {e : Exchange} {x : Operand} (h : e.Selects x)
    (hsound : e.IsSound) : x.isGlobal = false := by
  obtain ⟨k, span, inHand, result?, hrequest, hselection, hanswer⟩ := h
  rw [IsSound, hrequest, hanswer] at hsound
  obtain ⟨r, c, hcompile, hresult⟩ := Action.bind_eq_ok.mp hsound
  obtain ⟨hofChecked, rfl⟩ := EStateM.Result.ok.inj hresult
  cases r with
  | error d => cases hofChecked
  | ok v =>
    obtain ⟨rfl, rfl⟩ := Answer.compiled.inj hofChecked
    have hrun := lend_eq_ok.mp hcompile
    cases k with
    | selectElement index =>
      obtain ⟨u, desk, hselect, hresult⟩ := Checked.bind_eq_ok hrun
      obtain ⟨-, rfl⟩ := EStateM.Result.ok.inj hresult
      exact isGlobal_of_selectElement hselect
    | selectField field =>
      obtain ⟨u, desk, hselect, hresult⟩ := Checked.bind_eq_ok hrun
      obtain ⟨-, rfl⟩ := EStateM.Result.ok.inj hresult
      exact isGlobal_of_selectField hselect
    | _ => cases hselection

/-- What a session may assign to.  An operand that was made up by the caller may name any static
word, also one of a text, and then nothing could be promised. -/
inductive Assignable (log : List Exchange) (x : Operand) : Prop
  /-- A variable or constant that was given a word. -/
  | declared (e : Exchange) (he : e ∈ log) (h : e.Declares x)
  /-- An element or a field. -/
  | selected (e : Exchange) (he : e ∈ log) (h : e.Selects x)
  /-- A word of the frame, such as that of a parameter. -/
  | inFrame (hplace : x.place = .memory) (hglobal : x.isGlobal = false)

/-- A global operand that may be assigned to is at a word that was set aside for a variable. -/
theorem Assignable.word {rs : List Request} {log : List Exchange} {c : Compiler} {x : Operand}
    (h : Assignable log x) (hsession : session rs .empty = .ok log c)
    (hglobal : x.isGlobal = true) :
    ∃ w, (⟨w, .word⟩ : Allocation) ∈ log.flatMap Exchange.allocations
      ∧ x.offset = Int32.ofNat w := by
  cases h with
  | declared e he hdeclares => exact exists_word_of_declares hsession he hdeclares hglobal
  | selected e he hselects =>
    have hsound := ((effects_of_session hsession).2 e he).1
    cases hglobal.symm.trans (hselects.isGlobal hsound)
  | inFrame _ hframe => cases hglobal.symm.trans hframe

/-- The words of a session whose static data is not too large have addresses, which do not wrap
around when they are written as words. -/
theorem Stored.start_lt {known : List Exchange} {c : Compiler} (h : Stored known c)
    (hsize : c.assembler.statics.bytes.size < 8589934592) {a : Allocation}
    (ha : a ∈ known.flatMap Exchange.allocations) : a.start < 2147483648 := by
  have hstop : (a.start + a.storage.words) * wordSize ≤ _ := h.stop_le ha
  simp only [wordSize] at hstop
  omega

/-- The code of a session that assigns to what it may stores into words of variables only.  The
instructions of the image come from the requests, and each store among them from an assignment. -/
theorem stores_of_session {rs : List Request} {log : List Exchange} {c : Compiler} {b : Assembler}
    {image : Image} (hsession : session rs .empty = .ok log c)
    (hassignable : ∀ e ∈ log, e.request.TargetMeets (Assignable log))
    (hsize : c.assembler.statics.bytes.size < 8589934592)
    (hfinish : Assembler.finish c.assembler = .ok (.ok image) b) :
    ∃ is, Assembler.Finished b image is ∧ Machine.StoresWithin
      (fun w => (⟨w, .word⟩ : Allocation) ∈ log.flatMap Exchange.allocations) is := by
  have htracked := tracked_of_session hsession
  obtain ⟨bs, hadds⟩ := htracked.adds
  obtain ⟨items, hitems, hstores⟩ := hadds.items [] .empty
  obtain ⟨is, hresolve, hfinished⟩ := hitems.exists_finished hfinish
  refine ⟨is, hfinished, fun n hn => ?_⟩
  -- filling labels in makes no stores, so that this one was emitted
  have hresolved : .whole (.putStatic n) ∈ items.map (Item.resolve c.assembler.labels) := by
    rw [hresolve]
    exact List.mem_map_of_mem hn
  rcases hstores n (Assembler.Adds.mem_of_resolve hresolved) with
    hnone | ⟨offset, hoffset, hholds, hinstruction⟩
  · cases hnone
  · obtain ⟨e, he, target, x, span, inHand, hrequest, hglobal, rfl⟩ :=
      htracked.stores offset hoffset
    have htarget := hassignable e he
    rw [hrequest] at htarget
    obtain ⟨w, hw, hword⟩ := Assignable.word htarget hsession hglobal
    rw [hword] at hholds hinstruction
    rw [Region.storeInstruction_static] at hinstruction
    obtain rfl := Instruction.putStatic.inj hinstruction
    rw [Machine.address_slot hholds ((stored_of_session hsession).start_lt hsize hw)]
    exact hw

/-! ### Texts -/

/-- What stands between quotes. -/
theorem unquote_quoted (text : String) : unquote ("\"" ++ text ++ "\"") = text := by
  have hchars : ("\"" ++ text ++ "\"").toList = '"' :: (text.toList ++ ['"']) := by
    simp
  rw [unquote, hchars]
  simp

/-- The code of a text is one instruction, which has the address of the next static word. -/
theorem Exchange.code_of_text {e : Exchange} {literal : String} (hsound : e.IsSound)
    (hrequest : e.request = .writeString literal) :
    Width.s16.holds (Int32.ofNat e.before.assembler.statics.words) = true ∧ ∃ a : Assembler,
      a.code = e.before.assembler.code ∧ e.after.assembler
        = a.append [.printString (Int16.ofNat e.before.assembler.statics.words)] := by
  rw [IsSound, hrequest] at hsound
  obtain ⟨u, c, hwrite, hanswer⟩ := Action.bind_eq_ok.mp hsound
  obtain ⟨-, rfl⟩ := EStateM.Result.ok.inj hanswer
  obtain ⟨b, hwrite, hafter⟩ := assemble_eq_ok.mp hwrite
  obtain ⟨address, a, halloc, hprint⟩ := Action.bind_eq_ok.mp hwrite
  obtain ⟨rfl, rfl⟩ := EStateM.Result.ok.inj halloc
  have hholds := Assembler.holds_of_emitWith hprint
  rw [Assembler.printString_eq hholds] at hprint
  obtain ⟨-, rfl⟩ := EStateM.Result.ok.inj hprint
  refine ⟨hholds, _, ?_, congrArg Compiler.assembler hafter⟩
  rfl

/-- The words of a text are not those of a variable, since no two allocations share a word. -/
theorem Stored.not_word {known : List Exchange} {c : Compiler} (h : Stored known c) {start k : Nat}
    {text : String}
    (htext : (⟨start, .text text⟩ : Allocation) ∈ known.flatMap Exchange.allocations)
    (hk : k < (Statics.stringBytes text).length) :
    (⟨start + k / wordSize, .word⟩ : Allocation) ∉ known.flatMap Exchange.allocations := by
  intro hword
  have hsymm : Std.Symm fun a b : Allocation => a.block.Apart b.block := ⟨fun _ _ => Or.symm⟩
  have hapart := h.pairwise.forall htext hword fun heq => nomatch (Allocation.mk.inj heq).2
  have hlength : (Statics.stringBytes text).length = (Storage.text text).words * wordSize :=
    Storage.length_bytes (.text text)
  have hone : Storage.words .word = 1 := rfl
  simp only [Machine.Block.Apart, Machine.Block.stop, Allocation.block, hone, wordSize]
    at hapart hlength hk
  omega

/-- The code of a text prints it, whatever was executed before.  Three things come together: the
text is in the image, no store has changed it, and the instruction at the program counter prints it.
-/
theorem step_of_text {rs : List Request} {log : List Exchange} {c : Compiler} {b : Assembler}
    {image : Image} (hsession : session rs .empty = .ok log c)
    (hassignable : ∀ e ∈ log, e.request.TargetMeets (Assignable log))
    (hfinish : Assembler.finish c.assembler = .ok (.ok image) b)
    (hsize : image.data.length < 8589934592) {e : Exchange} (he : e ∈ log) {literal : String}
    (hrequest : e.request = .writeString literal) (hnul : Char.ofNat 0 ∉ (unquote literal).toList)
    {limits : Limits} {input : List UInt8} {n : Nat} {s : Machine.State}
    (hrun : Machine.runFor limits image.code.toArray n (.load image input) = ⟨.unfinished, s⟩)
    (hpc : s.pc = e.before.assembler.code.size)
    (hallow : limits.Allow (s.steps + 1) s.stack.size) :
    Machine.step limits image.code.toArray s = .ok true { s with
      steps := s.steps + 1, pc := s.pc + 3
      output := s.output ++ Utf8.encode (unquote literal) } := by
  have hstored := stored_of_session hsession
  obtain ⟨hsound, -, hlater⟩ := (effects_of_session hsession).2 e he
  obtain ⟨hholds, a, ha, hcode⟩ := Exchange.code_of_text hsound hrequest
  -- the text is among the static data of the image
  have htext : (⟨e.before.assembler.statics.words, .text (unquote literal)⟩ : Allocation)
      ∈ log.flatMap Exchange.allocations := by
    refine List.mem_flatMap.mpr ⟨e, he, ?_⟩
    rw [Exchange.allocations, Exchange.storage, hrequest]
    exact List.mem_singleton_self _
  obtain ⟨bs, bs', hbytes, hlength⟩ := hstored.exists_bytes htext
  have hdata := (Assembler.segments_of_finish hfinish).1
  rw [hdata, Array.length_toList] at hsize
  have haddress := Machine.address_slot hholds (hstored.start_lt hsize htext)
  -- its words are as they were at the start
  obtain ⟨is, hfinished, hwithin⟩ := stores_of_session hsession hassignable hsize hfinish
  rw [hfinished.code] at hrun
  have hkeeps := Machine.runFor_keepsOutside hfinished.wellTargeted hwithin
    (hfinished.onBoundary_load input) ⟨rfl, fun _ _ => rfl⟩ hrun
  have hprint := Machine.printString_of_keepsOutside
    (hkeeps.of_eq
      (t := s.fetched (.printString (Int16.ofNat e.before.assembler.statics.words))) rfl)
    (hdata.trans hbytes) hlength haddress hnul fun k hk => hstored.not_word htext hk
  -- its instruction is where the program counter is
  have hrealized := Assembler.RealizedBy.of_effects hlater (Assembler.realizedBy_of_finish hfinish)
  rw [hcode] at hrealized
  have hcodeAt := hrealized.codeAt
  rw [ha, ← hpc, Code.ofInstructions_cons, Code.ofInstructions_nil, List.append_nil] at hcodeAt
  exact Machine.step_of_fetch (Machine.fetch_of_codeAt hcodeAt Instruction.noConfusion)
    (Action.bind_of_ok hprint) (Machine.checkLimits_of_allow hallow)

/-- **Allocations share no word, and texts are printed as they were written.**  In every session the
static data is made of whole words, and grows without any change to what is there.  What is set
aside stays in place, no two allocations share a word, and each global variable is at the word that
was set aside for it.  If all assignments are to variables with words of their own, to elements and
to fields, and the static words are few enough to be numbered by words, then every execution of the
code for a text prints the text, whatever was executed before. -/
theorem texts_printed {rs : List Request} {log : List Exchange} {c : Compiler}
    (hsession : session rs .empty = .ok log c) :
    (∀ e ∈ log, e.after.assembler.statics.bytes.size % wordSize = 0 ∧
      e.before.assembler.statics.bytes.toList <+: e.after.assembler.statics.bytes.toList ∧
      e.after.assembler.statics.bytes.toList <+: c.assembler.statics.bytes.toList) ∧
    (log.flatMap Exchange.allocations).Pairwise (fun a b => a.block.Apart b.block) ∧
    (∀ a ∈ log.flatMap Exchange.allocations, ∃ bs bs',
      c.assembler.statics.bytes.toList = bs ++ (a.storage.bytes ++ bs') ∧
      bs.length = a.start * wordSize) ∧
    (∀ e ∈ log, ∀ x, e.Declares x → x.isGlobal = true →
      x.offset = Int32.ofNat e.before.assembler.statics.words ∧
      e.allocations = [⟨e.before.assembler.statics.words, .word⟩]) ∧
    ((∀ e ∈ log, e.request.TargetMeets (Assignable log)) → ∀ image b,
      Assembler.finish c.assembler = .ok (.ok image) b → image.data.length < 8589934592 →
      ∀ e ∈ log, ∀ literal, e.request = .writeString literal →
      Char.ofNat 0 ∉ (unquote literal).toList →
      e.after.assembler.code.size = e.before.assembler.code.size + 3 ∧
      ∀ limits input n s,
        Machine.runFor limits image.code.toArray n (.load image input) = ⟨.unfinished, s⟩ →
        s.pc = e.before.assembler.code.size → limits.Allow (s.steps + 1) s.stack.size →
        Machine.step limits image.code.toArray s = .ok true { s with
          steps := s.steps + 1, pc := s.pc + 3
          output := s.output ++ Utf8.encode (unquote literal) }) ∧
    ∀ text, unquote ("\"" ++ text ++ "\"") = text := by
  have hstored := stored_of_session hsession
  have hexchanges := (effects_of_session hsession).2
  refine ⟨fun e he => ?_, hstored.pairwise, fun a ha => hstored.exists_bytes ha,
    fun e he x hdeclares hglobal => hdeclares.word (hexchanges e he).1 hglobal, ?_, unquote_quoted⟩
  · obtain ⟨hsound, hearlier, hlater⟩ := hexchanges e he
    have hrun := (Request.carried hsound).assembler.effects
    exact ⟨(Assembler.statics_of_effects (hearlier.trans hrun)).2 rfl,
      Assembler.isPrefix_of_effects hrun, Assembler.isPrefix_of_effects hlater⟩
  · intro hassignable image b hfinish hsize e he literal hrequest hnul
    refine ⟨?_, fun limits input n s hrun hpc hallow =>
      step_of_text hsession hassignable hfinish hsize he hrequest hnul hrun hpc hallow⟩
    obtain ⟨-, a, ha, hcode⟩ := Exchange.code_of_text (hexchanges e he).1 hrequest
    rw [hcode, Assembler.size_append, ha]
    rfl

/-- The compilation inside of a main procedure without variables. -/
def insideMain (code : Array Slot) (statics : Array UInt8) : Compiler :=
  { Compiler.empty with
    assembler := {
      code := ⟨code⟩, statics := ⟨statics⟩, labels := ⟨[("$main", 0)], []⟩
      procedure? := some (.ofParams "$main" 0 2), main? := some "$main" }
    mainEntered := true, exitLabel? := some "$main_end" }

/-- A program that assigns to a variable and then prints a text behind it. -/
theorem texts_printed_behind_variable : ∃ (log : List Exchange) (c : Compiler) (b : Assembler)
    (image : Image) (s : Machine.State),
    session [.allocVariable ⟨"x", .var, .int, true, false, none, 1⟩, .enter none,
      .construct (.assign ⟨.memory, .int, true, false, false, 0⟩ (.int 3)) ⟨1, 1⟩ (.int 0),
      .writeString "\"hi\"", .exit none] .empty = .ok log c ∧
    Assembler.finish c.assembler = .ok (.ok image) b ∧
    Machine.runFor .standard image.code.toArray 3 (.load image []) = ⟨.unfinished, s⟩ ∧
    s.statics = #[0, 0, 0, 3, 104, 105, 0, 0] ∧
    Machine.step .standard image.code.toArray s = .ok true { s with
      steps := s.steps + 1, pc := s.pc + 3, output := s.output ++ Utf8.encode "hi" } := by
  let x : Operand := ⟨.memory, .int, true, false, false, 0⟩
  let c₁ := insideMain #[.known 48, .known 0, .hole] #[0, 0, 0, 0]
  let c₂ := insideMain #[.known 48, .known 0, .hole, .known 18, .known 12, .known 0, .known 0]
    #[0, 0, 0, 0]
  let c₃ := insideMain #[.known 48, .known 0, .hole, .known 18, .known 12, .known 0, .known 0,
    .known 55, .known 0, .known 1] #[0, 0, 0, 0, 104, 105, 0, 0]
  let c₄ : Compiler := { Compiler.empty with
    assembler := {
      code := ⟨#[.known 48, .known 0, .known 0, .known 18, .known 12, .known 0, .known 0, .known 55,
        .known 0, .known 1, .known 49, .known 47]⟩
      statics := ⟨#[0, 0, 0, 0, 104, 105, 0, 0]⟩
      labels := ⟨[("$main_end", 10), ("$main", 0)], []⟩, procedure? := none, main? := some "$main" }
    mainEntered := true }
  let image := Image.ofSegments [48, 0, 0, 18, 12, 0, 0, 55, 0, 1, 49, 47]
    [0, 0, 0, 0, 104, 105, 0, 0] 0
  have hdeclare : (Request.allocVariable ⟨"x", .var, .int, true, false, none, 1⟩).run .empty
      = .ok (.decl ⟨"x", .var, .int, true, false, some 0, 1⟩) (beforeMain 1 []) := rfl
  have henter : Compiler.enter none (beforeMain 1 []) = .ok () c₁ := by decide +kernel
  have hassign : (Compiler.assign x (.int 3) ⟨1, 1⟩).run c₁ = .ok (.ok ()) c₂ := by decide +kernel
  have hwrite : Compiler.writeString "\"hi\"" c₂ = .ok () c₃ := by decide +kernel
  have hexit : Compiler.exit none c₃ = .ok () c₄ := by decide +kernel
  have hfinish : Assembler.finish c₄.assembler = .ok (.ok image) c₄.assembler := rfl
  let log : List Exchange := [
    ⟨.empty, .allocVariable ⟨"x", .var, .int, true, false, none, 1⟩,
      .decl ⟨"x", .var, .int, true, false, some 0, 1⟩, beforeMain 1 []⟩,
    ⟨beforeMain 1 [], .enter none, .done, c₁⟩,
    ⟨c₁, .construct (.assign x (.int 3)) ⟨1, 1⟩ (.int 0), .compiled (.int 0) none, c₂⟩,
    ⟨c₂, .writeString "\"hi\"", .done, c₃⟩, ⟨c₃, .exit none, .done, c₄⟩]
  have hsession : session [.allocVariable ⟨"x", .var, .int, true, false, none, 1⟩, .enter none,
      .construct (.assign x (.int 3)) ⟨1, 1⟩ (.int 0), .writeString "\"hi\"", .exit none] .empty
      = .ok log c₄ := by
    have hstart : (Request.enter none).run (beforeMain 1 []) = .ok .done c₁ :=
      Action.bind_eq_ok.mpr ⟨(), c₁, henter, rfl⟩
    have hset : (Request.construct (.assign x (.int 3)) ⟨1, 1⟩ (.int 0)).run c₁
        = .ok (.compiled (.int 0) none) c₂ :=
      Action.bind_eq_ok.mpr ⟨.ok (.int 0, none), c₂,
        lend_return_eq_ok.mpr ⟨(), hassign, rfl⟩, rfl⟩
    have hprint : (Request.writeString "\"hi\"").run c₂ = .ok .done c₃ :=
      Action.bind_eq_ok.mpr ⟨(), c₃, hwrite, rfl⟩
    have hend : (Request.exit none).run c₃ = .ok .done c₄ :=
      Action.bind_eq_ok.mpr ⟨(), c₄, hexit, rfl⟩
    exact session_of_run hdeclare (session_of_run hstart (session_of_run hset
      (session_of_run hprint (session_of_run hend (session_nil c₄)))))
  have hassignable : ∀ e ∈ log, e.request.TargetMeets (Assignable log) := by
    simp only [log, List.forall_mem_cons]
    exact ⟨trivial, trivial, .declared _ List.mem_cons_self ⟨_, _, rfl, rfl, rfl, rfl⟩, trivial,
      trivial, fun e he => absurd he List.not_mem_nil⟩
  obtain ⟨-, -, -, -, hprinted, -⟩ := texts_printed hsession
  obtain ⟨-, hstep⟩ := hprinted hassignable image c₄.assembler hfinish (by decide) ⟨c₂, _, _, _⟩
    (List.mem_cons_of_mem _ (List.mem_cons_of_mem _ (List.mem_cons_of_mem _ List.mem_cons_self)))
    "\"hi\"" rfl (by decide +kernel)
  let s : Machine.State := { Machine.State.load image [] with
    pc := 7, steps := 3, frames := #[#[]], statics := #[0, 0, 0, 3, 104, 105, 0, 0] }
  have hrun : Machine.runFor .standard image.code.toArray 3 (.load image [])
      = ⟨.unfinished, s⟩ := by
    decide +kernel
  have hallow : Limits.standard.Allow 4 0 := ⟨fun _ h => (nomatch h), by decide⟩
  have hunquote : unquote "\"hi\"" = "hi" := by decide +kernel
  rw [hunquote] at hstep
  exact ⟨log, c₄, c₄.assembler, image, s, hsession, hfinish, hrun, rfl,
    hstep .standard [] 3 s hrun rfl hallow⟩

end Compiler
end MJ
