import MJ.Proofs.Array.Layout
import MJ.Proofs.Layout
import MJ.Proofs.Request.Session

/-!
# Static storage

The static data of a program only grows, by whole words, and each word is set aside once.  Code
stores into a static word only by the instruction that the assembler was asked for.

## Main definitions

* `Assembler.Adds` — what happens to the static data, and which instructions store into it.
* `Compiler.Allocation`, `Compiler.Exchange.allocations` — the static words that a request sets
  aside, and where they are.
* `Compiler.Exchange.Declares` — the operand is that of a variable which was given a word.

## Main results

* `Assembler.Issued.adds` — commands add the static data and the stores that they ask for.
* `Compiler.stored_of_session`, `Compiler.Stored.pairwise` — the static data is what was set aside,
  and no two allocations share a word.
* `Compiler.exists_word_of_declares` — a global variable is where its declaration says.
-/

namespace MJ

open Machine (Block)

namespace Assembler

/-! ### Commands -/

/-- Static data is added, and every new instruction that stores into a static word has one of the
given offsets.  The second part is about the items of the code, in which no byte can be taken for an
instruction that it is not. -/
structure Adds (bs : List UInt8) (offsets : List Word) (a b : Assembler) : Prop where
  statics : b.statics.bytes.toList = a.statics.bytes.toList ++ bs
  items : ∀ items, a.LaidOut items → ∃ items', b.LaidOut items' ∧
    ∀ n, .whole (.putStatic n) ∈ items' → .whole (.putStatic n) ∈ items ∨
      ∃ offset ∈ offsets, Width.s16.holds offset = true ∧
        Region.static.storeInstruction offset = .putStatic n

namespace Adds

variable {a b : Assembler} {bs bs' : List UInt8} {offsets offsets' : List Word}

theorem refl (a : Assembler) : Adds [] [] a a where
  statics := (List.append_nil _).symm
  items items h := ⟨items, h, fun _ => Or.inl⟩

theorem trans {c : Assembler} (h : Adds bs offsets a b) (h' : Adds bs' offsets' b c) :
    Adds (bs ++ bs') (offsets ++ offsets') a c where
  statics := by rw [h'.statics, h.statics, List.append_assoc]
  items items hitems := by
    obtain ⟨items₁, hitems₁, hold⟩ := h.items items hitems
    obtain ⟨items₂, hitems₂, hnew⟩ := h'.items items₁ hitems₁
    refine ⟨items₂, hitems₂, fun n hn => ?_⟩
    rcases hnew n hn with hn | ⟨offset, hoffset, hstore⟩
    · rcases hold n hn with hn | ⟨offset, hoffset, hstore⟩
      · exact Or.inl hn
      · exact Or.inr ⟨offset, List.mem_append_left _ hoffset, hstore⟩
    · exact Or.inr ⟨offset, List.mem_append_right _ hoffset, hstore⟩

/-- Nothing is added to the static data, and no instruction that stores into it. -/
theorem of_items (hstatics : b.statics = a.statics)
    (h : ∀ items, a.LaidOut items → ∃ items', b.LaidOut items' ∧
      ∀ n, .whole (.putStatic n) ∈ items' → .whole (.putStatic n) ∈ items) : Adds [] [] a b where
  statics := by rw [hstatics, List.append_nil]
  items items hitems := by
    obtain ⟨items', hitems', hold⟩ := h items hitems
    exact ⟨items', hitems', fun n hn => Or.inl (hold n hn)⟩

theorem data (bs : List UInt8) (offsets : List Word) :
    Adds bs offsets a { a with statics := ⟨a.statics.bytes ++ bs⟩ } where
  statics := by simp
  items items h := ⟨items, { h with }, fun _ => Or.inl⟩

theorem frame {p : Procedure} (words : Nat) (hopen : a.procedure? = some p) :
    Adds [] [] a { a with procedure? := some { p with size := p.size + words } } :=
  of_items rfl fun items h => ⟨items, h.frame words hopen, fun _ => id⟩

theorem label {label : String} (hnew : a.labels.address? label = none) :
    Adds [] [] a (a.withLabel label) :=
  of_items rfl fun items h => ⟨items, h.label hnew, fun _ => id⟩

theorem code {is : List Instruction} (haccepts : a.Accepts is) (hstores : StoresAt offsets is) :
    Adds [] offsets a (a.append is) where
  statics := (List.append_nil _).symm
  items items h := by
    refine ⟨_, h.code haccepts, fun n hn => ?_⟩
    rcases List.mem_append.mp hn with hn | hn
    · exact Or.inl hn
    · obtain ⟨i, hi, hwhole⟩ := List.mem_map.mp hn
      exact Or.inr (hstores n (Item.whole.inj hwhole ▸ hi))

theorem await (t : Transfer) (label : String) : Adds [] [] a (a.await t label) :=
  of_items rfl fun items h => ⟨_, h.await t label, fun n hn => by simpa using hn⟩

theorem opening {label : String} (params : Nat) (isMain : Bool) (hclosed : a.procedure? = none)
    (hlabel : a.labels.address? label = some a.code.size) :
    Adds [] [] a (a.opened label params isMain) :=
  of_items rfl fun items h =>
    ⟨_, h.opening params isMain hclosed hlabel, fun n hn => by simpa using hn⟩

theorem closing {p : Procedure} {code : Draft} (hopen : a.procedure? = some p)
    (hfill : a.code.fillBytes p.sizeSlot [UInt8.ofNat p.size] = .ok code) :
    Adds [] [] a { a with code := code, procedure? := none } := by
  refine of_items rfl fun items h => ?_
  obtain ⟨code', hfill', hitems⟩ := h.closing hopen (UInt8.ofNat p.size)
  obtain rfl := Except.ok.inj (hfill.symm.trans hfill')
  refine ⟨_, hitems, fun n hn => ?_⟩
  obtain ⟨item, hitem, hclose⟩ := List.mem_map.mp hn
  cases item with
  | whole i =>
    rw [← hclose]
    exact hitem
  | waiting t label => cases hclose
  | opening params => cases hclose

/-- Filling labels in makes no instruction that stores into a static word, since it makes jumps,
branches and calls only. -/
theorem mem_of_resolve {labels : Labels} {items : List Item} {n : Int16}
    (h : .whole (.putStatic n) ∈ items.map (Item.resolve labels)) :
    .whole (.putStatic n) ∈ items := by
  obtain ⟨item, hitem, hresolve⟩ := List.mem_map.mp h
  cases item with
  | whole i =>
    rw [← hresolve]
    exact hitem
  | waiting t label => cases t <;> cases hresolve
  | opening params => cases hresolve

theorem resolving {code : Draft}
    (hfill : a.labels.fillAll a.code a.labels.references.reverse = .ok code) :
    Adds [] [] a (a.resolved code) := by
  refine of_items rfl fun items h => ?_
  obtain ⟨code', hfill', hitems⟩ := h.resolving
  obtain rfl := Except.ok.inj (hfill.symm.trans hfill')
  exact ⟨_, hitems, fun n => mem_of_resolve⟩

end Adds

/-- What every command adds to the static data, and where it stores.  Read off the change that the
command makes, and not off the command. -/
theorem Command.Changes.adds {command : Command} {a b : Assembler} (h : command.Changes a b) :
    Adds command.staticBytes command.staticStores a b := by
  cases h with
  | code is hbytes haccepts hstores =>
    rw [hbytes]
    exact .code haccepts hstores
  | await is t label hbytes _ haccepts hstores =>
    rw [hbytes, ← List.append_nil command.staticStores]
    exact (Adds.code haccepts hstores).trans (.await t label)
  | data hwords => exact .data _ _
  | frame p words hopen => exact .frame words hopen
  | label label hnew => exact .label hnew
  | opening label params isMain hclosed _ hnew =>
    exact (Adds.label hnew).trans
      (.opening params isMain hclosed (address?_withLabel_self a label))
  | closing label p code hopen _ hfill hnew =>
    exact ((Adds.closing hopen hfill).trans (.label hnew)).trans
      (.code (accepts_of_plain _ (by decide)) (storesAt_of_ne (by simp)))
  | unfinished => exact .refl a
  | resolving code _ hfill => exact .resolving hfill

end Assembler

/-- What commands add to the static data, and where they store, by induction on the commands. -/
theorem Assembler.Issued.adds {bs : List UInt8} {offsets : List Word} {a b : Assembler}
    (h : a.Issued bs offsets b) : a.Adds bs offsets b := by
  obtain ⟨commands, hsession, rfl, rfl⟩ := h
  induction commands generalizing a with
  | nil =>
    obtain ⟨-, rfl⟩ := EStateM.Result.ok.inj hsession
    exact .refl _
  | cons command commands ih =>
    obtain ⟨_, a₁, hrun, hrest⟩ := Action.bind_eq_ok.mp hsession
    exact (Command.changes hrun).adds.trans (ih hrest)

/-- Static data that is there stays as it is, and so an address that was handed out stays good. -/
theorem Assembler.isPrefix_of_effects {a b : Assembler} (h : Effects a b) :
    a.statics.bytes.toList <+: b.statics.bytes.toList := by
  induction h with
  | refl => exact List.prefix_rfl
  | tail _ heffect ih =>
    cases heffect with
    | data bs hwords =>
      refine ih.trans ?_
      rw [Array.toList_appendList]
      exact List.prefix_append _ _
    | frame | label | code | await | opening | closing | resolving => exact ih

/-! ### Allocations -/

/-- How many words are set aside. -/
def Storage.words (s : Storage) : Nat := s.bytes.length / wordSize

theorem Storage.length_bytes (s : Storage) : s.bytes.length = s.words * wordSize := by
  have haligned : s.bytes.length % wordSize = 0 := by
    cases s with
    | word => rfl
    | text t => exact Assembler.length_stringBytes t
  rw [words, Nat.div_mul_cancel (Nat.dvd_of_mod_eq_zero haligned)]

namespace Compiler

/-- Static words that were set aside. -/
structure Allocation where
  /-- The first of them. -/
  start : Nat
  /-- What is in them. -/
  storage : Storage
  deriving DecidableEq, Repr

/-- The words. -/
def Allocation.block (a : Allocation) : Block := ⟨a.start, a.storage.words⟩

/-- Allocations one behind the other, without gaps between them. -/
def place (start : Nat) : List Storage → List Allocation
  | [] => []
  | s :: rest => ⟨start, s⟩ :: place (start + s.words) rest

/-- How many words some allocations have together. -/
def extent (storage : List Storage) : Nat := (storage.flatMap Storage.bytes).length / wordSize

theorem length_extent (storage : List Storage) :
    (storage.flatMap Storage.bytes).length = extent storage * wordSize := by
  refine (Nat.div_mul_cancel ?_).symm
  induction storage with
  | nil => exact ⟨0, rfl⟩
  | cons s rest ih =>
    rw [List.flatMap_cons, List.length_append, s.length_bytes]
    exact Nat.dvd_add (Nat.dvd_mul_left _ _) ih

@[simp] theorem extent_nil : extent [] = 0 := rfl

@[simp] theorem extent_cons (s : Storage) (rest : List Storage) :
    extent (s :: rest) = s.words + extent rest := by
  have hlength := length_extent (s :: rest)
  rw [List.flatMap_cons, List.length_append, s.length_bytes, length_extent,
    ← Nat.add_mul] at hlength
  exact (Nat.mul_right_cancel (by decide) hlength).symm

theorem place_append (start : Nat) (storage storage' : List Storage) :
    place start (storage ++ storage')
      = place start storage ++ place (start + extent storage) storage' := by
  induction storage generalizing start with
  | nil => rfl
  | cons s rest ih => rw [List.cons_append, place, ih, place, extent_cons, Nat.add_assoc]; rfl

/-- An allocation is behind those before it: its address is the number of their words. -/
theorem mem_place {start : Nat} {storage : List Storage} {a : Allocation} :
    a ∈ place start storage ↔ ∃ before after, storage = before ++ a.storage :: after ∧
      a.start = start + extent before := by
  induction storage generalizing start with
  | nil =>
    refine ⟨fun h => absurd h List.not_mem_nil, ?_⟩
    rintro ⟨before, after, hsplit, -⟩
    cases before <;> cases hsplit
  | cons s rest ih =>
    rw [place, List.mem_cons, ih]
    constructor
    · rintro (rfl | ⟨before, after, rfl, hstart⟩)
      · exact ⟨[], rest, rfl, rfl⟩
      · refine ⟨s :: before, after, rfl, ?_⟩
        rw [hstart, extent_cons, Nat.add_assoc]
    · -- the allocation is the first one or behind it
      rintro ⟨before, after, hsplit, hstart⟩
      cases before with
      | nil =>
        obtain ⟨rfl, rfl⟩ := List.cons.inj hsplit
        exact Or.inl (by cases a; simp_all)
      | cons t before =>
        obtain ⟨rfl, rfl⟩ := List.cons.inj hsplit
        refine Or.inr ⟨before, after, rfl, ?_⟩
        rw [hstart, extent_cons, Nat.add_assoc]

theorem start_le_of_mem_place {start : Nat} {storage : List Storage} {a : Allocation}
    (h : a ∈ place start storage) : start ≤ a.start := by
  obtain ⟨before, after, -, hstart⟩ := mem_place.mp h
  rw [hstart]
  exact Nat.le_add_right _ _

/-- Allocations one behind the other share no word. -/
theorem pairwise_place (start : Nat) (storage : List Storage) :
    (place start storage).Pairwise fun a b => a.block.Apart b.block := by
  induction storage generalizing start with
  | nil => exact .nil
  | cons s rest ih =>
    exact .cons (fun b hb => Or.inl (start_le_of_mem_place hb)) (ih _)

namespace Exchange

/-- What a request of a session set aside. -/
def storage (e : Exchange) : List Storage := e.request.storage e.before e.answer

/-- The static words that a request of a session set aside. -/
def allocations (e : Exchange) : List Allocation :=
  place e.before.assembler.statics.words e.storage

end Exchange

/-- The static data is what the requests so far set aside, in order.  This is the invariant of
sessions from which all facts about addresses follow. -/
structure Stored (known : List Exchange) (c : Compiler) : Prop where
  bytes : c.assembler.statics.bytes.toList
    = (known.flatMap Exchange.storage).flatMap Storage.bytes
  placed : known.flatMap Exchange.allocations = place 0 (known.flatMap Exchange.storage)

theorem Stored.words {known : List Exchange} {c : Compiler} (h : Stored known c) :
    c.assembler.statics.words = extent (known.flatMap Exchange.storage) := by
  rw [Statics.words, ← Array.length_toList, h.bytes, extent]

theorem Stored.step {known : List Exchange} {e : Exchange} (h : Stored known e.before)
    (hsound : e.IsSound) : Stored (known ++ [e]) e.after where
  bytes := by
    rw [(Request.carried hsound).assembler.adds.statics, h.bytes]
    simp only [List.flatMap_append, List.flatMap_cons, List.flatMap_nil, List.append_nil]
    rfl
  placed := by
    simp only [List.flatMap_append, List.flatMap_cons, List.flatMap_nil, List.append_nil]
    rw [h.placed, place_append, Nat.zero_add, ← h.words]
    rfl

theorem stored_of_session {rs : List Request} {log : List Exchange} {c : Compiler}
    (h : session rs .empty = .ok log c) : Stored log c :=
  @session_induction (fun _ _ => True) Stored (fun _ _ hstored _ hsound => hstored.step hsound)
    rs [] log .empty c h (fun _ _ _ _ => trivial) ⟨rfl, rfl⟩

/-- No two allocations of a session share a word. -/
theorem Stored.pairwise {known : List Exchange} {c : Compiler} (h : Stored known c) :
    (known.flatMap Exchange.allocations).Pairwise fun a b => a.block.Apart b.block := by
  rw [h.placed]
  exact pairwise_place _ _

/-- What was set aside stays there, with the bytes that were in it at first. -/
theorem Stored.exists_bytes {known : List Exchange} {c : Compiler} (h : Stored known c)
    {a : Allocation} (ha : a ∈ known.flatMap Exchange.allocations) :
    ∃ bs bs', c.assembler.statics.bytes.toList = bs ++ (a.storage.bytes ++ bs') ∧
      bs.length = a.start * wordSize := by
  rw [h.placed] at ha
  obtain ⟨before, after, hsplit, hstart⟩ := mem_place.mp ha
  refine ⟨before.flatMap Storage.bytes, after.flatMap Storage.bytes, ?_, ?_⟩
  · rw [h.bytes, hsplit, List.flatMap_append, List.flatMap_cons]
  · rw [length_extent, hstart, Nat.zero_add]

/-- Allocations are within the static data. -/
theorem Stored.stop_le {known : List Exchange} {c : Compiler} (h : Stored known c)
    {a : Allocation} (ha : a ∈ known.flatMap Exchange.allocations) :
    a.block.stop * wordSize ≤ c.assembler.statics.bytes.size := by
  obtain ⟨bs, bs', hbytes, hlength⟩ := h.exists_bytes ha
  show (a.start + a.storage.words) * wordSize ≤ _
  rw [← Array.length_toList, hbytes, List.length_append, List.length_append, hlength,
    a.storage.length_bytes, Nat.add_mul]
  omega

/-! ### Variables -/

/-- A request gave a variable or constant a word, and the operand is made from it.  This is how a
caller comes by an operand that it may assign to. -/
def Exchange.Declares (e : Exchange) (x : Operand) : Prop :=
  ∃ s d, e.request = .allocVariable s ∧ s.isStored = true ∧ e.answer = .decl d ∧
    Operand.ofDecl d = .ok x

/-- Whether the target of a request that is an assignment has a property. -/
def Request.TargetMeets (P : Operand → Prop) : Request → Prop
  | construct (.assign target _) _ _ => P target
  | _ => True

/-- Only the place of a declaration changes.  The kinds of names that get no word are returned as
they are. -/
theorem isGlobal_of_allocVariable {s d : Decl} {c c' : Compiler}
    (h : allocVariable s c = .ok d c') :
    d.isGlobal = s.isGlobal := by
  obtain ⟨name, kind, type, isGlobal, isReadonly, offset?, id⟩ := s
  have hplaced (x : Asm Nat) (hx : ((do
      let offset ← x
      return ⟨name, kind, type, isGlobal, isReadonly, some (Int32.ofNat offset), id⟩) :
        Compile Decl) c = .ok d c') : d.isGlobal = isGlobal := by
    obtain ⟨offset, c₁, -, hdecl⟩ := Action.bind_eq_ok.mp hx
    obtain ⟨rfl, -⟩ := EStateM.Result.ok.inj hdecl
    rfl
  cases kind with
  | var | constant =>
    cases isGlobal with
    | true => exact hplaced (Assembler.allocStatic 1) h
    | false => exact hplaced (Assembler.allocLocal 1) h
  | _ =>
    obtain ⟨rfl, -⟩ := EStateM.Result.ok.inj h
    rfl

/-- What an operand takes from its declaration. -/
theorem ofDecl_eq_ok {s : Decl} {x : Operand} (h : Operand.ofDecl s = .ok x) :
    s.isGlobal = x.isGlobal ∧ s.offset? = some x.offset := by
  rw [Operand.ofDecl] at h
  split at h
  · split at h
    · rename_i offset hoffset
      obtain rfl := Except.ok.inj h
      exact ⟨rfl, hoffset⟩
    · cases h
  · cases h

/-- The operand of a global variable is at the word that was set aside for it. -/
theorem Exchange.Declares.word {e : Exchange} {x : Operand} (h : e.Declares x)
    (hsound : e.IsSound) (hglobal : x.isGlobal = true) :
    x.offset = Int32.ofNat e.before.assembler.statics.words ∧
      e.allocations = [⟨e.before.assembler.statics.words, .word⟩] := by
  obtain ⟨s, d, hrequest, hstored, hanswer, hx⟩ := h
  have hrun : (Request.allocVariable s).run e.before = .ok (.decl d) e.after := by
    rw [← hrequest, ← hanswer]
    exact hsound
  obtain ⟨d', c', halloc, hdone⟩ := Action.bind_eq_ok.mp hrun
  obtain rfl := Answer.decl.inj (EStateM.Result.ok.inj hdone).1
  obtain ⟨hisGlobal, hoffset⟩ := ofDecl_eq_ok hx
  have hs : s.isGlobal = true := by
    rw [← isGlobal_of_allocVariable halloc, hisGlobal, hglobal]
  obtain ⟨rfl, -⟩ := allocVariable_of_global hstored hs halloc
  refine ⟨(Option.some.inj hoffset).symm, ?_⟩
  simp only [allocations, storage, hrequest, Request.storage, hstored, hs, Bool.and_self, if_true,
    place]

/-- A global variable that a session declared has a word of its own. -/
theorem exists_word_of_declares {rs : List Request} {log : List Exchange} {c : Compiler}
    {e : Exchange} {x : Operand} (hsession : session rs .empty = .ok log c) (he : e ∈ log)
    (h : e.Declares x) (hglobal : x.isGlobal = true) :
    ∃ w, (⟨w, .word⟩ : Allocation) ∈ log.flatMap Exchange.allocations
      ∧ x.offset = Int32.ofNat w := by
  obtain ⟨hword, hallocations⟩ := h.word ((effects_of_session hsession).2 e he).1 hglobal
  refine ⟨_, List.mem_flatMap.mpr ⟨e, he, ?_⟩, hword⟩
  rw [hallocations]
  exact List.mem_singleton_self _

end Compiler
end MJ
