import MJ.Proofs.Resolution

/-!
# Finishing a program in between

A program may be finished, continued and finished again.  To finish it in between fills labels in
earlier than otherwise, and makes no difference in the end.

The two programs, with and without the labels filled in early, are not the same on the way.  They
are related by `Assembler.AheadBy`, and every command that can be carried out on the one can be
carried out on the other and keeps them related.

## Main definitions

* `Assembler.AheadBy` — a program in which some references of another are filled in already.
* `Asm.Transparent` — an action that does not tell the two programs apart.

## Main results

* `Assembler.AheadBy.finish` — the two programs are finished with the same result.
* `Assembler.AheadBy.session` — the same commands can be carried out on both.
* `Assembler.finish_transparent` — **finishing a program in between makes no difference, and
  finishing it twice neither.**
-/

namespace MJ

/-! ### Filling in early -/

/-- Filling is not disturbed by slots that follow.  By induction on the bytes, each of which is
looked for among the first slots. -/
theorem Draft.fillBytes_extend {d d' e : Draft} {address : Nat} {bs : List UInt8}
    {more : List Slot} (h : d.fillBytes address bs = .ok d')
    (he : e.slots.toList = d.slots.toList ++ more) :
    ∃ e', e.fillBytes address bs = .ok e' ∧ e'.slots.toList = d'.slots.toList ++ more := by
  induction bs generalizing d e address with
  | nil =>
    cases h
    exact ⟨e, rfl, he⟩
  | cons b bs ih =>
    rw [fillBytes] at h
    cases hslot : d.slots[address]? with
    | none =>
      rw [hslot] at h
      cases h
    | some slot =>
      rw [hslot] at h
      cases slot with
      | known c => cases h
      | hole =>
        -- the hole is among the first slots, and so it is the same one in both drafts
        have hlt : address < d.slots.toList.length := (Array.getElem?_eq_some_iff.mp hslot).1
        have hslot' : e.slots[address]? = some .hole := by
          rw [← Array.getElem?_toList, he, List.getElem?_append_left hlt, Array.getElem?_toList,
            hslot]
        have hset : (e.slots.setIfInBounds address (.known b)).toList
            = (d.slots.setIfInBounds address (.known b)).toList ++ more := by
          rw [Array.toList_setIfInBounds, Array.toList_setIfInBounds, he,
            List.set_append_left _ _ hlt]
        obtain ⟨e', hfill, he'⟩ := ih (e := ⟨e.slots.setIfInBounds address (.known b)⟩) h hset
        refine ⟨e', ?_, he'⟩
        rw [fillBytes, hslot']
        exact hfill

namespace Labels

/-- Filling references in is not disturbed by slots that follow. -/
theorem fillAll_extend {t : Labels} {d d' e : Draft} {references : List (String × Nat)}
    {more : List Slot} (h : t.fillAll d references = .ok d')
    (he : e.slots.toList = d.slots.toList ++ more) :
    ∃ e', t.fillAll e references = .ok e' ∧ e'.slots.toList = d'.slots.toList ++ more := by
  induction references generalizing d e with
  | nil =>
    cases h
    exact ⟨e, rfl, he⟩
  | cons r references ih =>
    obtain ⟨d₁, hfill, hothers⟩ := fillAll_cons_eq_ok.mp h
    obtain ⟨e₁, hfirst, he₁⟩ := Draft.fillBytes_extend hfill he
    obtain ⟨e', hrest, he'⟩ := ih hothers he₁
    exact ⟨e', fillAll_cons_eq_ok.mpr ⟨e₁, hfirst, hrest⟩, he'⟩

/-- References can be filled in in two parts, which is how the ones that were filled in early are
split off. -/
theorem fillAll_append {t : Labels} {d d₁ : Draft} {references references' : List (String × Nat)}
    (h : t.fillAll d references = .ok d₁) :
    t.fillAll d (references ++ references') = t.fillAll d₁ references' := by
  induction references generalizing d with
  | nil =>
    cases h
    rfl
  | cons r references ih =>
    obtain ⟨d₂, hfill, hothers⟩ := fillAll_cons_eq_ok.mp h
    rw [List.cons_append, fillAll, Draft.fill, hfill]
    exact ih hothers

/-- A byte that no reference waits for may be filled in before or after the references.  It is the
byte for the size of a frame. -/
theorem fillAll_fillBytes {t : Labels} {d d' e : Draft} {references : List (String × Nat)}
    {slot : Nat} {byte : UInt8} (hnodup : (awaited references).Nodup)
    (hholes : ∀ k ∈ awaited references, d.slots[k]? = some .hole)
    (hslot : slot ∉ awaited references) (hall : t.fillAll d references = .ok d')
    (hone : d.fillBytes slot [byte] = .ok e) :
    ∃ e', d'.fillBytes slot [byte] = .ok e' ∧ t.fillAll e references = .ok e' := by
  -- the references first: the byte is still a hole
  obtain ⟨d₁, hd₁, houtside⟩ := t.fillAll_of_holes hnodup hholes
  obtain rfl : d₁ = d' := Except.ok.inj (hd₁.symm.trans hall)
  obtain ⟨-, hother, hhole⟩ := Draft.fillBytes_spec hone
  have hhole' : ∀ k, k < [byte].length → d₁.slots[slot + k]? = some .hole := by
    intro k hk
    obtain rfl : k = 0 := Nat.lt_one_iff.mp hk
    rw [Nat.add_zero, houtside slot hslot]
    exact (hhole 0 Nat.one_pos).1
  obtain ⟨e', he'⟩ := Draft.fillBytes_of_holes hhole'
  obtain ⟨-, hother', hfilled'⟩ := Draft.fillBytes_spec he'
  -- the byte first: the references still wait for holes
  have hne : ∀ k ∈ awaited references, k < slot ∨ slot + [byte].length ≤ k := by
    intro k hk
    have hk' : k ≠ slot := by
      rintro rfl
      exact hslot hk
    simp only [List.length_singleton]
    omega
  obtain ⟨e₁, he₁, houtside'⟩ := t.fillAll_of_holes (d := e) hnodup fun k hk =>
    (hother k (hne k hk)).trans (hholes k hk)
  refine ⟨e', he', ?_⟩
  rw [he₁]
  refine congrArg Except.ok (Draft.ext_slots fun k => ?_)
  by_cases hk : k ∈ awaited references
  · obtain ⟨r, hr, i, hi, rfl⟩ := mem_awaited.mp hk
    rw [hother' _ (hne _ hk), (fillAll_spec he₁).2 r hr i hi, (fillAll_spec hd₁).2 r hr i hi]
  · rw [houtside' k hk]
    by_cases hks : k = slot
    · subst hks
      exact ((hhole 0 Nat.one_pos).2).trans (hfilled' 0 Nat.one_pos).2.symm
    · have hk' : k < slot ∨ slot + [byte].length ≤ k := by
        simp only [List.length_singleton]
        omega
      rw [hother k hk', hother' k hk', houtside k hk]

end Labels

namespace Assembler

/-- In the program `a'` the references `older` are filled in, the earliest ones of the program `a`;
apart from that the two programs are the same. -/
structure AheadBy (older : List (String × Nat)) (a a' : Assembler) : Prop where
  statics : a'.statics = a.statics
  procedure : a'.procedure? = a.procedure?
  main : a'.main? = a.main?
  defined : a'.labels.defined = a.labels.defined
  references : a.labels.references = a'.labels.references ++ older
  /-- The labels that were filled in are defined. -/
  known : ∀ r ∈ older, a.labels.address? r.1 ≠ none
  code : a.labels.fillAll a.code older.reverse = .ok a'.code

namespace AheadBy

variable {older : List (String × Nat)} {a a' : Assembler}

theorem refl (a : Assembler) : AheadBy [] a a :=
  ⟨rfl, rfl, rfl, rfl, (List.append_nil _).symm, (fun _ hr => nomatch hr), rfl⟩

theorem address? (h : AheadBy older a a') : a'.labels.address? = a.labels.address? := by
  unfold Labels.address?
  rw [h.defined]

theorem size (h : AheadBy older a a') : a'.code.size = a.code.size := Labels.size_fillAll h.code

theorem labelMap (h : AheadBy older a a') : a'.labelMap = a.labelMap := by
  simp only [Assembler.labelMap, Labels.sorted, h.defined, h.main, h.address?]

/-- Slots may be added to both programs, since what was filled in early is in front of them. -/
theorem extend (h : AheadBy older a a') {d d' : Draft} {more : List Slot}
    (hd : d.slots.toList = a.code.slots.toList ++ more)
    (hd' : d'.slots.toList = a'.code.slots.toList ++ more) :
    AheadBy older (a.withCode d) (a'.withCode d') := by
  obtain ⟨e, hfill, he⟩ := Labels.fillAll_extend h.code hd
  refine { h with code := ?_ }
  rw [Draft.ext_toList (hd'.trans he.symm)]
  exact hfill

theorem withCode_append (h : AheadBy older a a') (bs : List UInt8) :
    AheadBy older (a.withCode (a.code.append bs)) (a'.withCode (a'.code.append bs)) :=
  h.extend (Draft.toList_append _ _) (Draft.toList_append _ _)

theorem withCode_emitHoles (h : AheadBy older a a') (n : Nat) :
    AheadBy older (a.withCode (a.code.emitHoles n)) (a'.withCode (a'.code.emitHoles n)) :=
  h.extend (Draft.toList_emitHoles _ _) (Draft.toList_emitHoles _ _)

/-- A new label changes nothing about those that were filled in, because these were defined before.
-/
theorem withLabel (h : AheadBy older a a') {label : String}
    (hnew : a.labels.address? label = none) :
    AheadBy older (a.withLabel label) (a'.withLabel label) := by
  have hsame : ∀ r ∈ older, (a.withLabel label).labels.address? r.1 = a.labels.address? r.1 := by
    intro r hr
    -- a label that was filled in has an address, and the new one has none yet
    have hne : r.1 ≠ label := by
      intro hlabel
      exact h.known r hr (hlabel ▸ hnew)
    rw [address?_withLabel, if_neg hne]
  refine { h with defined := ?_, known := ?_, code := ?_ }
  · simp only [Assembler.withLabel, h.defined, h.size]
  · intro r hr
    rw [hsame r hr]
    exact h.known r hr
  · refine (Labels.fillAll_congr ?_ _).trans h.code
    intro r hr
    exact hsame r (List.mem_reverse.mp hr)

/-- Labels that are filled in are not missing, so the same one is. -/
theorem undefined? (h : AheadBy older a a') : a'.labels.undefined? = a.labels.undefined? := by
  have hnone : (older.map (·.1)).filter (fun label => (a.labels.address? label).isNone) = [] := by
    rw [List.filter_eq_nil_iff]
    intro label hlabel hnone
    obtain ⟨r, hr, rfl⟩ := List.mem_map.mp hlabel
    exact h.known r hr (Option.isNone_iff_eq_none.mp hnone)
  simp only [Labels.undefined?, h.references, h.address?, List.map_append, List.filter_append,
    hnone, List.append_nil]

/-- What is left to fill in gives the same code in both programs: the references are filled in from
the earliest on, and the one program has begun with it. -/
theorem fillAll_references (h : AheadBy older a a') :
    a'.labels.fillAll a'.code a'.labels.references.reverse
      = a.labels.fillAll a.code a.labels.references.reverse := by
  rw [h.references, List.reverse_append, Labels.fillAll_append h.code]
  apply Labels.fillAll_congr
  intro r _
  rw [h.address?]

/-- **The two programs are finished with the same result**, and they are the same afterwards,
unless finishing failed and changed neither. -/
theorem finish (h : AheadBy older a a') {r : Except ImageError Image} {b : Assembler}
    (hfinish : finish a = .ok r b) :
    ∃ b', Assembler.finish a' = .ok r b' ∧ (b' = b ∨ b = a ∧ b' = a') := by
  have hprocedure := h.procedure
  have hmain := h.main
  -- the cases are the checks of `finish` in their order; each comes out the same for both
  unfold Assembler.finish at hfinish ⊢
  rw [hprocedure, hmain, h.address?]
  cases hopen : a.procedure? with
  | some p =>
    rw [hopen] at hfinish
    obtain ⟨rfl, rfl⟩ := EStateM.Result.ok.inj hfinish
    exact ⟨a', rfl, Or.inr ⟨rfl, rfl⟩⟩
  | none =>
    rw [hopen] at hfinish
    cases hmain? : a.main? with
    | none =>
      rw [hmain?] at hfinish
      obtain ⟨rfl, rfl⟩ := EStateM.Result.ok.inj hfinish
      exact ⟨a', rfl, Or.inr ⟨rfl, rfl⟩⟩
    | some main =>
      rw [hmain?] at hfinish
      simp only at hfinish ⊢
      cases hstart : a.labels.address? main with
      | none =>
        rw [hstart] at hfinish
        obtain ⟨rfl, rfl⟩ := EStateM.Result.ok.inj hfinish
        exact ⟨a', rfl, Or.inr ⟨rfl, rfl⟩⟩
      | some startPc =>
        rw [hstart] at hfinish
        simp only at hfinish ⊢
        rw [Labels.resolve, h.undefined?, h.fillAll_references]
        rw [Labels.resolve] at hfinish
        cases hundefined : a.labels.undefined? with
        | some label =>
          rw [hundefined] at hfinish
          obtain ⟨rfl, rfl⟩ := EStateM.Result.ok.inj hfinish
          rw [← hopen, ← hmain?]
          refine ⟨a', ?_, Or.inr ⟨rfl, rfl⟩⟩
          rw [← hprocedure, ← hmain]
        | none =>
          rw [hundefined] at hfinish
          cases hfill : a.labels.fillAll a.code a.labels.references.reverse with
          | error misuse =>
            rw [hfill] at hfinish
            cases hfinish
          | ok code =>
            -- all labels are filled in now, so that the programs do not differ any more
            rw [hfill] at hfinish
            obtain ⟨rfl, rfl⟩ := EStateM.Result.ok.inj hfinish
            simp only [h.statics, h.defined]
            exact ⟨_, rfl, Or.inl rfl⟩

/-- A program that is finished is ahead of what it was, by all its references or by none. -/
theorem of_finish {r : Except ImageError Image} {b : Assembler}
    (hfinish : Assembler.finish a = .ok r b) : ∃ older, AheadBy older a b := by
  rcases finish_cases hfinish with ⟨rfl, -⟩ | ⟨_, _, code, -, -, -, hdefined, hfill, rfl, -⟩
  · exact ⟨[], .refl b⟩
  · refine ⟨a.labels.references, rfl, rfl, rfl, rfl, rfl, ?_, hfill⟩
    intro r hr hnone
    exact Labels.not_lacks_of_undefined? hdefined r.1 ⟨List.mem_map_of_mem hr, hnone⟩

/-- The open procedure can be left in both programs.  This fills in the size of the frame, for which
no reference waits; that the program is laid out is needed to know so. -/
theorem exit (h : AheadBy older a a') {items : List Item} (hitems : a.LaidOut items)
    {label : String} {b : Assembler} (hexit : Assembler.exit label a = .ok () b) :
    ∃ b', Assembler.exit label a' = .ok () b' ∧ AheadBy older b b' := by
  obtain ⟨p, code, hopen, hsize, hfill, hnew, rfl⟩ := exit_eq_ok hexit
  -- the size of the frame is none of the bytes that were filled in
  obtain ⟨hnodup, hholes, hframe⟩ := hitems.awaited
  rw [h.references, Labels.awaited_append] at hnodup hholes hframe
  have hreverse := Labels.awaited_perm older.reverse_perm
  obtain ⟨code', hfill', hcode⟩ := Labels.fillAll_fillBytes
    (hreverse.nodup_iff.mpr (List.nodup_append.mp hnodup).2.1)
    (fun k hk => hholes k (List.mem_append_right _ (hreverse.mem_iff.mp hk)))
    (fun hk => hframe p hopen (List.mem_append_right _ (hreverse.mem_iff.mp hk)))
    h.code hfill
  refine ⟨_, exit_eq (h.procedure.trans hopen) hsize hfill' (h.address? ▸ hnew), ?_⟩
  have hclosed : AheadBy older { a with code := code, procedure? := none }
      { a' with code := code', procedure? := none } :=
    { h with procedure := rfl, code := hcode }
  exact (hclosed.withLabel hnew).withCode_append _

end AheadBy
end Assembler

/-! ### Actions that do not tell the programs apart -/

/-- An action that can be carried out on a program in which references are filled in, if it can be
on the other one, and has the same answer. -/
def Asm.Transparent {α : Type} (x : Asm α) : Prop :=
  ∀ ⦃older : List (String × Nat)⦄ ⦃a a' b : Assembler⦄ ⦃v : α⦄,
    Assembler.AheadBy older a a' → x a = .ok v b →
      ∃ b', x a' = .ok v b' ∧ Assembler.AheadBy older b b'

namespace Asm.Transparent

open Assembler

theorem pure {α : Type} (v : α) : Transparent (Pure.pure v : Asm α) := by
  intro older a a' b w h hx
  obtain ⟨rfl, rfl⟩ := EStateM.Result.ok.inj hx
  exact ⟨a', rfl, h⟩

/-- A sequence of such actions.  The answer of the first one is the same for both programs, and so
is what follows. -/
theorem bind {α β : Type} {x : Asm α} {f : α → Asm β} (hx : x.Transparent)
    (hf : ∀ v, (f v).Transparent) : (x >>= f).Transparent := by
  intro older a a' c w h hbind
  obtain ⟨v, b, hxa, hfb⟩ := Action.bind_eq_ok.mp hbind
  obtain ⟨b', hxa', hb⟩ := hx h hxa
  obtain ⟨c', hfb', hc⟩ := hf v hb hfb
  exact ⟨c', Action.bind_eq_ok.mpr ⟨v, b', hxa', hfb'⟩, hc⟩

/-- An action that appends instructions which depend on their address at most. -/
theorem of_append {x : Asm Unit} (is : Nat → List Instruction)
    (hx : ∀ a, x a = .ok () (a.append (is a.code.size))) : x.Transparent := by
  intro older a a' b _ h hxa
  rw [hx] at hxa
  obtain ⟨-, rfl⟩ := EStateM.Result.ok.inj hxa
  refine ⟨_, hx a', ?_⟩
  rw [h.size]
  exact h.withCode_append _

theorem emit (op : Opcode) : (Assembler.emit op).Transparent := by
  intro older a a' b _ h hx
  rw [emit_eq] at hx
  obtain ⟨-, rfl⟩ := EStateM.Result.ok.inj hx
  exact ⟨_, emit_eq op a', h.withCode_append _⟩

theorem emitWith (op : Opcode) (w : Width) (v : Word) :
    (Assembler.emitWith op w v).Transparent := by
  intro older a a' b _ h hx
  have hemit : ∀ a, Assembler.emitWith op w v a
      = .ok () (a.withCode (a.code.append (op.byte :: w.encode v))) := by
    intro a
    rw [Assembler.emitWith, if_pos (holds_of_emitWith hx), Draft.emitOperand_emit]
    rfl
  rw [hemit] at hx
  obtain ⟨-, rfl⟩ := EStateM.Result.ok.inj hx
  exact ⟨_, hemit a', h.withCode_append _⟩

theorem emitHoles (n : Nat) : (Assembler.emitHoles n).Transparent := by
  intro older a a' b _ h hx
  rw [emitHoles_eq] at hx
  obtain ⟨rfl, rfl⟩ := EStateM.Result.ok.inj hx
  refine ⟨_, ?_, h.withCode_emitHoles n⟩
  rw [emitHoles_eq, h.size]

theorem pushConst (v : Word) : (Assembler.pushConst v).Transparent :=
  .of_append (fun _ => [.ofConst v]) (pushConst_eq v)

theorem compare (test : Comparison) : (Assembler.compare test).Transparent :=
  .of_append (compareCode test) (compare_eq test)

theorem define (label : String) : (Assembler.define label).Transparent := by
  intro older a a' b _ h hx
  obtain ⟨hnew, rfl⟩ := withLabel_of_define hx
  exact ⟨_, define_eq (h.address? ▸ hnew), h.withLabel hnew⟩

/-- An instruction that goes to a label waits for it in both programs or in none. -/
theorem emitLabel (op : Opcode) (label : String) : (Assembler.emitLabel op label).Transparent := by
  have haddress : (Assembler.addressOf? label).Transparent := by
    intro older a a' b _ h hx
    obtain ⟨rfl, rfl⟩ := EStateM.Result.ok.inj hx
    refine ⟨a', ?_, h⟩
    rw [addressOf?, h.address?]
  have hrefer : ∀ slot, (Assembler.refer label slot).Transparent := by
    intro slot older a a' b _ h hx
    obtain ⟨-, rfl⟩ := EStateM.Result.ok.inj hx
    refine ⟨_, rfl, { h with references := ?_, code := ?_ }⟩
    · simp only [Labels.refer, h.references, List.cons_append]
    · refine (Labels.fillAll_congr ?_ _).trans h.code
      intro r _
      rfl
  refine haddress.bind fun address? => ?_
  cases address? with
  | some n => exact .emitWith op .s16 _
  | none => exact (Transparent.emit op).bind fun _ => (Transparent.emitHoles 2).bind hrefer

theorem allocStatic (words : Nat) : (Assembler.allocStatic words).Transparent := by
  intro older a a' b n h hx
  obtain ⟨rfl, rfl⟩ := allocStatic_eq_ok hx
  refine ⟨{ a' with statics := a'.statics.alloc words }, ?_,
    { h with statics := congrArg (Statics.alloc · words) h.statics }⟩
  unfold Assembler.allocStatic at hx ⊢
  rw [h.statics]
  split at hx
  · rw [if_pos ‹_›]
  · cases hx

theorem allocString (text : String) : (Assembler.allocString text).Transparent := by
  intro older a a' b n h hx
  obtain ⟨rfl, rfl⟩ := EStateM.Result.ok.inj hx
  refine ⟨{ a' with statics := a'.statics.allocString text }, ?_,
    { h with statics := congrArg (Statics.allocString · text) h.statics }⟩
  unfold Assembler.allocString
  rw [h.statics]

theorem allocLocal (words : Nat) : (Assembler.allocLocal words).Transparent := by
  intro older a a' b n h hx
  have hprocedure := h.procedure
  unfold Assembler.allocLocal at hx ⊢
  rw [hprocedure]
  cases hopen : a.procedure? with
  | none =>
    rw [hopen] at hx
    cases hx
  | some p =>
    rw [hopen] at hx
    simp only at hx ⊢
    cases halloc : p.alloc words with
    | error misuse =>
      rw [halloc] at hx
      cases hx
    | ok pair =>
      rw [halloc] at hx
      obtain ⟨rfl, rfl⟩ := EStateM.Result.ok.inj hx
      exact ⟨_, rfl, { h with procedure := rfl }⟩

theorem requireClosed (label : String) : (Assembler.requireClosed label).Transparent := by
  intro older a a' b _ h hx
  obtain ⟨hclosed, rfl⟩ := requireClosed_eq_ok hx
  refine ⟨a', ?_, h⟩
  rw [Assembler.requireClosed, h.procedure, hclosed]

theorem claimMain (label : String) : (Assembler.claimMain label).Transparent := by
  intro older a a' b _ h hx
  obtain ⟨hmain, rfl⟩ := claimMain_eq_ok hx
  refine ⟨{ a' with main? := some label }, ?_, { h with main := rfl }⟩
  rw [Assembler.claimMain, h.main, hmain]

theorem enter (label : String) (params : Nat) (isMain : Bool) :
    (Assembler.enter label params isMain).Transparent := by
  have hset : ∀ slot, (modify fun a : Assembler =>
      { a with procedure? := some (.ofParams label params slot) } : Asm Unit).Transparent := by
    intro slot older a a' b _ h hx
    obtain ⟨-, rfl⟩ := EStateM.Result.ok.inj hx
    exact ⟨_, rfl, { h with procedure := rfl }⟩
  have hbegin : (do
      Assembler.define label
      Assembler.emitWith .enter .s8 (Int32.ofNat params)
      let slot ← Assembler.emitHoles 1
      modify fun a => { a with procedure? := some (.ofParams label params slot) } :
        Asm Unit).Transparent :=
    (Transparent.define label).bind fun _ => (Transparent.emitWith _ _ _).bind fun _ =>
      (Transparent.emitHoles 1).bind hset
  refine (requireClosed label).bind fun _ => ?_
  cases isMain with
  | false => exact hbegin
  | true => exact (claimMain label).bind fun _ => hbegin

end Asm.Transparent

namespace Assembler

/-! ### Commands and sessions -/

/-- A command that can be carried out on a program can be on one that is ahead of it.  Two commands
fill something in and are treated apart; finishing may bring the programs together again, so that
the references between them change. -/
theorem AheadBy.run {older : List (String × Nat)} {a a' b : Assembler} (h : AheadBy older a a')
    {items : List Item} (hitems : a.LaidOut items) {command : Command}
    (hrun : command.run a = .ok () b) :
    ∃ older' b', command.run a' = .ok () b' ∧ AheadBy older' b b' := by
  have hof : command.run.Transparent →
      ∃ older' b', command.run a' = .ok () b' ∧ AheadBy older' b b' := by
    intro htransparent
    obtain ⟨b', hb', hahead⟩ := htransparent h hrun
    exact ⟨older, b', hb', hahead⟩
  cases command with
  | exit label =>
    obtain ⟨b', hb', hahead⟩ := h.exit hitems hrun
    exact ⟨older, b', hb', hahead⟩
  | finish =>
    obtain ⟨r, c, hfinish, hpure⟩ := Action.bind_eq_ok.mp hrun
    obtain ⟨-, rfl⟩ := EStateM.Result.ok.inj hpure
    obtain ⟨b', hb', hsame⟩ := h.finish hfinish
    have hrun' : Command.finish.run a' = .ok () b' := Action.bind_eq_ok.mpr ⟨r, b', hb', rfl⟩
    -- after a success both have all labels filled in, and after a failure neither has changed
    rcases hsame with rfl | ⟨rfl, rfl⟩
    · exact ⟨[], b', hrun', .refl b'⟩
    · exact ⟨older, b', hrun', h⟩
  | define label => exact hof (.define label)
  | allocStatic words => exact hof ((Asm.Transparent.allocStatic words).bind fun _ => .pure _)
  | allocString text => exact hof ((Asm.Transparent.allocString text).bind fun _ => .pure _)
  | allocLocal words => exact hof ((Asm.Transparent.allocLocal words).bind fun _ => .pure _)
  | newObject words => exact hof (.emitWith .new .s16 _)
  | newArray => exact hof (.emitWith .newarray .s8 1)
  | pushConst v => exact hof (.pushConst v)
  | loadWord r offset => exact hof (.emitWith r.loadOpcode r.offsetWidth offset)
  | storeWord r offset => exact hof (.emitWith r.storeOpcode r.offsetWidth offset)
  | printInteger => exact hof ((Asm.Transparent.pushConst 0).bind fun _ => .emit .print)
  | printByte => exact hof ((Asm.Transparent.pushConst 0).bind fun _ => .emit .bprint)
  | printString address => exact hof (.emitWith .sprint .s16 _)
  | disjunction =>
    exact hof ((Asm.Transparent.emit .add).bind fun _ =>
      (Asm.Transparent.pushConst 1).bind fun _ => .compare .ge)
  | negation =>
    exact hof ((Asm.Transparent.emit .neg).bind fun _ =>
      (Asm.Transparent.pushConst 1).bind fun _ => .emit .add)
  | compare test => exact hof (.compare test)
  | branchIf value label =>
    exact hof ((Asm.Transparent.pushConst _).bind fun _ => .emitLabel .jeq label)
  | jump label => exact hof (.emitLabel .jmp label)
  | call label => exact hof (.emitLabel .call label)
  | enter label params isMain => exact hof (.enter label params isMain)
  | loadElement | storeElement | arrayLength | readInteger | readByte | neg | add | sub | mul
  | div | rem | conjunction => exact hof (.emit _)

/-- Commands that can be carried out on a program can be on one that is ahead of it.  By induction
on the commands. -/
theorem AheadBy.session {older : List (String × Nat)} {a a' b : Assembler}
    (h : AheadBy older a a') (hreached : Effects .empty a) {commands : List Command}
    (hsession : session commands a = .ok () b) :
    ∃ older' b', Assembler.session commands a' = .ok () b' ∧ AheadBy older' b b' := by
  induction commands generalizing older a a' with
  | nil =>
    obtain ⟨-, rfl⟩ := EStateM.Result.ok.inj hsession
    exact ⟨older, a', rfl, h⟩
  | cons command commands ih =>
    obtain ⟨c, hrun, hrest⟩ := session_cons.mp hsession
    obtain ⟨items, hitems⟩ := laidOut_of_effects hreached
    obtain ⟨older₁, c', hrun', hc⟩ := h.run hitems hrun
    obtain ⟨older', b', hrest', hb⟩ := ih hc (hreached.trans (command.regular hrun)) hrest
    exact ⟨older', b', session_cons.mpr ⟨c', hrun', hrest'⟩, hb⟩

/-- A program that cannot be finished stays as it is, unless it is too large.  Its size is looked at
only after the references are filled in. -/
theorem LaidOut.eq_of_finish_error {a b : Assembler} {items : List Item} (h : a.LaidOut items)
    {cause : ImageError} (hfinish : Assembler.finish a = .ok (.error cause) b)
    (hcause : ∀ size, cause ≠ .codeTooLarge size) : b = a := by
  rcases finish_cases hfinish with ⟨rfl, -⟩ |
    ⟨_, startPc, code, hclosed, -, -, -, hfill, rfl, himage⟩
  · rfl
  · -- once all labels are filled in, only the size of the code can be wrong
    obtain ⟨code', hfill', hlaid⟩ := h.resolving
    obtain rfl := Except.ok.inj (hfill.symm.trans hfill')
    obtain ⟨is, -, hbytes⟩ := hlaid.bytes_eq rfl hclosed
    rw [Assembler.image, hbytes] at himage
    split at himage
    · exact absurd (Except.error.inj himage) (hcause _)
    · cases himage

/-- **Finishing a program in between makes no difference.**  Whatever comes of it, the commands
that follow can be carried out as well, and in the end the result is the same, and so is the label
map.  Finishing a program once more has the same result and changes nothing, and a program that
cannot be finished stays as it is, unless its code is too large. -/
theorem finish_transparent {before after : List Command} {a : Assembler}
    (h : session (before ++ after) .empty = .ok () a) :
    ∃ a' r b b', session (before ++ .finish :: after) .empty = .ok () a' ∧
      finish a = .ok r b ∧ finish a' = .ok r b' ∧ a'.labelMap = a.labelMap ∧
      b'.labelMap = b.labelMap ∧ finish b = .ok r b ∧
      ∀ cause, r = .error cause → (∀ size, cause ≠ .codeTooLarge size) → b = a := by
  obtain ⟨a₁, hbefore, hafter⟩ := session_append.mp h
  have hreached := effects_session hbefore
  -- in between
  obtain ⟨items₁, hitems₁⟩ := laidOut_of_effects hreached
  obtain ⟨r₁, b₁, hfinish₁, -⟩ := hitems₁.finish
  obtain ⟨older, hahead⟩ := AheadBy.of_finish hfinish₁
  obtain ⟨older', a', hafter', hahead'⟩ := hahead.session hreached hafter
  -- in the end
  obtain ⟨items, hitems⟩ := laidOut_of_session h
  obtain ⟨r, b, hfinish, -⟩ := hitems.finish
  obtain ⟨b', hfinish', hsame⟩ := hahead'.finish hfinish
  have hrun : Command.finish.run a₁ = .ok () b₁ :=
    Action.bind_eq_ok.mpr ⟨r₁, b₁, hfinish₁, rfl⟩
  have hsession : session (before ++ .finish :: after) .empty = .ok () a' :=
    session_append.mpr ⟨a₁, hbefore, session_cons.mpr ⟨b₁, hrun, hafter'⟩⟩
  refine ⟨a', r, b, b', hsession, hfinish, hfinish', hahead'.labelMap, ?_, ?_, ?_⟩
  · rcases hsame with rfl | ⟨rfl, rfl⟩
    · rfl
    · exact hahead'.labelMap
  · obtain ⟨_, htwice⟩ := AheadBy.of_finish hfinish
    obtain ⟨c, hc, hsame'⟩ := htwice.finish hfinish
    rcases hsame' with rfl | ⟨rfl, rfl⟩
    · exact hc
    · exact hc
  · rintro cause rfl hcause
    exact hitems.eq_of_finish_error hfinish hcause

/-- A jump is filled in early, and a procedure with another jump follows. -/
theorem finish_transparent_continued : ∃ a : Assembler,
    session ([.enter "main" 0 true, .jump "end", .exit "end"] ++
      [.enter "helper" 1 false, .jump "done", .exit "done"]) .empty = .ok () a ∧
    ∃ a' r b b', session ([.enter "main" 0 true, .jump "end", .exit "end"] ++
        .finish :: [.enter "helper" 1 false, .jump "done", .exit "done"]) .empty = .ok () a' ∧
      finish a = .ok r b ∧ finish a' = .ok r b' ∧ a'.labelMap = a.labelMap ∧
      b'.labelMap = b.labelMap ∧ finish b = .ok r b := by
  have hsession : session ([.enter "main" 0 true, .jump "end", .exit "end"] ++
      [.enter "helper" 1 false, .jump "done", .exit "done"]) .empty = .ok () {
        code := ⟨#[.known 48, .known 0, .known 0, .known 39, .hole, .hole, .known 49, .known 47,
          .known 48, .known 1, .known 1, .known 39, .hole, .hole, .known 49, .known 47]⟩
        statics := .empty
        labels := ⟨[("done", 14), ("helper", 8), ("end", 6), ("main", 0)],
          [("done", 12), ("end", 4)]⟩
        procedure? := none
        main? := some "main" } := by
    decide +kernel
  obtain ⟨a', r, b, b', h, hfinish, hfinish', hmap, hmap', htwice, -⟩ :=
    finish_transparent hsession
  exact ⟨_, hsession, a', r, b, b', h, hfinish, hfinish', hmap, hmap', htwice⟩

end Assembler
end MJ
