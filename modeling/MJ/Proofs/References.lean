import MJ.Proofs.Layout
import MJ.Proofs.Realization

/-!
# References to labels

The bytes that wait for the addresses of labels are all different, so that filling them in has one
result, whatever the order in which they are visited.

## Main definitions

* `Labels.awaited` — the addresses of the bytes that references wait for.
* `Labels.Reorders` — tables that differ in the order of their references only.

## Main results

* `Labels.fillAll_of_holes` — references that wait for different holes can be filled in, and
  nothing else changes.
* `Labels.fillAll_isOk_iff` — these are the only references that can be filled in.
* `Labels.resolve_eq_ok_iff` — a missing label is named and nothing changes, or all are filled in.
* `Labels.Reorders.resolve` — **the order of the references does not matter.**
* `Assembler.LaidOut.awaited` — a program waits for different holes.
-/

namespace MJ

namespace Draft

/-- Two drafts with the same slot at every address are the same. -/
theorem ext_slots {d e : Draft} (h : ∀ k : Nat, d.slots[k]? = e.slots[k]?) : d = e := by
  cases d
  cases e
  exact congrArg Draft.mk (Array.ext_getElem? h)

/-- Bytes can be filled in where there are holes.  By induction on the bytes, with the address
moving on. -/
theorem fillBytes_of_holes {d : Draft} {address : Nat} {bs : List UInt8}
    (h : ∀ k, k < bs.length → d.slots[address + k]? = some .hole) :
    ∃ d', d.fillBytes address bs = .ok d' := by
  induction bs generalizing d address with
  | nil => exact ⟨d, rfl⟩
  | cons b bs ih =>
    have hfirst : d.slots[address]? = some .hole := h 0 (Nat.zero_lt_succ _)
    rw [fillBytes, hfirst]
    apply ih
    intro k hk
    -- the byte that is filled in first is none of the others
    have hne : address ≠ address + 1 + k := by omega
    have hnext := h (k + 1) (Nat.succ_lt_succ hk)
    rw [show address + (k + 1) = address + 1 + k by omega] at hnext
    rw [Array.getElem?_setIfInBounds_ne hne, hnext]

end Draft

namespace Labels

/-! ### Filling references in -/

/-- The addresses of the bytes that references wait for.  Each reference waits for two. -/
def awaited (references : List (String × Nat)) : List Nat :=
  references.flatMap fun r => [r.2, r.2 + 1]

@[simp] theorem awaited_nil : awaited [] = [] := rfl

@[simp] theorem awaited_cons (r : String × Nat) (references : List (String × Nat)) :
    awaited (r :: references) = r.2 :: (r.2 + 1) :: awaited references := rfl

@[simp] theorem awaited_append (references references' : List (String × Nat)) :
    awaited (references ++ references') = awaited references ++ awaited references' :=
  List.flatMap_append

theorem mem_awaited {references : List (String × Nat)} {k : Nat} :
    k ∈ awaited references ↔ ∃ r ∈ references, ∃ i, i < 2 ∧ k = r.2 + i := by
  simp only [awaited, List.mem_flatMap, List.mem_cons, List.not_mem_nil, or_false]
  constructor
  · rintro ⟨r, hr, rfl | rfl⟩
    · exact ⟨r, hr, 0, by omega, rfl⟩
    · exact ⟨r, hr, 1, by omega, rfl⟩
  · rintro ⟨r, hr, i, hi, rfl⟩
    refine ⟨r, hr, ?_⟩
    omega

theorem awaited_perm {references references' : List (String × Nat)}
    (h : references.Perm references') : (awaited references).Perm (awaited references') :=
  h.flatMap_right _

/-- Filling references in adds no bytes. -/
theorem size_fillAll {t : Labels} {d d' : Draft} {references : List (String × Nat)}
    (h : t.fillAll d references = .ok d') : d'.size = d.size := by
  induction references generalizing d with
  | nil =>
    cases h
    rfl
  | cons r references ih =>
    obtain ⟨d₁, hfill, hothers⟩ := fillAll_cons_eq_ok.mp h
    rw [ih hothers, (Draft.fillBytes_spec hfill).1]

/-- Only the addresses of the labels that are referred to matter. -/
theorem fillAll_congr {t t' : Labels} {references : List (String × Nat)}
    (h : ∀ r ∈ references, t.address? r.1 = t'.address? r.1) (d : Draft) :
    t.fillAll d references = t'.fillAll d references := by
  induction references generalizing d with
  | nil => rfl
  | cons r references ih =>
    obtain ⟨label, slot⟩ := r
    have hlabel : t.address? label = t'.address? label := h (label, slot) List.mem_cons_self
    have hrest := ih fun r hr => h r (List.mem_cons_of_mem _ hr)
    simp only [fillAll, hlabel, hrest]

/-- References that wait for different holes can be filled in, and nothing else changes.  By
induction on the references: to fill one in leaves the holes of the others. -/
theorem fillAll_of_holes (t : Labels) {d : Draft} {references : List (String × Nat)}
    (hnodup : (awaited references).Nodup)
    (hholes : ∀ k ∈ awaited references, d.slots[k]? = some .hole) :
    ∃ d', t.fillAll d references = .ok d' ∧
      ∀ k, k ∉ awaited references → d'.slots[k]? = d.slots[k]? := by
  induction references generalizing d with
  | nil => exact ⟨d, rfl, fun _ _ => rfl⟩
  | cons r references ih =>
    obtain ⟨label, slot⟩ := r
    have hlength : (Width.s16.encode (Int32.ofNat ((t.address? label).getD 0))).length = 2 :=
      Width.length_encode _ _
    simp only [awaited_cons, List.nodup_cons, List.mem_cons, not_or] at hnodup hholes
    obtain ⟨d₁, hfill⟩ : ∃ d₁, d.fillBytes slot
        (Width.s16.encode (Int32.ofNat ((t.address? label).getD 0))) = .ok d₁ := by
      apply Draft.fillBytes_of_holes
      intro k hk
      apply hholes
      omega
    obtain ⟨-, houtside, -⟩ := Draft.fillBytes_spec hfill
    rw [hlength] at houtside
    -- the holes of the other references are still there
    have hother : ∀ k ∈ awaited references, d₁.slots[k]? = some .hole := by
      intro k hk
      have hne : k ≠ slot ∧ k ≠ slot + 1 := by
        constructor
        · rintro rfl
          exact hnodup.1.2 hk
        · rintro rfl
          exact hnodup.2.1 hk
      rw [houtside k (by omega)]
      exact hholes k (Or.inr (Or.inr hk))
    obtain ⟨d', hrest, hsame⟩ := ih hnodup.2.2 hother
    refine ⟨d', ?_, ?_⟩
    · exact fillAll_cons_eq_ok.mpr ⟨d₁, hfill, hrest⟩
    · intro k hk
      simp only [awaited_cons, List.mem_cons, not_or] at hk
      rw [hsame k hk.2.2, houtside k (by omega)]

/-- References can be filled in exactly if they wait for different holes, since a byte that has been
filled in is no hole for a second reference. -/
theorem fillAll_isOk_iff {t : Labels} {d : Draft} {references : List (String × Nat)} :
    (∃ d', t.fillAll d references = .ok d') ↔
      (awaited references).Nodup ∧ ∀ k ∈ awaited references, d.slots[k]? = some .hole := by
  constructor
  · rintro ⟨d', h⟩
    induction references generalizing d with
    | nil => simp
    | cons r references ih =>
      obtain ⟨d₁, hfill, hrest⟩ := fillAll_cons_eq_ok.mp h
      obtain ⟨hnodup, hholes⟩ := ih hrest
      obtain ⟨-, houtside, hinside⟩ := Draft.fillBytes_spec hfill
      rw [Width.length_encode, Width.size] at houtside hinside
      -- the two bytes are known after the first reference, so that no later one waits for them
      have hother : ∀ i, i < 2 → r.2 + i ∉ awaited references := by
        intro i hi hawaited
        have hknown := (hinside i hi).2
        rw [hholes _ hawaited] at hknown
        obtain ⟨b, -, hb⟩ := Option.map_eq_some_iff.mp hknown.symm
        cases hb
      simp only [awaited_cons, List.nodup_cons, List.mem_cons, not_or]
      refine ⟨⟨⟨by omega, hother 0 (by omega)⟩, hother 1 (by omega), hnodup⟩, ?_⟩
      rintro k (rfl | rfl | hk)
      · exact (hinside 0 (by omega)).1
      · exact (hinside 1 (by omega)).1
      · rw [← houtside k ?_, hholes k hk]
        rcases Nat.lt_or_ge k r.2 with hlt | hge
        · exact Or.inl hlt
        · refine Or.inr (Nat.le_of_not_lt fun hlt => hother (k - r.2) (by omega) ?_)
          rwa [Nat.add_sub_cancel' hge]
  · rintro ⟨hnodup, hholes⟩
    obtain ⟨d', h, -⟩ := t.fillAll_of_holes hnodup hholes
    exact ⟨d', h⟩

/-- A draft is determined by what it was before references were filled in: an awaited byte is that
of its label, and any other is as before. -/
theorem fillAll_unique {t : Labels} {d d₁ d₂ : Draft}
    {references₁ references₂ : List (String × Nat)}
    (hperm : references₁.Perm references₂) (h₁ : t.fillAll d references₁ = .ok d₁)
    (h₂ : t.fillAll d references₂ = .ok d₂)
    (hsame₁ : ∀ k, k ∉ awaited references₁ → d₁.slots[k]? = d.slots[k]?)
    (hsame₂ : ∀ k, k ∉ awaited references₂ → d₂.slots[k]? = d.slots[k]?) : d₁ = d₂ := by
  apply Draft.ext_slots
  intro k
  by_cases hk : k ∈ awaited references₁
  · obtain ⟨r, hr, i, hi, rfl⟩ := mem_awaited.mp hk
    rw [(fillAll_spec h₁).2 r hr i hi, (fillAll_spec h₂).2 r (hperm.mem_iff.mp hr) i hi]
  · have hk' : k ∉ awaited references₂ := fun h => hk ((awaited_perm hperm).mem_iff.mpr h)
    rw [hsame₁ k hk, hsame₂ k hk']

/-- References that wait for different holes may be filled in in any order. -/
theorem fillAll_perm (t : Labels) {d : Draft} {references references' : List (String × Nat)}
    (hperm : references.Perm references') (hnodup : (awaited references).Nodup)
    (hholes : ∀ k ∈ awaited references, d.slots[k]? = some .hole) :
    t.fillAll d references = t.fillAll d references' := by
  have hawaited := awaited_perm hperm
  obtain ⟨d₁, h₁, hsame₁⟩ := t.fillAll_of_holes hnodup hholes
  obtain ⟨d₂, h₂, hsame₂⟩ := t.fillAll_of_holes (hawaited.nodup_iff.mp hnodup)
    fun k hk => hholes k (hawaited.mem_iff.mpr hk)
  rw [h₁, h₂, fillAll_unique hperm h₁ h₂ hsame₁ hsame₂]

/-! ### The label that is missing -/

/-- The least of some names does not depend on their order, as there is only one. -/
theorem least?_perm {names names' : List String} (hperm : names.Perm names') :
    least? names = least? names' := by
  cases h : least? names with
  | none =>
    obtain rfl := least?_eq_none h
    rw [List.nil_perm.mp hperm]
    rfl
  | some name =>
    obtain ⟨hmem, hleast⟩ := least?_eq_some h
    cases h' : least? names' with
    | none =>
      obtain rfl := least?_eq_none h'
      rw [List.perm_nil.mp hperm] at hmem
      cases hmem
    | some name' =>
      -- each of the two is not above the other
      obtain ⟨hmem', hleast'⟩ := least?_eq_some h'
      have hle : name ≤ name' := hleast name' (hperm.mem_iff.mpr hmem')
      have hge : name' ≤ name := hleast' name (hperm.mem_iff.mp hmem)
      rw [String.le_antisymm hle hge]

/-- A request for all labels names one that is missing and changes nothing, or it fills all of them
in. -/
theorem resolve_eq_ok_iff {t t' : Labels} {d d' : Draft} {result : Except ImageError Unit} :
    t.resolve d = .ok (result, t', d') ↔
      (∃ label, t.undefined? = some label ∧ result = .error (.undefinedLabel label) ∧ t' = t ∧
        d' = d) ∨
      (t.undefined? = none ∧ t.fillAll d t.references.reverse = .ok d' ∧ result = .ok () ∧
        t' = { t with references := [] }) := by
  rw [resolve]
  cases t.undefined? with
  | some label =>
    constructor
    · intro h
      cases h
      exact Or.inl ⟨label, rfl, rfl, rfl, rfl⟩
    · rintro (⟨label', hlabel, rfl, rfl, rfl⟩ | ⟨hnone, -⟩)
      · cases hlabel
        rfl
      · cases hnone
  | none =>
    constructor
    · intro h
      obtain ⟨code, hfill, hresult⟩ := Action.except_bind_eq_ok.mp h
      cases hresult
      exact Or.inr ⟨rfl, hfill, rfl, rfl⟩
    · rintro (⟨label, hlabel, -⟩ | ⟨-, hfill, rfl, rfl⟩)
      · cases hlabel
      · exact Action.except_bind_eq_ok.mpr ⟨d', hfill, rfl⟩

/-- Two tables that differ at most in the order of their references. -/
structure Reorders (t t' : Labels) : Prop where
  /-- The same labels are defined, in the same order. -/
  defined : t.defined = t'.defined
  /-- The same references are open, in any order. -/
  references : t.references.Perm t'.references

namespace Reorders

variable {t u : Labels} {d : Draft}

theorem refl (t : Labels) : t.Reorders t := ⟨rfl, .refl _⟩

theorem symm (h : u.Reorders t) : t.Reorders u := ⟨h.defined.symm, h.references.symm⟩

theorem trans {v : Labels} (h : u.Reorders t) (h' : t.Reorders v) : u.Reorders v :=
  ⟨h.defined.trans h'.defined, h.references.trans h'.references⟩

theorem address? (h : u.Reorders t) : u.address? = t.address? := by
  unfold Labels.address?
  rw [h.defined]

/-- Which label is missing does not depend on the order of the references. -/
theorem undefined? (h : u.Reorders t) : u.undefined? = t.undefined? := by
  rw [Labels.undefined?, Labels.undefined?, h.address?]
  exact least?_perm ((h.references.map _).filter _)

/-- References that can be filled in at all can be in any order.  That they can be says that they
wait for different holes, which is all that is needed. -/
theorem fillAll (h : u.Reorders t) {d' : Draft}
    (hfill : t.fillAll d t.references.reverse = .ok d') :
    u.fillAll d u.references.reverse = .ok d' := by
  obtain ⟨hnodup, hholes⟩ := fillAll_isOk_iff.mp ⟨d', hfill⟩
  have hreverse : t.references.reverse.Perm u.references.reverse :=
    t.references.reverse_perm.trans (h.references.symm.trans u.references.reverse_perm.symm)
  have hlabels : u.fillAll d u.references.reverse = t.fillAll d u.references.reverse :=
    fillAll_congr (fun r _ => by rw [h.address?]) d
  rw [hlabels, ← t.fillAll_perm hreverse hnodup hholes, hfill]

/-- **The order of the references does not matter**: a request for all labels has the same answer
and the same draft. -/
theorem resolve (h : u.Reorders t) {result : Except ImageError Unit} {t' : Labels} {d' : Draft}
    (hresolve : t.resolve d = .ok (result, t', d')) :
    ∃ u', u'.Reorders t' ∧ u.resolve d = .ok (result, u', d') := by
  rcases resolve_eq_ok_iff.mp hresolve with ⟨label, hlabel, rfl, rfl, rfl⟩ |
    ⟨hnone, hfill, rfl, rfl⟩
  · exact ⟨u, h, resolve_eq_ok_iff.mpr
      (Or.inl ⟨label, h.undefined?.trans hlabel, rfl, rfl, rfl⟩)⟩
  · refine ⟨{ u with references := [] }, ⟨h.defined, .refl _⟩, ?_⟩
    exact resolve_eq_ok_iff.mpr (Or.inr ⟨h.undefined?.trans hnone, h.fillAll hfill, rfl, rfl⟩)

/-- Up to the order of what is left, two tables that differ in the order only have the same
outcomes. -/
theorem resolve_iff (h : u.Reorders t) {result : Except ImageError Unit} {t' : Labels}
    {d' : Draft} :
    (∃ u', u'.Reorders t' ∧ u.resolve d = .ok (result, u', d')) ↔
      ∃ u', u'.Reorders t' ∧ t.resolve d = .ok (result, u', d') := by
  constructor
  · rintro ⟨u', hu', hresolve⟩
    obtain ⟨v, hv, hresolve⟩ := h.symm.resolve hresolve
    exact ⟨v, hv.trans hu', hresolve⟩
  · rintro ⟨u', hu', hresolve⟩
    obtain ⟨v, hv, hresolve⟩ := h.resolve hresolve
    exact ⟨v, hv.trans hu', hresolve⟩

end Reorders

/-- Labels that wait for different holes can be filled in, or one of them is missing. -/
theorem resolve_isOk (t : Labels) {d : Draft} (hnodup : (awaited t.references).Nodup)
    (hholes : ∀ k ∈ awaited t.references, d.slots[k]? = some .hole) :
    ∃ result t' d', t.resolve d = .ok (result, t', d') := by
  cases hundefined : t.undefined? with
  | some label =>
    exact ⟨_, _, _, resolve_eq_ok_iff.mpr (Or.inl ⟨label, hundefined, rfl, rfl, rfl⟩)⟩
  | none =>
    have hawaited := awaited_perm t.references.reverse_perm
    obtain ⟨d', hfill, -⟩ := t.fillAll_of_holes (hawaited.nodup_iff.mpr hnodup)
      fun k hk => hholes k (hawaited.mem_iff.mp hk)
    exact ⟨_, _, _, resolve_eq_ok_iff.mpr (Or.inr ⟨hundefined, hfill, rfl, rfl⟩)⟩

end Labels

namespace Assembler

open Item

/-- The bytes that references wait for are different holes, none of them the size of the open
frame.  All holes of a program are accounted for by its items, and no hole twice. -/
theorem LaidOut.awaited {a : Assembler} {items : List Item} (h : a.LaidOut items) :
    (Labels.awaited a.labels.references).Nodup ∧
      (∀ k ∈ Labels.awaited a.labels.references, a.code.slots[k]? = some .hole) ∧
      ∀ p, a.procedure? = some p → p.sizeSlot ∉ Labels.awaited a.labels.references := by
  have hholes : a.code.holes.Perm (Labels.awaited a.labels.references ++
      a.procedure?.toList.map Procedure.sizeSlot) := h.holes_perm
  have hnodup := hholes.nodup_iff.mp (Draft.nodup_holes a.code)
  rw [List.nodup_append] at hnodup
  refine ⟨hnodup.1, ?_, ?_⟩
  · intro k hk
    exact Draft.mem_holes.mp (hholes.mem_iff.mpr (List.mem_append_left _ hk))
  · intro p hp hmem
    rw [hp] at hnodup
    exact hnodup.2.2 _ hmem _ (List.mem_singleton.mpr rfl) rfl

end Assembler
end MJ
