import MJ.Proofs.Addresses

/-!
# The label map of a program

The label map lists the labels of a program by address, then by name.  The table of labels has no
order of its own that would show in the list: a label stands there once, so there is one way only to
sort it.

## Main definitions

* `Labels.Before` — the order of the list.

## Main results

* `Labels.sorted_eq_of_perm` — the list does not depend on the order of the table.
* `Assembler.widen_labelMap` — addresses below 65536 are listed as they are.
* `Assembler.labelMap_lists` — **the label map is complete, ordered and agrees with the image.**
-/

namespace MJ

namespace Labels

/-! ### Labels by address and name -/

/-- Whether a label stands before another one: by address, then by name. -/
def Before (a b : String × Nat) : Prop := a.2 < b.2 ∨ (a.2 = b.2 ∧ a.1 < b.1)

/-- Labels are sorted by address, then by name, and the comparison decides this order. -/
theorem ranking : NameTable.Ranking (· < ·) le where
  irrefl := Nat.lt_irrefl
  trans := Nat.lt_trans
  total := Nat.lt_trichotomy
  le_iff := by simp [le]

/-- Of a table without repetitions, each label stands strictly before the ones after it: labels at
the same address have different names. -/
theorem pairwise_sorted {t : Labels} (hnodup : (t.defined.map Prod.fst).Nodup) :
    t.sorted.Pairwise Before :=
  ranking.pairwise_mergeSort hnodup

/-- The sorted labels do not depend on the order of the table. -/
theorem sorted_eq_of_perm {t u : Labels} (hnodup : (t.defined.map Prod.fst).Nodup)
    (hperm : u.defined.Perm t.defined) : u.sorted = t.sorted :=
  ranking.mergeSort_eq_of_perm hnodup hperm

/-- The addresses of labels do not depend on the order of the table either, if no label hides
another. -/
theorem address?_eq_of_perm {t u : Labels} (hnodup : (t.defined.map Prod.fst).Nodup)
    (hperm : u.defined.Perm t.defined) : u.address? = t.address? := by
  have hnodup' : (u.defined.map Prod.fst).Nodup := (hperm.map Prod.fst).nodup_iff.mpr hnodup
  funext label
  refine Option.ext fun n => ?_
  rw [address?_eq_some hnodup', address?_eq_some hnodup, hperm.mem_iff]

end Labels

namespace LabelMap

/-- A label of the map with its address as a number. -/
def widen (label : String × UInt16) : String × Nat := (label.1, label.2.toNat)

theorem before_widen {a b : String × UInt16} :
    Labels.Before (widen a) (widen b) ↔ a.2 < b.2 ∨ (a.2 = b.2 ∧ a.1 < b.1) := by
  rw [Labels.Before, UInt16.lt_iff_toNat_lt, ← UInt16.toNat_inj]
  rfl

theorem mem_namesAt {m : LabelMap} {address : Nat} {name : String} :
    name ∈ m.namesAt address ↔ (name, address) ∈ m.labels.map widen := by
  rw [namesAt, List.mem_filterMap, List.mem_map]
  refine exists_congr fun label => and_congr_right fun _ => ?_
  rw [Option.ite_none_right_eq_some, widen, Prod.mk.injEq, Option.some.injEq, and_comm]

/-- Labels at one address are in the order of their names.  They are picked from the list, which is
sorted by name where addresses are equal. -/
theorem pairwise_namesAt {m : LabelMap} (h : (m.labels.map widen).Pairwise Labels.Before)
    (address : Nat) : (m.namesAt address).Pairwise (· < ·) := by
  refine List.Pairwise.filterMap _ ?_ (List.pairwise_map.mp h)
  intro a b hab name hname name' hname'
  obtain ⟨haddress, hname⟩ := Option.ite_none_right_eq_some.mp hname
  obtain ⟨haddress', hname'⟩ := Option.ite_none_right_eq_some.mp hname'
  obtain rfl := Option.some.inj hname
  obtain rfl := Option.some.inj hname'
  rcases hab with hlt | ⟨-, hlt⟩
  · exact absurd (haddress.trans haddress'.symm) (Nat.ne_of_lt hlt)
  · exact hlt

end LabelMap

namespace Assembler

open LabelMap

/-! ### Programs of less than 65536 bytes -/

/-- In code of less than 65536 bytes, labels are listed with their own addresses, since even the end
of the code fits sixteen bits. -/
theorem widen_labelMap {a : Assembler} (h : Effects .empty a) (hsize : a.code.size < 65536) :
    a.labelMap.labels.map widen = a.labels.sorted := by
  rw [labelMap, List.map_map]
  refine (List.map_congr_left fun entry hentry => ?_).trans (List.map_id _)
  have hlabel : a.labels.address? entry.1 = some entry.2 :=
    address?_of_mem_defined h (List.mem_mergeSort.mp hentry)
  have hlt : entry.2 < 65536 := Nat.lt_of_le_of_lt (address_le_size h hlabel) hsize
  show (entry.1, (UInt16.ofNat entry.2).toNat) = entry
  rw [UInt16.toNat_ofNat', Nat.mod_eq_of_lt hlt]

/-- The labels of the map are the labels of the program. -/
theorem mem_widen_labelMap {a : Assembler} (h : Effects .empty a) (hsize : a.code.size < 65536)
    {label : String} {n : Nat} :
    (label, n) ∈ a.labelMap.labels.map widen ↔ a.labels.address? label = some n := by
  rw [widen_labelMap h hsize, Labels.sorted, List.mem_mergeSort,
    Labels.address?_eq_some (nodup_defined h)]

/-- The map does not depend on the order of the table of labels, which is that of their definition.
-/
theorem labelMap_of_perm {a : Assembler} (h : Effects .empty a) {table : List (String × Nat)}
    (hperm : table.Perm a.labels.defined) :
    { a with labels := { a.labels with defined := table } : Assembler }.labelMap = a.labelMap := by
  have hnodup := nodup_defined h
  rw [labelMap, labelMap, Labels.sorted_eq_of_perm hnodup hperm,
    Labels.address?_eq_of_perm hnodup hperm]

/-- After the program is finished, its main procedure is listed where a run starts.  Finishing
changes neither the labels nor which procedure is the main one. -/
theorem entry_of_finish {a b : Assembler} {image : Image} (h : Effects .empty a)
    (hsize : a.code.size < 65536) (hfinish : finish a = .ok (.ok image) b) :
    b.labelMap = a.labelMap ∧ b.labelMap.entry.toNat = image.header.startPc.toNat ∧
      ∃ main, b.main? = some main ∧ (main, b.labelMap.entry) ∈ b.labelMap.labels := by
  obtain ⟨hdefined, hmain?⟩ := defined_of_finish hfinish
  have haddress : b.labels.address? = a.labels.address? := by
    unfold Labels.address?
    rw [hdefined]
  have hmap : b.labelMap = a.labelMap := by
    simp only [labelMap, Labels.sorted, haddress, hdefined, hmain?]
  obtain ⟨-, main, n, hmain, hlabel, hstart⟩ := segments_of_finish hfinish
  have hlt : n < a.code.size := main_lt_size h hmain hlabel
  have hentry : a.labelMap.entry = UInt16.ofNat n := by
    rw [labelMap, hmain, Option.bind_some, hlabel, Option.getD_some]
  refine ⟨hmap, ?_, main, hmain?.trans hmain, ?_⟩
  · rw [hmap, hentry, hstart, UInt16.toNat_ofNat', UInt32.toNat_ofNat']
    omega
  · rw [hmap, hentry]
    have hmem : (main, n) ∈ a.labels.sorted :=
      List.mem_mergeSort.mpr ((Labels.address?_eq_some (nodup_defined h)).mp hlabel)
    exact List.mem_map_of_mem (f := fun entry => (entry.1, UInt16.ofNat entry.2)) hmem

/-- **The label map lists the labels of a program.**  In code of less than 65536 bytes every
defined label is listed once with its address, by address and then by name, whatever the order of
the table of labels; the labels of an address are those that stand there, by name; and once the
program is finished, its main procedure is listed as the entry, where a run of the image starts. -/
theorem labelMap_lists {commands : List Command} {a : Assembler}
    (hsession : session commands .empty = .ok () a) (hsize : a.code.size < 65536) :
    (∀ label n, (label, n) ∈ a.labelMap.labels.map widen ↔ a.labels.address? label = some n) ∧
    (a.labelMap.labels.map Prod.fst).Nodup ∧
    a.labelMap.labels.Pairwise (fun l r => l.2 < r.2 ∨ (l.2 = r.2 ∧ l.1 < r.1)) ∧
    (∀ table, table.Perm a.labels.defined →
      { a with labels := { a.labels with defined := table } : Assembler }.labelMap
        = a.labelMap) ∧
    (∀ address, (∀ name, name ∈ a.labelMap.namesAt address ↔
        a.labels.address? name = some address) ∧
      (a.labelMap.namesAt address).Pairwise (· < ·)) ∧
    ∀ image b, finish a = .ok (.ok image) b →
      b.labelMap = a.labelMap ∧ b.labelMap.entry.toNat = image.header.startPc.toNat ∧
        ∃ main, b.main? = some main ∧ (main, b.labelMap.entry) ∈ b.labelMap.labels := by
  have heffects : Effects .empty a := effects_session hsession
  have hbefore : (a.labelMap.labels.map widen).Pairwise Labels.Before := by
    rw [widen_labelMap heffects hsize]
    exact Labels.pairwise_sorted (nodup_defined heffects)
  have hnames : (a.labels.sorted.map Prod.fst).Nodup :=
    ((List.mergeSort_perm _ _).map Prod.fst).nodup_iff.mpr (nodup_defined heffects)
  refine ⟨fun label n => mem_widen_labelMap heffects hsize, ?_, ?_,
    fun _ => labelMap_of_perm heffects, fun address => ⟨fun name => ?_, ?_⟩,
    fun _ _ => entry_of_finish heffects hsize⟩
  · rw [← widen_labelMap heffects hsize, List.map_map] at hnames
    exact hnames
  · exact (List.pairwise_map.mp hbefore).imp before_widen.mp
  · rw [mem_namesAt, mem_widen_labelMap heffects hsize]
  · exact pairwise_namesAt hbefore address

/-- A program with two labels at the end of its code. -/
def crowdedProgram : Assembler := (paddedProgram 0).withLabel "again"

/-- The two labels are listed by name, whatever the order in which they were defined. -/
theorem labelMap_lists_crowded :
    session (padded 0 ++ [.define "again"]) .empty = .ok () crowdedProgram ∧
    crowdedProgram.code.size < 65536 ∧
    (∀ name, name ∈ crowdedProgram.labelMap.namesAt 5 ↔
      crowdedProgram.labels.address? name = some 5) ∧
    (crowdedProgram.labelMap.namesAt 5).Pairwise (· < ·) ∧
    { crowdedProgram with
        labels := ⟨[("end", 5), ("main", 0), ("again", 5), ("main_end", 3)], []⟩
      : Assembler }.labelMap = crowdedProgram.labelMap ∧
    finish crowdedProgram = .ok (.ok (.ofSegments (paddedCode 0) [] 0)) crowdedProgram ∧
    ∃ main, crowdedProgram.main? = some main ∧
      (main, crowdedProgram.labelMap.entry) ∈ crowdedProgram.labelMap.labels := by
  have hdefine : define "again" (paddedProgram 0) = .ok () crowdedProgram := define_eq rfl
  have hsession : session (padded 0 ++ [.define "again"]) .empty = .ok () crowdedProgram :=
    session_append.mpr ⟨_, session_padded 0, session_cons.mpr ⟨crowdedProgram, hdefine, rfl⟩⟩
  have hsize : crowdedProgram.code.size < 65536 := by decide
  have hfinish : finish crowdedProgram
      = .ok (.ok (.ofSegments (paddedCode 0) [] 0)) crowdedProgram := by rfl
  obtain ⟨-, -, -, hperm, hnames, hentry⟩ := labelMap_lists hsession hsize
  exact ⟨hsession, hsize, (hnames 5).1, (hnames 5).2, hperm _ (by decide), hfinish,
    (hentry _ _ hfinish).2.2⟩

end Assembler
end MJ
