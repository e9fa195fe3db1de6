/-!
# Tables of names

A table pairs names with numbers: labels with their addresses, mnemonics with their counts.  If each
name stands there once, the table is a function of the name, and there is one way only to sort it by
number and then by name.

## Main definitions

* `NameTable.Precedes` — the order of two entries, given the order of numbers.
* `NameTable.Ranking` — a test that sorts entries so.

## Main results

* `NameTable.lookup_eq_some` — in a table without repetitions, the entries are what is looked up.
* `NameTable.Ranking.pairwise_mergeSort` — such a table is sorted strictly.
* `NameTable.Ranking.eq_mergeSort` — **there is one way only to sort it.**
-/

namespace MJ
namespace NameTable

/-- In a table without repetitions, the entries are what is looked up.  Otherwise the first entry of
a name would hide the others. -/
theorem lookup_eq_some {table : List (String × Nat)} (hnodup : (table.map Prod.fst).Nodup)
    {name : String} {n : Nat} : table.lookup name = some n ↔ (name, n) ∈ table := by
  constructor
  · intro hname
    obtain ⟨front, back, hsplit, -⟩ := List.lookup_eq_some_iff.mp hname
    rw [hsplit]
    exact List.mem_append_right _ List.mem_cons_self
  · intro hmem
    obtain ⟨front, back, hsplit⟩ := List.append_of_mem hmem
    refine List.lookup_eq_some_iff.mpr ⟨front, back, hsplit, fun entry hentry => ?_⟩
    rw [hsplit, List.map_append, List.nodup_append] at hnodup
    have hne := hnodup.2.2 entry.1 (List.mem_map_of_mem hentry) name List.mem_cons_self
    exact bne_iff_ne.mpr (Ne.symm hne)

/-! ### Entries by number and name -/

/-- Whether an entry stands before another one: by number, then by name.  Addresses go up and counts
go down, so that the order of numbers is a parameter. -/
def Precedes (before : Nat → Nat → Prop) (a b : String × Nat) : Prop :=
  before a.2 b.2 ∨ (a.2 = b.2 ∧ a.1 < b.1)

/-- A test that compares entries by number, in a strict order, and then by name.  These are the
facts on the order of numbers that sorting needs. -/
structure Ranking (before : Nat → Nat → Prop) (le : String × Nat → String × Nat → Bool) : Prop where
  /-- No number comes before itself. -/
  irrefl : ∀ n, ¬ before n n
  /-- The order of numbers is transitive. -/
  trans : ∀ {m n k}, before m n → before n k → before m k
  /-- Of two different numbers one comes before the other. -/
  total : ∀ m n, before m n ∨ m = n ∨ before n m
  /-- Names decide between equal numbers. -/
  le_iff : ∀ {a b}, le a b = true ↔ before a.2 b.2 ∨ (a.2 = b.2 ∧ a.1 ≤ b.1)

namespace Ranking

variable {before : Nat → Nat → Prop} {le : String × Nat → String × Nat → Bool}
  {a b c : String × Nat} {table sorted : List (String × Nat)}

theorem le_trans (h : Ranking before le) (hab : le a b = true) (hbc : le b c = true) :
    le a c = true := by
  rw [h.le_iff] at hab hbc ⊢
  rcases hab with hab | ⟨hab, hab'⟩ <;> rcases hbc with hbc | ⟨hbc, hbc'⟩
  · exact Or.inl (h.trans hab hbc)
  · exact Or.inl (hbc ▸ hab)
  · exact Or.inl (hab ▸ hbc)
  · exact Or.inr ⟨hab.trans hbc, String.le_trans hab' hbc'⟩

theorem le_total (h : Ranking before le) (a b : String × Nat) : le a b = true ∨ le b a = true := by
  rw [h.le_iff, h.le_iff]
  rcases h.total a.2 b.2 with hlt | heq | hgt
  · exact Or.inl (Or.inl hlt)
  · rcases String.le_total a.1 b.1 with hle | hle
    · exact Or.inl (Or.inr ⟨heq, hle⟩)
    · exact Or.inr (Or.inr ⟨heq.symm, hle⟩)
  · exact Or.inr (Or.inl hgt)

/-- Different names leave no doubt about the order, since names are totally ordered. -/
theorem precedes_of_le (h : Ranking before le) (hle : le a b = true) (hne : a.1 ≠ b.1) :
    Precedes before a b := by
  rcases h.le_iff.mp hle with hlt | ⟨heq, hle⟩
  · exact Or.inl hlt
  · exact Or.inr ⟨heq, String.not_le.mp fun hge => hne (String.le_antisymm hle hge)⟩

theorem asymm (h : Ranking before le) (hab : Precedes before a b) : ¬ Precedes before b a := by
  rintro (hba | ⟨hba, hba'⟩) <;> rcases hab with hab | ⟨hab, hab'⟩
  · exact h.irrefl _ (h.trans hab hba)
  · exact h.irrefl _ (hab ▸ hba)
  · exact h.irrefl _ (hba ▸ hab)
  · exact String.lt_asymm hab' hba'

/-- Of a table without repetitions, each entry stands strictly before the ones after it.  Sorting
gives the weak order, and the names make it strict. -/
theorem pairwise_mergeSort (h : Ranking before le) (hnodup : (table.map Prod.fst).Nodup) :
    (table.mergeSort le).Pairwise (Precedes before) := by
  have hsorted : (table.mergeSort le).Pairwise fun a b => le a b = true := by
    apply List.pairwise_mergeSort
    · intro a b c
      exact h.le_trans
    · intro a b
      rw [Bool.or_eq_true]
      exact h.le_total a b
  have hnames : ((table.mergeSort le).map Prod.fst).Nodup :=
    ((List.mergeSort_perm table le).map Prod.fst).nodup_iff.mpr hnodup
  exact hsorted.imp₂ (fun _ _ => h.precedes_of_le) (List.pairwise_map.mp hnames)

/-- There is one way only to sort a table without repetitions: two sorted lists with the same
entries are equal, because the order is strict. -/
theorem eq_mergeSort (h : Ranking before le) (hnodup : (table.map Prod.fst).Nodup)
    (hperm : sorted.Perm table) (hsorted : sorted.Pairwise (Precedes before)) :
    sorted = table.mergeSort le := by
  refine (hperm.trans (List.mergeSort_perm table le).symm).eq_of_pairwise ?_ hsorted
    (h.pairwise_mergeSort hnodup)
  intro a b _ _ hab hba
  exact absurd hba (h.asymm hab)

/-- The sorted table does not depend on the order of the entries, and so not on how the table was
built. -/
theorem mergeSort_eq_of_perm (h : Ranking before le) (hnodup : (table.map Prod.fst).Nodup)
    {other : List (String × Nat)} (hperm : other.Perm table) :
    other.mergeSort le = table.mergeSort le := by
  have hnodup' : (other.map Prod.fst).Nodup := (hperm.map Prod.fst).nodup_iff.mpr hnodup
  exact h.eq_mergeSort hnodup ((List.mergeSort_perm other le).trans hperm)
    (h.pairwise_mergeSort hnodup')

end Ranking
end NameTable
end MJ
