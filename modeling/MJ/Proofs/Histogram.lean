import Mathlib.Data.List.Nodup
import MJ.Code
import MJ.Proofs.NameTable

/-!
# How often instructions occur

Counting goes through a table that has an entry for each mnemonic that has occurred so far.  The
entries say how often, each mnemonic stands there once, and so there is one way only to sort them:
the statistics depend neither on the order of the instructions nor on that of the table.

## Main definitions

* `Code.occurrences` — how often a mnemonic occurs.
* `Code.Tallies` — a table has an entry for each mnemonic of some code.

## Main results

* `Code.Tallies.count`, `Code.tallies_foldl` — counting an instruction, and counting all of them.
* `Opcode.mnemonic_injective` — different opcodes have different mnemonics.
* `Code.histogram_exact` — **the statistics are exact, and there is one way only to write them.**
-/

namespace MJ

/-! ### Mnemonics -/

theorem Opcode.mem_all (op : Opcode) : op ∈ all.toList := by
  cases op <;> decide

theorem Opcode.ofMnemonic?_mnemonic (op : Opcode) : ofMnemonic? op.mnemonic = some op := by
  have hall : ∀ op ∈ all.toList, ofMnemonic? op.mnemonic = some op := by decide +kernel
  exact hall op (mem_all op)

/-- Different opcodes have different mnemonics, since each is found again by its mnemonic. -/
theorem Opcode.mnemonic_injective {op op' : Opcode} (h : op.mnemonic = op'.mnemonic) :
    op = op' := by
  have hsome := ofMnemonic?_mnemonic op
  rw [h, ofMnemonic?_mnemonic] at hsome
  exact (Option.some.inj hsome).symm

namespace Code

/-! ### Counting -/

/-- How often a mnemonic occurs in code. -/
def occurrences (code : List Located) (name : String) : Nat :=
  code.countP fun l => l.instruction.opcode.mnemonic = name

@[simp] theorem occurrences_nil (name : String) : occurrences [] name = 0 := rfl

theorem occurrences_concat (code : List Located) (l : Located) (name : String) :
    occurrences (code ++ [l]) name
      = occurrences code name + if name = l.instruction.opcode.mnemonic then 1 else 0 := by
  by_cases h : name = l.instruction.opcode.mnemonic
  · simp [occurrences, h]
  · simp [occurrences, h, Ne.symm h]

theorem occurrences_perm {code code' : List Located} (h : code'.Perm code) :
    occurrences code' = occurrences code := by
  funext name
  exact h.countP_eq _

/-- A mnemonic occurs as often as the one opcode that it belongs to. -/
theorem occurrences_mnemonic (code : List Located) (op : Opcode) :
    occurrences code op.mnemonic = code.countP fun l => l.instruction.opcode = op := by
  refine List.countP_congr fun l _ => ?_
  simp only [decide_eq_true_eq]
  exact ⟨Opcode.mnemonic_injective, congrArg Opcode.mnemonic⟩

/-- Counting a name changes the entry of this name and no other.  By induction on the table, through
which the search goes. -/
theorem lookup_count (name other : String) (table : List (String × Nat)) :
    (count name table).lookup other
      = if other = name then some ((table.lookup name).getD 0 + 1) else table.lookup other := by
  induction table with
  | nil => by_cases h : other = name <;> simp [count, h]
  | cons entry table ih =>
    obtain ⟨first, n⟩ := entry
    by_cases hfirst : first = name
    · subst hfirst
      by_cases h : other = first
      · simp [count, h]
      · have hbeq : (other == first) = false := beq_eq_false_iff_ne.mpr h
        simp [count, List.lookup_cons, h, hbeq]
    · have hbeq : (name == first) = false := beq_eq_false_iff_ne.mpr (Ne.symm hfirst)
      by_cases h : other = first
      · simp [count, h, hfirst]
      · have hbeq' : (other == first) = false := beq_eq_false_iff_ne.mpr h
        simp [count, List.lookup_cons, hfirst, hbeq, hbeq', ih]

theorem mem_names_count {name other : String} {table : List (String × Nat)} :
    other ∈ (count name table).map Prod.fst ↔ other = name ∨ other ∈ table.map Prod.fst := by
  induction table with
  | nil => simp [count]
  | cons entry table ih =>
    obtain ⟨first, n⟩ := entry
    by_cases h : first = name
    · simp [count, h]
    · simp only [count, if_neg h, List.map_cons, List.mem_cons, ih]
      exact or_left_comm

/-- A table keeps one entry for each name: a new one is added only if there was none. -/
theorem nodup_count {name : String} {table : List (String × Nat)}
    (hnodup : (table.map Prod.fst).Nodup) : ((count name table).map Prod.fst).Nodup := by
  induction table with
  | nil => simp [count]
  | cons entry table ih =>
    obtain ⟨first, n⟩ := entry
    rw [List.map_cons, List.nodup_cons] at hnodup
    by_cases h : first = name
    · rw [count, if_pos h, List.map_cons, List.nodup_cons]
      exact hnodup
    · rw [count, if_neg h, List.map_cons, List.nodup_cons, mem_names_count, not_or]
      exact ⟨⟨h, hnodup.1⟩, ih hnodup.2⟩

/-- A table has an entry for each mnemonic of some code, which says how often it occurs.  This is
the invariant of counting, and it says nothing about the order of the entries. -/
structure Tallies (table : List (String × Nat)) (code : List Located) : Prop where
  /-- Each mnemonic stands there once. -/
  nodup : (table.map Prod.fst).Nodup
  /-- Only what occurs has an entry. -/
  lookup : ∀ name, table.lookup name =
    if occurrences code name = 0 then none else some (occurrences code name)

namespace Tallies

theorem nil : Tallies [] [] := ⟨List.nodup_nil, fun _ => rfl⟩

/-- Counting an instruction keeps a table right for the code that has been counted. -/
theorem count {table : List (String × Nat)} {code : List Located} (h : Tallies table code)
    (l : Located) :
    Tallies (Code.count l.instruction.opcode.mnemonic table) (code ++ [l]) := by
  refine ⟨nodup_count h.nodup, fun name => ?_⟩
  rw [lookup_count, occurrences_concat]
  by_cases hname : name = l.instruction.opcode.mnemonic
  · subst hname
    by_cases hzero : occurrences code l.instruction.opcode.mnemonic = 0 <;>
      simp [h.lookup, hzero]
  · simp [h.lookup, hname]

/-- The entries say how often the mnemonics occur that do occur. -/
theorem mem_iff {table : List (String × Nat)} {code : List Located} (h : Tallies table code)
    {name : String} {n : Nat} : (name, n) ∈ table ↔ 0 < n ∧ occurrences code name = n := by
  rw [← NameTable.lookup_eq_some h.nodup, h.lookup]
  split
  · rename_i hzero
    simp only [hzero, reduceCtorEq, false_iff]
    omega
  · rename_i hzero
    rw [Option.some.injEq]
    omega

/-- The order of the instructions does not matter. -/
theorem of_perm {table : List (String × Nat)} {code code' : List Located}
    (h : Tallies table code') (hperm : code'.Perm code) : Tallies table code := by
  refine ⟨h.nodup, ?_⟩
  rw [← occurrences_perm hperm]
  exact h.lookup

/-- Two tables for the same code have the same entries. -/
theorem perm {table table' : List (String × Nat)} {code : List Located} (h : Tallies table code)
    (h' : Tallies table' code) : table.Perm table' := by
  refine (List.perm_ext_iff_of_nodup (h.nodup.of_map _) (h'.nodup.of_map _)).mpr ?_
  rintro ⟨name, n⟩
  rw [h.mem_iff, h'.mem_iff]

end Tallies

/-- Counting all instructions, after others have been counted.  The instructions are taken from the
front, and so the counted ones grow at their end. -/
theorem tallies_foldl {table : List (String × Nat)} {counted : List Located}
    (h : Tallies table counted) (code : List Located) :
    Tallies (code.foldl (fun counts l => count l.instruction.opcode.mnemonic counts) table)
      (counted ++ code) := by
  induction code generalizing table counted with
  | nil => rwa [List.foldl_nil, List.append_nil]
  | cons l code ih =>
    rw [List.foldl_cons, List.append_cons]
    exact ih (h.count l)

/-- The table of counts, in the order in which the mnemonics occur first. -/
def tally (code : List Located) : List (String × Nat) :=
  code.foldl (fun counts l => count l.instruction.opcode.mnemonic counts) []

theorem tallies_tally (code : List Located) : Tallies (tally code) code := tallies_foldl .nil code

/-! ### The sum of the counts -/

/-- The sum of the counts in a table. -/
def total (table : List (String × Nat)) : Nat := table.foldr (fun entry n => entry.2 + n) 0

theorem total_count (name : String) (table : List (String × Nat)) :
    total (count name table) = total table + 1 := by
  induction table with
  | nil => rfl
  | cons entry table ih =>
    obtain ⟨first, n⟩ := entry
    simp only [total] at ih
    by_cases h : first = name
    · simp only [count, if_pos h, total, List.foldr_cons]
      omega
    · simp only [count, if_neg h, total, List.foldr_cons, ih]
      omega

theorem total_foldl (table : List (String × Nat)) (code : List Located) :
    total (code.foldl (fun counts l => count l.instruction.opcode.mnemonic counts) table)
      = total table + code.length := by
  induction code generalizing table with
  | nil => rfl
  | cons l code ih =>
    rw [List.foldl_cons, ih, total_count, List.length_cons]
    omega

theorem total_perm {table table' : List (String × Nat)} (h : table.Perm table') :
    total table = total table' := by
  refine h.foldr_eq' ?_ 0
  intros
  omega

/-! ### The sorted table -/

/-- Counts are sorted from the greatest to the least, then by mnemonic. -/
theorem ranking : NameTable.Ranking (fun m n => n < m) countLE where
  irrefl := Nat.lt_irrefl
  trans := fun hmn hnk => Nat.lt_trans hnk hmn
  total := by omega
  le_iff := by simp [countLE]

/-- Whatever the order of a table for the code, it is sorted alike, because two tables have the same
entries and these can be told apart by name. -/
theorem Tallies.mergeSort_eq {table : List (String × Nat)} {code : List Located}
    (h : Tallies table code) : table.mergeSort countLE = histogram code :=
  ranking.mergeSort_eq_of_perm (tallies_tally code).nodup (h.perm (tallies_tally code))

/-- **The statistics are exact, and there is one way only to write them.**  Each mnemonic that
occurs is listed once with the number of its occurrences, no other mnemonic is, and the numbers add
up to the number of instructions.  The more frequent come first, and mnemonics decide between
equally frequent ones.  Neither the order of the instructions nor that of the table of counts
matters. -/
theorem histogram_exact (code : List Located) :
    (∀ name n, (name, n) ∈ histogram code ↔ 0 < n ∧ occurrences code name = n) ∧
    (∀ op n, (Opcode.mnemonic op, n) ∈ histogram code ↔
      0 < n ∧ (code.countP fun l => l.instruction.opcode = op) = n) ∧
    ((histogram code).map Prod.fst).Nodup ∧
    total (histogram code) = code.length ∧
    (histogram code).Pairwise (fun a b => b.2 < a.2 ∨ (a.2 = b.2 ∧ a.1 < b.1)) ∧
    (∀ code', code'.Perm code → histogram code' = histogram code) ∧
    ∀ table, table.Perm (tally code) → table.mergeSort countLE = histogram code ∧
      ∀ sorted, sorted.Perm table →
        sorted.Pairwise (fun a b => b.2 < a.2 ∨ (a.2 = b.2 ∧ a.1 < b.1)) →
        sorted = histogram code := by
  have htally := tallies_tally code
  have hperm : (histogram code).Perm (tally code) := List.mergeSort_perm _ _
  have hmem : ∀ name n, (name, n) ∈ histogram code ↔ 0 < n ∧ occurrences code name = n := by
    intro name n
    rw [hperm.mem_iff, htally.mem_iff]
  refine ⟨hmem, ?_, ?_, ?_, ranking.pairwise_mergeSort htally.nodup, ?_, ?_⟩
  · intro op n
    rw [hmem, occurrences_mnemonic]
  · exact (hperm.map Prod.fst).nodup_iff.mpr htally.nodup
  · rw [total_perm hperm, tally, total_foldl]
    exact Nat.zero_add _
  · intro code' hcode
    exact ((tallies_tally code').of_perm hcode).mergeSort_eq
  · intro table htable
    refine ⟨ranking.mergeSort_eq_of_perm htally.nodup htable, ?_⟩
    intro sorted hsorted
    exact ranking.eq_mergeSort htally.nodup (hsorted.trans htable)

end Code
end MJ
