import Mathlib.Data.List.Basic
import MJ.Machine.State

/-!
# Arrays of arrays in the heap

An array with several dimensions is an array of addresses of arrays.  The arrays of one level all
have the same length, and no two arrays of any level share a word.

## Main definitions

* `Block`, `Block.Apart` — words of the heap that follow each other, and blocks that share none.
* `IsArray` — an array with the given lengths is at an address, wherever its arrays are.
* `Filled` — the same for an array of which each level is right behind the words of the level
  above, one element after the other.

## Main results

* `Filled.congr` — an array depends on its own words only.
* `Filled.isArray`, `pairwise_blocksFrom`, `mem_blocksFrom` — the arrays of an array in that order
  share no words, and have all words of a part of the heap.
-/

namespace MJ
namespace Machine

/-! ### Blocks -/

/-- Words of the heap or of a frame that follow each other. -/
structure Block where
  /-- The address of the first word. -/
  start : Nat
  /-- How many words there are. -/
  words : Nat
  deriving DecidableEq, Repr

namespace Block

/-- The address after the last word. -/
def stop (b : Block) : Nat := b.start + b.words

/-- Two blocks share no word, because one of them ends before the other begins. -/
def Apart (x y : Block) : Prop := x.stop ≤ y.start ∨ y.stop ≤ x.start

end Block

/-! ### Arrays of any shape -/

/-- An array with the given lengths is at an address of the heap.  The last level is filled with 0;
the elements of the others are the addresses of arrays.  All arrays are listed, each as a block. -/
inductive IsArray (heap : Array Word) : (lengths : List Nat) → (address : Nat) → List Block → Prop
  /-- The last level. -/
  | flat {n a : Nat} (hlength : heap[a]? = some (Int32.ofNat n))
    (hzero : ∀ i, i < n → heap[a + (i + 1)]? = some 0) : IsArray heap [n] a [⟨a, n + 1⟩]
  /-- A level of addresses. -/
  | nested {n m a : Nat} {ns : List Nat} (element : Nat → Nat) (blocks : Nat → List Block)
    (hlength : heap[a]? = some (Int32.ofNat n))
    (helement : ∀ i, i < n → heap[a + (i + 1)]? = some (Int32.ofNat (element i)))
    (hinner : ∀ i, i < n → IsArray heap (m :: ns) (element i) (blocks i)) :
    IsArray heap (n :: m :: ns) a (⟨a, n + 1⟩ :: (List.range n).flatMap blocks)

/-! ### Arrays in order -/

/-- How many words an array with the given lengths has, those of all levels included. -/
def arrayWords : (lengths : List Nat) → Nat
  | [] => 0
  | n :: ns => n + 1 + n * arrayWords ns

@[simp] theorem arrayWords_nil : arrayWords [] = 0 := rfl

@[simp] theorem arrayWords_cons (n : Nat) (ns : List Nat) :
    arrayWords (n :: ns) = n + 1 + n * arrayWords ns := rfl

/-- The address of the array that element `i` refers to, if the arrays are in order.  All elements
take the same number of words, those of the levels below included. -/
def elementAddress (a n : Nat) (ns : List Nat) (i : Nat) : Nat := a + (n + 1) + i * arrayWords ns

@[simp] theorem elementAddress_zero (a n : Nat) (ns : List Nat) :
    elementAddress a n ns 0 = a + (n + 1) := by
  rw [elementAddress, Nat.zero_mul, Nat.add_zero]

theorem elementAddress_succ (a n : Nat) (ns : List Nat) (i : Nat) :
    elementAddress a n ns (i + 1) = elementAddress a n ns i + arrayWords ns := by
  simp only [elementAddress, Nat.succ_mul]
  omega

/-- The arrays of later elements are behind those of earlier ones. -/
theorem elementAddress_le {a n i j : Nat} {ns : List Nat} (h : i < j) :
    elementAddress a n ns i + arrayWords ns ≤ elementAddress a n ns j := by
  have hle : (i + 1) * arrayWords ns ≤ j * arrayWords ns := Nat.mul_le_mul_right _ h
  rw [← elementAddress_succ]
  unfold elementAddress
  omega

/-- The array of the last element ends where the whole array does. -/
theorem elementAddress_length (a n : Nat) (ns : List Nat) :
    elementAddress a n ns n = a + arrayWords (n :: ns) := by
  rw [elementAddress, arrayWords_cons, Nat.add_assoc]

/-- The array of an element is inside of the whole array. -/
theorem elementAddress_mem (a : Nat) {n i : Nat} (ns : List Nat) (hi : i < n) :
    a + (n + 1) ≤ elementAddress a n ns i ∧
      elementAddress a n ns i + arrayWords ns ≤ a + arrayWords (n :: ns) := by
  have hle : elementAddress a n ns i + arrayWords ns ≤ elementAddress a n ns n :=
    elementAddress_le hi
  rw [elementAddress_length] at hle
  exact ⟨Nat.le_add_right _ _, hle⟩

/-- An array with the given lengths is at an address of the heap, and the arrays of its elements
are behind it, one after the other.  This is the order in which the code allocates them, and it says
where all of them are. -/
def Filled (heap : Array Word) : (lengths : List Nat) → (address : Nat) → Prop
  | [], _ => True
  | [n], a => heap[a]? = some (Int32.ofNat n) ∧ ∀ i, i < n → heap[a + (i + 1)]? = some 0
  | n :: m :: ns, a => heap[a]? = some (Int32.ofNat n) ∧ ∀ i, i < n →
    heap[a + (i + 1)]? = some (Int32.ofNat (elementAddress a n (m :: ns) i)) ∧
      Filled heap (m :: ns) (elementAddress a n (m :: ns) i)

/-- An array depends on its own words only, so that later elements may be allocated behind it.  By
induction on the lengths. -/
theorem Filled.congr {heap heap' : Array Word} {ns : List Nat} {a : Nat} (h : Filled heap ns a)
    (hsame : ∀ k, a ≤ k → k < a + arrayWords ns → heap'[k]? = heap[k]?) : Filled heap' ns a := by
  induction ns generalizing a with
  | nil => trivial
  | cons n ns ih =>
    have hwords : n + 1 ≤ arrayWords (n :: ns) := Nat.le_add_right _ _
    cases ns with
    | nil =>
      obtain ⟨hlength, hzero⟩ := h
      refine ⟨?_, fun i hi => ?_⟩
      · rw [hsame a (Nat.le_refl a) (by omega)]
        exact hlength
      · rw [hsame _ (by omega) (by omega)]
        exact hzero i hi
    | cons m ns =>
      obtain ⟨hlength, helement⟩ := h
      refine ⟨?_, fun i hi => ?_⟩
      · rw [hsame a (Nat.le_refl a) (by omega)]
        exact hlength
      · -- the words of an element are among those of the whole array
        obtain ⟨haddress, hinner⟩ := helement i hi
        obtain ⟨hge, hle⟩ := elementAddress_mem a (m :: ns) hi
        refine ⟨?_, ih hinner fun k hk hlt => hsame k (by omega) (by omega)⟩
        rw [hsame _ (by omega) (by omega)]
        exact haddress

/-- The blocks of an array and of the arrays behind it. -/
def blocksFrom : (lengths : List Nat) → (address : Nat) → List Block
  | [], _ => []
  | n :: ns, a =>
    ⟨a, n + 1⟩ :: (List.range n).flatMap fun i => blocksFrom ns (elementAddress a n ns i)

/-- The blocks are inside of the whole array, and hence apart from whatever was in the heap before.
-/
theorem mem_blocksFrom {ns : List Nat} {a : Nat} {b : Block} (h : b ∈ blocksFrom ns a) :
    a ≤ b.start ∧ b.stop ≤ a + arrayWords ns := by
  induction ns generalizing a with
  | nil => cases h
  | cons n ns ih =>
    rcases List.mem_cons.mp h with rfl | hinner
    · exact ⟨Nat.le_refl a, Nat.add_le_add_left (Nat.le_add_right _ _) a⟩
    · obtain ⟨i, hi, hb⟩ := List.mem_flatMap.mp hinner
      obtain ⟨hstart, hstop⟩ := ih hb
      obtain ⟨hge, hle⟩ := elementAddress_mem a ns (List.mem_range.mp hi)
      omega

/-- Each block ends before the next one begins.  The blocks are listed in the order of their
addresses, level by level within each element. -/
theorem pairwise_stop_le (ns : List Nat) (a : Nat) :
    (blocksFrom ns a).Pairwise fun x y => x.stop ≤ y.start := by
  induction ns generalizing a with
  | nil => exact .nil
  | cons n ns ih =>
    refine List.pairwise_cons.mpr ⟨fun b hb => ?_, List.pairwise_flatMap.mpr ⟨fun i _ => ih _, ?_⟩⟩
    · obtain ⟨i, hi, hb⟩ := List.mem_flatMap.mp hb
      obtain ⟨hstart, -⟩ := mem_blocksFrom hb
      obtain ⟨hge, -⟩ := elementAddress_mem a ns (List.mem_range.mp hi)
      exact Nat.le_trans hge hstart
    · -- the arrays of two elements do not overlap, so neither do their blocks
      refine List.pairwise_lt_range.imp fun {i j} hij x hx y hy => ?_
      obtain ⟨-, hstop⟩ := mem_blocksFrom hx
      obtain ⟨hstart, -⟩ := mem_blocksFrom hy
      exact Nat.le_trans hstop (Nat.le_trans (elementAddress_le hij) hstart)

/-- No two blocks share a word. -/
theorem pairwise_blocksFrom (ns : List Nat) (a : Nat) :
    (blocksFrom ns a).Pairwise Block.Apart :=
  (pairwise_stop_le ns a).imp fun h => Or.inl h

/-- An array in order is an array: the order is one of many in which its parts could be. -/
theorem Filled.isArray {heap : Array Word} {ns : List Nat} {a : Nat} (h : Filled heap ns a)
    (hne : ns ≠ []) : IsArray heap ns a (blocksFrom ns a) := by
  induction ns generalizing a with
  | nil => exact absurd rfl hne
  | cons n ns ih =>
    cases ns with
    | nil =>
      obtain ⟨hlength, hzero⟩ := h
      have hblocks : blocksFrom [n] a = [⟨a, n + 1⟩] := by simp [blocksFrom]
      rw [hblocks]
      exact .flat hlength hzero
    | cons m ns =>
      obtain ⟨hlength, helement⟩ := h
      exact .nested _ _ hlength (fun i hi => (helement i hi).1)
        fun i hi => ih (helement i hi).2 (List.cons_ne_nil m ns)

end Machine
end MJ
