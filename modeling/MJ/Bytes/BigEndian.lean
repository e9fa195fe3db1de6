/-!
# Big-endian numbers

Every multi-byte number of the object format is stored with its most significant byte first.

## Main definitions

* `BigEndian.bytes k n` — the low `k` bytes of `n`.
* `BigEndian.value bs` — the number a byte string denotes.
* `BigEndian.capacity k` — how many numbers fit `k` bytes.

## Main results

* `BigEndian.value_bytes` — reading back what was written keeps the number modulo the capacity.

## References

The MJ specification, §4.1 *Byte/Operand Codec*, and §6 *External Interfaces* for the fields of the
header.
-/

namespace MJ
namespace BigEndian

/-- The low `k` bytes of `n`, most significant first.  Higher bytes are lost, without an error. -/
def bytes : (k : Nat) → (n : Nat) → List UInt8
  | 0, _ => []
  | k + 1, n => bytes k (n / 256) ++ [UInt8.ofNat n]

/-- The number that `bs` denotes, read from the left on top of `acc`.  The accumulator makes reading
a loop over the bytes. -/
def valueFrom (acc : Nat) : List UInt8 → Nat
  | [] => acc
  | b :: bs => valueFrom (256 * acc + b.toNat) bs

/-- The unsigned number that `bs` denotes.  Leading zero bytes do not change it. -/
def value (bs : List UInt8) : Nat := valueFrom 0 bs

/-- How many numbers fit `k` bytes.  This is 256 to the power of `k`, by recursion so that it
unfolds with `bytes`. -/
def capacity : (k : Nat) → Nat
  | 0 => 1
  | k + 1 => 256 * capacity k

@[simp] theorem length_bytes (k n : Nat) : (bytes k n).length = k := by
  induction k generalizing n with
  | zero => rfl
  | succ k ih => rw [bytes, List.length_append, ih, List.length_singleton]

theorem valueFrom_append (acc : Nat) (bs cs : List UInt8) :
    valueFrom acc (bs ++ cs) = valueFrom (valueFrom acc bs) cs := by
  induction bs generalizing acc with
  | nil => rfl
  | cons b bs ih => rw [List.cons_append, valueFrom, valueFrom, ih]

/-- The last byte is the least significant one.  This is the step that undoes the one of `bytes`. -/
theorem value_concat (bs : List UInt8) (b : UInt8) :
    value (bs ++ [b]) = 256 * value bs + b.toNat := by
  rw [value, valueFrom_append, valueFrom, valueFrom, value]

/-- Writing `k` bytes and reading them back keeps the number modulo their capacity.  For numbers
below it, nothing is lost. -/
theorem value_bytes (k n : Nat) : value (bytes k n) = n % capacity k := by
  induction k generalizing n with
  | zero => rw [bytes, capacity, Nat.mod_one, value, valueFrom]
  | succ k ih =>
    have split : n % (256 * capacity k) = n % 256 + 256 * (n / 256 % capacity k) := Nat.mod_mul
    rw [bytes, value_concat, ih, capacity, split, UInt8.toNat_ofNat', Nat.add_comm]

end BigEndian
end MJ
