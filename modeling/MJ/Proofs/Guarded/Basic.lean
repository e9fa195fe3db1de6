import MJ.Machine.Step
import MJ.Proofs.Emission

/-!
# Guarded actions

The machine is built from operations that make sense only for some arguments: an index has to lie
inside its sequence, a sum has to fit its type, a divisor must not be zero.  A guarded action states
each of these conditions where the operation is used, and breaches if it does not hold.  A breach is
not a fault: faults are what a program can cause, breaches are mistakes of the machine itself.

Sizes, addresses and indices are numbers of 64 bits; words are numbers of 32 bits with a sign.

## Main definitions

* `Breach`, `Halt` — the conditions that can be broken, and why a guarded run stops.
* `Machine.Guarded` — an action on the machine that may fault or breach.
* `Machine.Guarded.lift` — an action of the machine as a guarded one.
* `Machine.Guarded.element`, `replace`, `slice`, `sum`, `product`, `difference`, `successor`,
  `quotient`, `remainder`, `decode` — the operations with their conditions.

## Main results

* `Machine.Guarded.lift_bind` — lifting respects the order of actions.
* `Machine.Guarded.bind_eq_lift` — a sequence agrees with one of the machine if its parts do.
-/

namespace MJ

/-- How an operation can be used outside its domain.  Each kind is one that would end the machine
itself and not only the program that it executes. -/
inductive Breach where
  /-- An index or a range that does not lie inside its sequence. -/
  | range
  /-- A number that does not fit its type. -/
  | overflow
  /-- A division by zero. -/
  | divisor
  /-- A range overwritten with a different number of bytes. -/
  | length
  /-- A text cut inside a character. -/
  | boundary
  /-- A field wider than 65535. -/
  | width
  deriving DecidableEq, Repr

/-- Why a guarded run stops before the program returns. -/
inductive Halt where
  /-- An instruction faulted. -/
  | fault (cause : Fault)
  /-- An operation was used outside its domain. -/
  | breach (kind : Breach)
  deriving DecidableEq, Repr

/-- The machine refuses one thing without a fault: a field that is too wide.  There it is the
machine that gives up, and so the guarded machine counts this as a breach. -/
def Stop.halt : Stop → Halt
  | fault cause => .fault cause
  | wideField => .breach .width

namespace Machine

/-- An action on the machine that may fault or breach. -/
abbrev Guarded := EStateM Halt State

namespace Guarded

variable {α β : Type}

/-- Stops the run with a fault. -/
def fail (cause : Fault) : Guarded α := throw (.fault cause)

/-- Gives a value or faults. -/
def ofExcept : Except Fault α → Guarded α
  | .ok v => pure v
  | .error cause => fail cause

/-- Stops the run with a breach. -/
def breach (kind : Breach) : Guarded α := throw (.breach kind)

/-! ### Actions of the machine -/

/-- An action of the machine as a guarded one.  It has no guards, so that an action that equals a
lifted one has none that fail. -/
def lift (x : Exec α) : Guarded α := fun s =>
  match x s with
  | .ok v t => .ok v t
  | .error cause t => .error cause.halt t

instance : MonadLift Exec Guarded := ⟨lift⟩

@[simp] theorem liftM_eq (x : Exec α) : (liftM x : Guarded α) = lift x := rfl

theorem lift_of_ok {x : Exec α} {s t : State} {v : α} (h : x s = .ok v t) :
    lift x s = .ok v t := by
  rw [lift, h]

theorem lift_of_error {x : Exec α} {s t : State} {cause : Stop} (h : x s = .error cause t) :
    lift x s = .error cause.halt t := by
  rw [lift, h]

@[simp] theorem lift_pure (v : α) : lift (pure v) = pure v := rfl

@[simp] theorem lift_fault (cause : Fault) : lift (fault cause : Exec α) = fail cause := rfl

/-- Lifting respects the order of actions.  As a simp lemma it moves the lifting to the single
actions of a sequence, where the guarded ones are compared. -/
@[simp] theorem lift_bind (x : Exec α) (f : α → Exec β) :
    lift (x >>= f) = lift x >>= fun v => lift (f v) := by
  funext s
  cases h : x s with
  | ok v t => rw [Action.bind_of_ok (lift_of_ok h), lift, Action.bind_of_ok h, lift]
  | error cause t =>
    rw [Action.bind_eq_error.mpr (Or.inl (lift_of_error h))]
    exact lift_of_error (Action.bind_eq_error.mpr (Or.inl h))

@[simp] theorem lift_map (f : α → β) (x : Exec α) : lift (f <$> x) = f <$> lift x := by
  rw [map_eq_pure_bind, map_eq_pure_bind, lift_bind]
  rfl

@[simp] theorem map_fail (f : α → β) (cause : Fault) :
    f <$> (fail cause : Guarded α) = fail cause :=
  rfl

/-- A sequence agrees with one of the machine if its first part does, and its second part does in
every state that the first one leads to.  Here the checks of the first part are available for the
guards of the second. -/
theorem bind_eq_lift {x : Guarded α} {y : Exec α} {f : α → Guarded β} {g : α → Exec β} {s : State}
    (hx : x s = lift y s) (hf : ∀ v t, y s = .ok v t → f v t = lift (g v) t) :
    (x >>= f) s = lift (y >>= g) s := by
  rw [lift_bind]
  cases h : y s with
  | ok v t =>
    have hlift := lift_of_ok h
    rw [Action.bind_of_ok (hx.trans hlift), Action.bind_of_ok hlift, hf v t h]
  | error cause t =>
    have hlift := lift_of_error h
    rw [Action.bind_eq_error.mpr (Or.inl (hx.trans hlift)),
      Action.bind_eq_error.mpr (Or.inl hlift)]

/-! ### Sequences -/

/-- The element at an index. -/
def element (xs : List α) (i : Nat) : Guarded α :=
  match xs[i]? with
  | some v => pure v
  | none => breach .range

/-- The sequence with another element at an index. -/
def replace (xs : Array α) (i : Nat) (v : α) : Guarded (Array α) :=
  if i < xs.size then pure (xs.setIfInBounds i v) else breach .range

/-- The elements from `start` on, up to `stop`. -/
def slice (xs : List α) (start stop : Nat) : Guarded (List α) :=
  if start ≤ stop ∧ stop ≤ xs.length then pure (xs.extract start stop) else breach .range

theorem element_of_getElem? {xs : List α} {i : Nat} {v : α} (h : xs[i]? = some v) :
    element xs i = pure v := by
  rw [element, h]

@[simp] theorem element_cons_zero (v : α) (xs : List α) : element (v :: xs) 0 = pure v := rfl

@[simp] theorem element_cons_succ (v : α) (xs : List α) (i : Nat) :
    element (v :: xs) (i + 1) = element xs i := rfl

theorem replace_of_lt {xs : Array α} {i : Nat} (h : i < xs.size) (v : α) :
    replace xs i v = pure (xs.setIfInBounds i v) := if_pos h

theorem slice_of_le {xs : List α} {start stop : Nat} (hstart : start ≤ stop)
    (hstop : stop ≤ xs.length) : slice xs start stop = pure (xs.extract start stop) :=
  if_pos ⟨hstart, hstop⟩

/-- What is left of a sequence after its first part. -/
theorem slice_append (xs ys : List α) :
    slice (xs ++ ys) xs.length (xs ++ ys).length = pure ys := by
  rw [slice_of_le (by simp) (Nat.le_refl _)]
  simp [List.extract_eq_take_drop]

/-! ### Numbers -/

/-- The sum of two sizes. -/
def sum (a b : Nat) : Guarded Nat :=
  if a + b < UInt64.size then pure (a + b) else breach .overflow

/-- The product of two sizes. -/
def product (a b : Nat) : Guarded Nat :=
  if a * b < UInt64.size then pure (a * b) else breach .overflow

/-- The difference of two sizes. -/
def difference (a b : Nat) : Guarded Nat :=
  if b ≤ a then pure (a - b) else breach .overflow

/-- The word after a word. -/
def successor (v : Word) : Guarded Word :=
  if v.toInt < 2147483647 then pure (v + 1) else breach .overflow

/-- The quotient of two words. -/
def quotient (a b : Word) : Guarded Word :=
  if b = 0 then breach .divisor else pure (a / b)

/-- The remainder of two words. -/
def remainder (a b : Word) : Guarded Word :=
  if b = 0 then breach .divisor else pure (a % b)

theorem sum_of_lt {a b : Nat} (h : a + b < 18446744073709551616) : sum a b = pure (a + b) :=
  if_pos h

theorem product_of_lt {a b : Nat} (h : a * b < 18446744073709551616) :
    product a b = pure (a * b) := if_pos h

theorem successor_of_lt {v w : Word} (h : v < w) : successor v = pure (v + 1) := by
  have hlt := Int32.lt_iff_toInt_lt.mp h
  have hmax := w.toInt_lt
  exact if_pos (by omega)

/-! ### Operands -/

/-- The signed number at the front of a string of bytes. -/
def decode (w : Width) (bs : List UInt8) : Guarded Word :=
  match w.decode? bs with
  | some v => pure v
  | none => breach .range

/-- The low bytes of a word, cut off its four bytes at the end. -/
def encode (w : Width) (v : Word) : Guarded (List UInt8) := do
  let start ← difference wordSize w.size
  slice (BigEndian.bytes wordSize v.toUInt32.toNat) start wordSize

theorem decode_of_le {w : Width} {bs : List UInt8} (h : w.size ≤ bs.length) :
    decode w bs = pure (w.signed (BigEndian.value (bs.take w.size))) := by
  rw [decode, Width.decode?, if_neg (Nat.not_lt.mpr h)]

/-- Every word has four bytes. -/
theorem encode_s32 (v : Word) : encode .s32 v = pure (Width.s32.encode v) := by
  have hall : slice (BigEndian.bytes wordSize v.toUInt32.toNat) 0 wordSize
      = pure (Width.s32.encode v) := by
    rw [slice_of_le (Nat.zero_le _) (Nat.le_of_eq (BigEndian.length_bytes _ _).symm)]
    rfl
  exact hall

end Guarded
end Machine
end MJ
