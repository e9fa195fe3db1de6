import MJ.Proofs.Request.Session

/-!
# Names of labels

The label of a procedure is made of its name and its number, with `#` between them; its end is
marked by `_end` after that.  A name may be any text, so a label is read from its end: what follows
the last `#` gives the number, and tells a start from an end.  The labels that the compiler makes up
have no `#`, and neither have those of a main procedure without a name.

## Main definitions

* `Decl.key` — what tells procedures apart.
* `Compiler.madeUp` — the labels that are made up.

## Main results

* `Decl.label_inj`, `Decl.endLabel_inj`, `Decl.label_ne_endLabel` — labels of procedures.
* `Compiler.entryLabels_ne_madeUp` — labels of procedures are not made up.
-/

namespace MJ

/-- Numbers are told apart by their digits. -/
theorem toString_inj {m n : Nat} (h : toString m = toString n) : m = n := by
  have hdigits : Nat.toDigits 10 m = Nat.toDigits 10 n := by
    rw [← Nat.toList_repr, ← Nat.toList_repr]
    exact congrArg String.toList h
  rw [← Nat.ofDigitChars_ten_toDigits (n := m), hdigits, Nat.ofDigitChars_ten_toDigits]

/-- Numbers are written in digits. -/
theorem isDigit_of_mem_toString {n : Nat} {ch : Char} (h : ch ∈ (toString n).toList) :
    ch.isDigit = true :=
  Nat.isDigit_of_mem_toDigits (by decide) (by decide) (Nat.toList_repr ▸ h)

theorem not_mem_toString {n : Nat} {ch : Char} (h : ch.isDigit = false) :
    ch ∉ (toString n).toList :=
  fun hmem => Bool.false_ne_true (h.symm.trans (isDigit_of_mem_toString hmem))

/-- A text is split at its last separator in one way only.  By induction on the first part: if one
of the two is longer, the separator would be in the second part of the other. -/
theorem split_inj {ch : Char} {xs xs' ys ys' : List Char} (hys : ch ∉ ys) (hys' : ch ∉ ys')
    (h : xs ++ ch :: ys = xs' ++ ch :: ys') : xs = xs' ∧ ys = ys' := by
  induction xs generalizing xs' with
  | nil =>
    cases xs' with
    | nil => exact ⟨rfl, (List.cons.inj h).2⟩
    | cons x' xs' =>
      -- the separator of the longer first part stands in `ys`
      obtain ⟨-, rfl⟩ := List.cons.inj h
      exact absurd (List.mem_append_right _ List.mem_cons_self) hys
  | cons x xs ih =>
    cases xs' with
    | nil =>
      obtain ⟨-, rfl⟩ := List.cons.inj h
      exact absurd (List.mem_append_right _ List.mem_cons_self) hys'
    | cons x' xs' =>
      obtain ⟨rfl, htail⟩ := List.cons.inj h
      obtain ⟨rfl, rfl⟩ := ih htail
      exact ⟨rfl, rfl⟩

/-! ### Labels of procedures -/

namespace Decl

/-- What tells procedures apart.  Two of them may have the same name in different scopes. -/
def key (s : Decl) : String × UInt32 := (s.name, s.id)

theorem key_inj {s t : Decl} : s.key = t.key ↔ s.name = t.name ∧ s.id = t.id := by
  rw [key, key, Prod.mk.injEq]

theorem toList_label (s : Decl) :
    s.label.toList = s.name.toList ++ '#' :: (toString s.id.toNat).toList := by
  rw [label, String.toList_append, String.toList_append, List.append_assoc]
  rfl

theorem toList_endLabel (s : Decl) : s.endLabel.toList
    = s.name.toList ++ '#' :: ((toString s.id.toNat).toList ++ ['_', 'e', 'n', 'd']) := by
  rw [endLabel, String.toList_append, toList_label, List.append_assoc]
  rfl

theorem not_mem_suffix (s : Decl) : '#' ∉ (toString s.id.toNat).toList ++ ['_', 'e', 'n', 'd'] := by
  rw [List.mem_append]
  rintro (hdigit | hend)
  · exact not_mem_toString rfl hdigit
  · exact absurd hend (by decide)

/-- Names and numbers with the same text are the same. -/
theorem key_eq {s t : Decl} (hname : s.name.toList = t.name.toList)
    (hid : (toString s.id.toNat).toList = (toString t.id.toNat).toList) : s.key = t.key := by
  have hnumber := toString_inj (String.toList_inj.mp hid)
  rw [key, key, String.toList_inj.mp hname, UInt32.toNat_inj.mp hnumber]

/-- Procedures with one label are the same, whatever characters are in their names: the number after
the last `#` has no `#` in it. -/
theorem label_inj {s t : Decl} : s.label = t.label ↔ s.key = t.key := by
  constructor
  · intro h
    rw [← String.toList_inj, toList_label, toList_label] at h
    obtain ⟨hname, hid⟩ := split_inj (not_mem_toString rfl) (not_mem_toString rfl) h
    exact key_eq hname hid
  · intro h
    obtain ⟨hname, hid⟩ := Prod.mk.inj h
    rw [label, label, hname, hid]

theorem endLabel_inj {s t : Decl} : s.endLabel = t.endLabel ↔ s.key = t.key := by
  rw [endLabel, endLabel, String.append_left_inj, label_inj]

/-- No procedure starts where one ends, because a number does not end in a letter. -/
theorem label_ne_endLabel (s t : Decl) : s.label ≠ t.endLabel := by
  intro h
  rw [← String.toList_inj, toList_label, toList_endLabel] at h
  obtain ⟨-, hid⟩ := split_inj (not_mem_toString rfl) (not_mem_suffix t) h
  have hmem : '_' ∈ (toString s.id.toNat).toList :=
    hid ▸ List.mem_append_right _ List.mem_cons_self
  exact not_mem_toString rfl hmem

/-- Other labels have no `#`. -/
theorem label_ne {other : String} (h : '#' ∉ other.toList) (s : Decl) : s.label ≠ other := by
  rintro rfl
  rw [toList_label] at h
  exact h (List.mem_append_right _ List.mem_cons_self)

theorem endLabel_ne {other : String} (h : '#' ∉ other.toList) (s : Decl) : s.endLabel ≠ other := by
  rintro rfl
  rw [toList_endLabel] at h
  exact h (List.mem_append_right _ List.mem_cons_self)

end Decl

namespace Compiler

/-- Procedures that start or end at one label are the same.  The main procedure without a name has
labels without `#`, and so is not taken for another. -/
theorem entryLabels_inj {p q : Option Decl} (h : (entryLabels p).1 = (entryLabels q).1 ∨
    (entryLabels p).2 = (entryLabels q).2) : p.map Decl.key = q.map Decl.key := by
  cases p with
  | none =>
    cases q with
    | none => rfl
    | some t =>
      rcases h with hstart | hend
      · exact absurd hstart.symm (t.label_ne (by decide))
      · exact absurd hend.symm (t.endLabel_ne (by decide))
  | some s =>
    cases q with
    | none =>
      rcases h with hstart | hend
      · exact absurd hstart (s.label_ne (by decide))
      · exact absurd hend (s.endLabel_ne (by decide))
    | some t =>
      rcases h with hstart | hend
      · exact congrArg some (Decl.label_inj.mp hstart)
      · exact congrArg some (Decl.endLabel_inj.mp hend)

/-- No procedure starts at the label where one ends. -/
theorem fst_entryLabels_ne_snd (p q : Option Decl) : (entryLabels p).1 ≠ (entryLabels q).2 := by
  cases p with
  | none =>
    cases q with
    | none => exact (by decide : "$main" ≠ "$main_end")
    | some t => exact (t.endLabel_ne (by decide)).symm
  | some s =>
    cases q with
    | none => exact s.label_ne (by decide)
    | some t => exact s.label_ne_endLabel t

/-! ### Labels that are made up -/

/-- The label that is made up after `n` others. -/
def madeUp (n : Nat) : String := "L" ++ toString n

theorem madeUp_inj {m n : Nat} (h : madeUp m = madeUp n) : m = n :=
  toString_inj ((String.append_right_inj "L").mp h)

theorem not_mem_madeUp {n : Nat} {ch : Char} (hne : ch ≠ 'L') (hdigit : ch.isDigit = false) :
    ch ∉ (madeUp n).toList := by
  rw [madeUp, String.toList_append, List.mem_append]
  rintro (hfirst | hlater)
  · exact hne (List.mem_singleton.mp hfirst)
  · exact not_mem_toString hdigit hlater

/-- The labels of procedures are not made up: they contain `#`, or `$` in the case of a main
procedure without a name. -/
theorem entryLabels_ne_madeUp (procedure? : Option Decl) (n : Nat) :
    (entryLabels procedure?).1 ≠ madeUp n ∧ (entryLabels procedure?).2 ≠ madeUp n := by
  cases procedure? with
  | none =>
    have hmain {label : String} (hmem : '$' ∈ label.toList) : label ≠ madeUp n := by
      rintro rfl
      exact not_mem_madeUp (by decide) rfl hmem
    exact ⟨hmain (by decide), hmain (by decide)⟩
  | some s =>
    have hhash : '#' ∉ (madeUp n).toList := not_mem_madeUp (by decide) rfl
    exact ⟨s.label_ne hhash, s.endLabel_ne hhash⟩

end Compiler
end MJ
