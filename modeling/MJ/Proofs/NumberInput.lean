import MJ.Proofs.Execution
import MJ.Proofs.Guarded.Number
import MJ.Proofs.LabelFile

/-!
# Numbers read and printed

A machine reads a number from the next line of its input.  The number starts at the leftmost
position with a digit, or with a minus sign and a digit after it, and goes on as far as digits do;
whatever stands around it does not matter.  What the machine prints for a number is therefore read
back, however wide the field was.

## Main definitions

* `Input.IsNextLine` — bytes are the next line of an input, and others are left after it.
* `Input.FirstAt` — the leftmost position at which a number starts.
* `Input.Leads` — a text starts with a number.
* `Input.Spells` — the number that a text stands for.

## Main results

* `Input.integer?_eq_some_iff`, `Input.integer?_eq_none_iff` — what the search for a number finds.
* `Text.spells_decimal` — a number in decimal spells itself.
* `Machine.read_print_numbers` — **what is read from a line, and that what is printed is read
  back.**
-/

namespace MJ

namespace Input

/-! ### Lines -/

/-- The next line of an input ends after its newline, or where the input ends.  The line itself has
no newline before its end. -/
def IsNextLine (l rest : List UInt8) : Prop :=
  (∃ body, l = body ++ [10] ∧ 10 ∉ body) ∨ 10 ∉ l ∧ rest = []

/-- Bytes that are no newlines belong to the line that ends after them. -/
theorem line_append {bs : List UInt8} (tail : List UInt8) (h : 10 ∉ bs) :
    line (bs ++ tail) = (bs ++ (line tail).1, (line tail).2) := by
  induction bs with
  | nil => rfl
  | cons b bs ih =>
    obtain ⟨hb, hbs⟩ := not_or.mp fun hmem => h (List.mem_cons.mpr hmem)
    rw [List.cons_append, line, if_neg fun heq => hb heq.symm, ih hbs, List.cons_append]

/-- The line is what is cut off. -/
theorem IsNextLine.line_eq {l rest : List UInt8} (h : IsNextLine l rest) :
    line (l ++ rest) = (l, rest) := by
  rcases h with ⟨body, rfl, hbody⟩ | ⟨hl, rfl⟩
  · rw [List.append_assoc, line_append _ hbody]
    rfl
  · rw [line_append _ hl, line, List.append_nil]

/-- Only at the end of the input is there no next line. -/
theorem IsNextLine.append_eq_nil_iff {l rest : List UInt8} (h : IsNextLine l rest) :
    l ++ rest = [] ↔ l = [] := by
  rcases h with ⟨body, rfl, -⟩ | ⟨-, rfl⟩
  · simp
  · rw [List.append_nil]

/-! ### The number in a text -/

/-- A number starts at a position of a text, and at none to the left of it.  The positions are given
as numbers, so that the definition does not follow the search. -/
def FirstAt (t : List Char) (i : Nat) : Prop :=
  Begins (t.drop i) ∧ ∀ j, j < i → ¬ Begins (t.drop j)

/-- A text starts with a number: digits that no further digit follows, or a minus sign and such
digits. -/
inductive Leads : List Char → Int → Prop
  | plain {digits after : List Char} (nonempty : digits ≠ []) (all : ∀ c ∈ digits, c.isDigit = true)
      (maximal : after.head?.any Char.isDigit = false) :
      Leads (digits ++ after) (Nat.ofDigitChars 10 digits 0)
  | negative {digits after : List Char} (nonempty : digits ≠ [])
      (all : ∀ c ∈ digits, c.isDigit = true) (maximal : after.head?.any Char.isDigit = false) :
      Leads ('-' :: (digits ++ after)) (-(Nat.ofDigitChars 10 digits 0 : Int))

/-- The number that a text stands for is the leftmost one in it. -/
def Spells (t : List Char) (n : Int) : Prop := ∃ i, FirstAt t i ∧ Leads (t.drop i) n

/-- A run of digits is all that is taken for a number. -/
theorem natural_append {digits after : List Char} (hall : ∀ c ∈ digits, c.isDigit = true)
    (hmax : after.head?.any Char.isDigit = false) :
    natural (digits ++ after) = Nat.ofDigitChars 10 digits 0 := by
  have hafter : after.takeWhile Char.isDigit = [] := by
    cases after with
    | nil => rfl
    | cons c cs => exact List.takeWhile_cons_of_neg (by simpa using hmax)
  rw [natural, List.takeWhile_append_of_pos hall, hafter, List.append_nil]

/-- The digits at the front of a text end before its first character that is none.  So the run of
digits is as long as possible, which `Input.Leads` asks for. -/
theorem exists_digits {t : List Char} (h : t.head?.any Char.isDigit = true) :
    ∃ digits after, t = digits ++ after ∧ digits ≠ [] ∧ (∀ c ∈ digits, c.isDigit = true) ∧
      after.head?.any Char.isDigit = false := by
  induction t with
  | nil => cases h
  | cons c cs ih =>
    have hc : c.isDigit = true := h
    cases hnext : cs.head?.any Char.isDigit with
    | false =>
      refine ⟨[c], cs, rfl, List.cons_ne_nil c [], ?_, hnext⟩
      intro d hd
      rw [List.mem_singleton.mp hd]
      exact hc
    | true =>
      obtain ⟨digits, after, rfl, -, hall, hmax⟩ := ih hnext
      refine ⟨c :: digits, after, rfl, List.cons_ne_nil c digits, ?_, hmax⟩
      intro d hd
      rcases List.mem_cons.mp hd with rfl | hd
      · exact hc
      · exact hall d hd

theorem Begins.exists_leads {t : List Char} (h : Begins t) : ∃ n, Leads t n := by
  cases t with
  | nil => exact absurd h id
  | cons c cs =>
    rcases h with hdigit | ⟨rfl, hnext⟩
    · obtain ⟨digits, after, ht, hne, hall, hmax⟩ := exists_digits (t := c :: cs) hdigit
      rw [ht]
      exact ⟨_, .plain hne hall hmax⟩
    · obtain ⟨digits, after, rfl, hne, hall, hmax⟩ := exists_digits hnext
      exact ⟨_, .negative hne hall hmax⟩

theorem Leads.begins {t : List Char} {n : Int} (h : Leads t n) : Begins t := by
  cases h with
  | @plain digits after hne hall hmax =>
    obtain ⟨d, ds, rfl⟩ := List.exists_cons_of_ne_nil hne
    exact Or.inl (hall d List.mem_cons_self)
  | @negative digits after hne hall hmax =>
    obtain ⟨d, ds, rfl⟩ := List.exists_cons_of_ne_nil hne
    exact Or.inr ⟨rfl, hall d List.mem_cons_self⟩

/-- A number at the front of a text is found. -/
theorem Leads.integer?_eq {t : List Char} {n : Int} (h : Leads t n) : integer? t = some n := by
  cases h with
  | @plain digits after hne hall hmax =>
    have hnat := natural_append hall hmax
    obtain ⟨d, ds, rfl⟩ := List.exists_cons_of_ne_nil hne
    rw [List.cons_append] at hnat ⊢
    rw [integer?, if_pos (hall d List.mem_cons_self), hnat]
  | @negative digits after hne hall hmax =>
    have hnat := natural_append hall hmax
    obtain ⟨d, ds, rfl⟩ := List.exists_cons_of_ne_nil hne
    have hsign : '-' = '-' ∧ (d :: ds ++ after).head?.any Char.isDigit = true :=
      ⟨rfl, hall d List.mem_cons_self⟩
    rw [integer?, if_neg (by decide), if_pos hsign, hnat]

theorem firstAt_zero {t : List Char} : FirstAt t 0 ↔ Begins t := by
  constructor
  · intro h
    exact h.1
  · intro h
    exact ⟨h, fun j hj => absurd hj (Nat.not_lt_zero j)⟩

theorem firstAt_succ {c : Char} {cs : List Char} {i : Nat} :
    FirstAt (c :: cs) (i + 1) ↔ ¬ Begins (c :: cs) ∧ FirstAt cs i := by
  constructor
  · rintro ⟨hbegins, hfirst⟩
    exact ⟨hfirst 0 (Nat.succ_pos i), hbegins, fun j hj => hfirst (j + 1) (Nat.succ_lt_succ hj)⟩
  · rintro ⟨hnot, hbegins, hfirst⟩
    refine ⟨hbegins, fun j hj => ?_⟩
    cases j with
    | zero => exact hnot
    | succ j => exact hfirst j (Nat.lt_of_succ_lt_succ hj)

/-- The search stops at the leftmost position where a number starts.  By induction on the position,
one character being passed over at a time. -/
theorem integer?_of_firstAt {t : List Char} {i : Nat} (h : FirstAt t i) :
    integer? t = integer? (t.drop i) := by
  induction i generalizing t with
  | zero => rfl
  | succ i ih =>
    cases t with
    | nil => rfl
    | cons c cs =>
      obtain ⟨hnot, hfirst⟩ := firstAt_succ.mp h
      rw [integer?_of_not_begins hnot, ih hfirst]
      rfl

/-- Where numbers start at all, one starts first: positions are numbers, and so there is a least. -/
theorem exists_firstAt {t : List Char} {i : Nat} (h : Begins (t.drop i)) : ∃ k, FirstAt t k := by
  induction i generalizing t with
  | zero => exact ⟨0, firstAt_zero.mpr h⟩
  | succ i ih =>
    cases t with
    | nil => exact absurd h id
    | cons c cs =>
      by_cases hbegins : Begins (c :: cs)
      · exact ⟨0, firstAt_zero.mpr hbegins⟩
      · obtain ⟨k, hk⟩ := ih (t := cs) h
        exact ⟨k + 1, firstAt_succ.mpr ⟨hbegins, hk⟩⟩

theorem Spells.integer?_eq {t : List Char} {n : Int} (h : Spells t n) : integer? t = some n := by
  obtain ⟨i, hfirst, hleads⟩ := h
  rw [integer?_of_firstAt hfirst, hleads.integer?_eq]

/-- A text in which a number starts stands for a number. -/
theorem exists_spells {t : List Char} {i : Nat} (h : Begins (t.drop i)) : ∃ n, Spells t n := by
  obtain ⟨k, hk⟩ := exists_firstAt h
  obtain ⟨n, hn⟩ := hk.1.exists_leads
  exact ⟨n, k, hk, hn⟩

/-- Nothing is found where no number starts. -/
theorem integer?_of_forall_not_begins {t : List Char} (h : ∀ i, ¬ Begins (t.drop i)) :
    integer? t = none := by
  induction t with
  | nil => rfl
  | cons c cs ih =>
    rw [integer?_of_not_begins (h 0)]
    exact ih fun i => h (i + 1)

theorem integer?_eq_none_iff {t : List Char} : integer? t = none ↔ ∀ i, ¬ Begins (t.drop i) := by
  constructor
  · intro hnone i hbegins
    obtain ⟨n, hn⟩ := exists_spells hbegins
    rw [hn.integer?_eq] at hnone
    cases hnone
  · exact integer?_of_forall_not_begins

/-- **The number that is found is the one that the text spells.**  From right to left this is what
the search does; from left to right a text without numbers is excluded first. -/
theorem integer?_eq_some_iff {t : List Char} {n : Int} : integer? t = some n ↔ Spells t n := by
  constructor
  · intro hsome
    by_cases hbegins : ∃ i, Begins (t.drop i)
    · obtain ⟨i, hi⟩ := hbegins
      obtain ⟨m, hm⟩ := exists_spells hi
      rw [hm.integer?_eq, Option.some.injEq] at hsome
      exact hsome ▸ hm
    · rw [integer?_of_forall_not_begins fun i hi => hbegins ⟨i, hi⟩] at hsome
      cases hsome
  · exact Spells.integer?_eq

/-! ### The word on a line -/

/-- A word is found just if the text spells it, and so a number that does not fit is never cut down
to one that does. -/
theorem word?_eq_some_iff {t : List Char} {v : Word} : word? t = some v ↔ Spells t v.toInt := by
  have hlow := v.le_toInt
  have hhigh := v.toInt_lt
  rw [← integer?_eq_some_iff, word?]
  cases integer? t with
  | none => simp
  | some n =>
    dsimp only
    split
    · rename_i hrange
      rw [Option.some.injEq, Option.some.injEq]
      constructor
      · rintro rfl
        exact (Int32.toInt_ofInt_of_le (by omega) (by omega)).symm
      · rintro rfl
        exact Int32.ofInt_toInt v
    · -- a number out of range is not the value of any word, and `v` is a word
      rename_i hrange
      simp only [Option.some.injEq, reduceCtorEq, false_iff]
      omega

/-- There is no word where there is no number, or one that is too large or too small. -/
theorem word?_eq_none_iff {t : List Char} : word? t = none ↔
    (∀ i, ¬ Begins (t.drop i)) ∨ ∃ n, Spells t n ∧ (n < -2147483648 ∨ 2147483647 < n) := by
  simp only [← integer?_eq_none_iff, ← integer?_eq_some_iff, word?]
  cases integer? t with
  | none => simp
  | some n =>
    simp only [ite_eq_right_iff, reduceCtorEq, imp_false, false_or, Option.some.injEq,
      exists_eq_left']
    omega

variable {text : String} {rest : List UInt8}

/-- No word stands on an empty line. -/
theorem ne_nil_of_word {v : Word} (hword : word? (Text.trim text.toList) = some v) :
    Utf8.encode text ≠ [] := by
  intro hnil
  have htext := Utf8.decode?_encode text
  rw [hnil] at htext
  cases htext
  cases hword

/-- The word on the next line is read. -/
theorem readInteger_of_word {v : Word} (hline : IsNextLine (Utf8.encode text) rest)
    (hword : word? (Text.trim text.toList) = some v) :
    readInteger (Utf8.encode text ++ rest) = (.ok v, rest) := by
  have hne : (Utf8.encode text).isEmpty = false := by simpa using ne_nil_of_word hword
  simp [readInteger, hline.line_eq, hne, Utf8.decode?_encode, hword]

/-- A line without a word is used up as well, so that the next number is looked for on the line
after it. -/
theorem readInteger_of_no_word (hline : IsNextLine (Utf8.encode text) rest)
    (hne : Utf8.encode text ≠ []) (hword : word? (Text.trim text.toList) = none) :
    readInteger (Utf8.encode text ++ rest)
      = (.error (.badInput (String.ofList (Text.trim text.toList))), rest) := by
  have hsome : (Utf8.encode text).isEmpty = false := by simpa using hne
  simp [readInteger, hline.line_eq, hsome, Utf8.decode?_encode, hword]

end Input

namespace Text

/-! ### Numbers in decimal -/

/-- A number in decimal spells itself: it starts with a digit or with a minus sign, and no digit is
left over. -/
theorem spells_decimal (n : Int) : Input.Spells (decimal n) n := by
  have hall : ∀ c ∈ Nat.toDigits 10 n.natAbs, c.isDigit = true := fun c hc =>
    Nat.isDigit_of_mem_toDigits (by decide) (by decide) hc
  have hvalue : Nat.ofDigitChars 10 (Nat.toDigits 10 n.natAbs) 0 = n.natAbs :=
    Nat.ofDigitChars_ten_toDigits
  have hleads : Input.Leads (decimal n) n := by
    rw [decimal, ← List.append_nil (Nat.toDigits 10 n.natAbs)]
    split
    · have h : Input.Leads ('-' :: (Nat.toDigits 10 n.natAbs ++ [])) _ :=
        .negative Nat.toDigits_ne_nil hall rfl
      rwa [hvalue, show -(n.natAbs : Int) = n by omega] at h
    · have h : Input.Leads (Nat.toDigits 10 n.natAbs ++ []) _ :=
        .plain Nat.toDigits_ne_nil hall rfl
      rwa [hvalue, show (n.natAbs : Int) = n by omega] at h
  exact ⟨0, Input.firstAt_zero.mpr hleads.begins, hleads⟩

theorem decimal_ne_nil (n : Int) : decimal n ≠ [] := by
  rw [decimal]
  split
  · exact List.cons_ne_nil _ _
  · exact Nat.toDigits_ne_nil

/-- A number is written with digits and a minus sign. -/
theorem mem_decimal {n : Int} {c : Char} (h : c ∈ decimal n) : c.isDigit = true ∨ c = '-' := by
  have hdigit : c ∈ Nat.toDigits 10 n.natAbs → c.isDigit = true :=
    Nat.isDigit_of_mem_toDigits (by decide) (by decide)
  rw [decimal] at h
  split at h
  · rcases List.mem_cons.mp h with hc | hc
    · exact Or.inr hc
    · exact Or.inl (hdigit hc)
  · exact Or.inl (hdigit h)

/-- Numbers are written without blanks. -/
theorem isBlank_of_mem_decimal {n : Int} {c : Char} (h : c ∈ decimal n) : isBlank c = false := by
  rcases mem_decimal h with hdigit | rfl
  · rw [Utf8.isDigit_char, decide_eq_true_iff] at hdigit
    simp [isBlank]
    omega
  · rfl

/-! ### Blanks around a text -/

theorem dropWhile_isBlank {cs : List Char} (vs : List Char) (hne : cs ≠ [])
    (hcs : ∀ c ∈ cs, isBlank c = false) : (cs ++ vs).dropWhile isBlank = cs ++ vs := by
  obtain ⟨c, cs, rfl⟩ := List.exists_cons_of_ne_nil hne
  rw [List.cons_append, List.dropWhile_cons_of_neg]
  simp [hcs c List.mem_cons_self]

/-- The blanks on both sides of a text are trimmed away, if there is no blank in it. -/
theorem trim_append {us cs vs : List Char} (hne : cs ≠ []) (hus : ∀ c ∈ us, isBlank c = true)
    (hcs : ∀ c ∈ cs, isBlank c = false) (hvs : ∀ c ∈ vs, isBlank c = true) :
    trim (us ++ (cs ++ vs)) = cs := by
  have hback : cs.reverse.dropWhile isBlank = cs.reverse := by
    have h := dropWhile_isBlank [] (List.reverse_ne_nil_iff.mpr hne) fun c hc =>
      hcs c (List.mem_reverse.mp hc)
    rwa [List.append_nil] at h
  rw [trim, List.dropWhile_append_of_pos hus, dropWhile_isBlank vs hne hcs, List.reverse_append,
    List.dropWhile_append_of_pos fun c hc => hvs c (List.mem_reverse.mp hc), hback,
    List.reverse_reverse]

/-- A line with a number in a field stands for the number. -/
theorem trim_padLeft_decimal (width : Nat) (n : Int) :
    trim (padLeft width (decimal n) ++ ['\n']) = decimal n := by
  rw [padLeft, List.append_assoc]
  refine trim_append (decimal_ne_nil n) ?_ (fun c hc => isBlank_of_mem_decimal hc) ?_
  · intro c hc
    rw [List.eq_of_mem_replicate hc]
    rfl
  · intro c hc
    rw [List.mem_singleton.mp hc]
    rfl

/-- A number in a field stands on one line. -/
theorem newline_notMem_padLeft (width : Nat) (n : Int) : '\n' ∉ padLeft width (decimal n) := by
  rw [padLeft, List.mem_append]
  rintro (h | h)
  · exact absurd (List.eq_of_mem_replicate h) (by decide)
  · exact absurd (isBlank_of_mem_decimal h) (by decide)

end Text

/-- A text without a newline has no byte that looks like one. -/
theorem Utf8.newline_notMem_flatMap {cs : List Char} (h : '\n' ∉ cs) :
    (10 : UInt8) ∉ cs.flatMap String.utf8EncodeChar := by
  rw [List.mem_flatMap]
  rintro ⟨c, hc, hb⟩
  have hnewline : c = '\n' := Char.toNat_inj.mp (toNat_eq_of_mem hb (by decide))
  exact h (hnewline ▸ hc)

/-- What is written for a number is a line when a newline follows, and is read as the number.  The
blanks that fill the field are trimmed away before the number is looked for. -/
theorem Input.readInteger_padLeft (width : Nat) (v : Word) (rest : List UInt8) :
    readInteger ((Text.padLeft width (Text.decimal v.toInt)).flatMap String.utf8EncodeChar
      ++ 10 :: rest) = (.ok v, rest) := by
  let cs := Text.padLeft width (Text.decimal v.toInt)
  have hbytes : Utf8.encode (String.ofList (cs ++ ['\n']))
      = cs.flatMap String.utf8EncodeChar ++ [10] := by
    rw [Utf8.encode_eq_flatMap, String.toList_ofList, List.flatMap_append]
    rfl
  have hline : IsNextLine (Utf8.encode (String.ofList (cs ++ ['\n']))) rest :=
    Or.inl ⟨_, hbytes, Utf8.newline_notMem_flatMap (Text.newline_notMem_padLeft width v.toInt)⟩
  have hword : word? (Text.trim (String.ofList (cs ++ ['\n'])).toList) = some v := by
    rw [String.toList_ofList, Text.trim_padLeft_decimal]
    exact word?_eq_some_iff.mpr (Text.spells_decimal v.toInt)
  have hread := readInteger_of_word hline hword
  rwa [hbytes, List.append_assoc] at hread

namespace Machine

/-! ### Reading and printing -/

variable {s : State}

theorem execute_read (limits : Limits) {v : Word} {rest : List UInt8}
    (h : Input.readInteger s.input = (.ok v, rest)) :
    execute limits .read s
      = .ok true { s with input := rest, stack := s.stack.push v } := by
  have hread : readInteger s = .ok v { s with input := rest } := by rw [readInteger, h]
  rw [execute, Action.bind_of_ok hread]
  rfl

theorem execute_read_error (limits : Limits) {cause : Fault} {rest : List UInt8}
    (h : Input.readInteger s.input = (.error cause, rest)) :
    execute limits .read s = .error (.fault cause) { s with input := rest } := by
  have hread : readInteger s = .error (.fault cause) { s with input := rest } := by
    rw [readInteger, h]
  rw [execute]
  exact Action.bind_eq_error.mpr (Or.inl hread)

/-- Three things can happen when a line of text is read: the input has ended, there is no word on
the line, or there is one.  They exclude each other. -/
theorem execute_read_cases (limits : Limits) {text : String} {rest : List UInt8}
    (hinput : s.input = Utf8.encode text ++ rest)
    (hline : Input.IsNextLine (Utf8.encode text) rest) :
    (s.input = [] ∧ Input.word? (Text.trim text.toList) = none ∧
      execute limits .read s = .error (.fault .inputEnd) { s with input := rest }) ∨
    (s.input ≠ [] ∧ Input.word? (Text.trim text.toList) = none ∧ execute limits .read s
      = .error (.fault (.badInput (String.ofList (Text.trim text.toList))))
          { s with input := rest }) ∨
    (s.input ≠ [] ∧ ∃ v, Input.word? (Text.trim text.toList) = some v ∧
      execute limits .read s = .ok true { s with input := rest, stack := s.stack.push v }) := by
  rw [hinput, Ne, hline.append_eq_nil_iff]
  cases hword : Input.word? (Text.trim text.toList) with
  | some v =>
    refine Or.inr (Or.inr ⟨Input.ne_nil_of_word hword, v, rfl, execute_read limits ?_⟩)
    rw [hinput, Input.readInteger_of_word hline hword]
  | none =>
    by_cases hempty : Utf8.encode text = []
    · refine Or.inl ⟨hempty, rfl, execute_read_error limits ?_⟩
      -- a line is empty only if nothing follows, since otherwise it would have its end in it
      have hrest : rest = [] := by
        have hnil := hline.append_eq_nil_iff.mpr hempty
        exact (List.append_eq_nil_iff.mp hnil).2
      rw [hinput, hempty, hrest]
      rfl
    · refine Or.inr (Or.inl ⟨hempty, rfl, execute_read_error limits ?_⟩)
      rw [hinput, Input.readInteger_of_no_word hline hempty hword]

/-- A number is printed in a field that is not too wide. -/
theorem execute_print (limits : Limits) {v width : Word} {below : Array Word}
    (hwidth : width ≤ 65535) (hstack : s.stack = (below.push v).push width) :
    execute limits .print s = .ok true { s with
      stack := below
      output := s.output ++ (Text.padLeft width.toInt.toNat (Text.decimal v.toInt)).flatMap
        String.utf8EncodeChar } := by
  rw [execute, pop_pop_push hstack, writeField, if_neg (Int32.not_lt.mpr hwidth)]
  rfl

/-- **A machine reads the leftmost number on the next line, and reads back what it prints.**  The
line is used up, with its newline, whether or not there is a number on it. -/
theorem read_print_numbers (limits : Limits) :
    (∀ (s : State) (text : String) (rest : List UInt8),
      s.input = Utf8.encode text ++ rest → Input.IsNextLine (Utf8.encode text) rest →
      let t := Text.trim text.toList
      (∀ v, execute limits .read s = .ok true { s with input := rest, stack := s.stack.push v }
        ↔ Input.Spells t v.toInt) ∧
      (execute limits .read s
          = .error (.fault (.badInput (String.ofList t))) { s with input := rest }
        ↔ s.input ≠ [] ∧ ((∀ i, ¬ Input.Begins (t.drop i)) ∨
            ∃ n, Input.Spells t n ∧ (n < -2147483648 ∨ 2147483647 < n))) ∧
      (execute limits .read s = .error (.fault .inputEnd) { s with input := rest }
        ↔ s.input = []) ∧
      ((∃ v, execute limits .read s
          = .ok true { s with input := rest, stack := s.stack.push v }) ∨
        execute limits .read s
          = .error (.fault (.badInput (String.ofList t))) { s with input := rest } ∨
        execute limits .read s = .error (.fault .inputEnd) { s with input := rest })) ∧
    ∀ (s : State) (v width : Word) (below : Array Word),
      width ≤ 65535 → s.stack = (below.push v).push width →
      ∃ printed : List UInt8, execute limits .print s
          = .ok true { s with stack := below, output := s.output ++ printed } ∧
        ∀ (s' : State) (rest : List UInt8), s'.input = printed ++ 10 :: rest →
          execute limits .read s'
            = .ok true { s' with input := rest, stack := s'.stack.push v } := by
  refine ⟨?_, ?_⟩
  · -- each of the three outcomes decides all the equivalences
    intro s text rest hinput hline t
    simp only [← Input.word?_eq_some_iff, ← Input.word?_eq_none_iff]
    rcases execute_read_cases limits hinput hline with
      ⟨hend, hword, hexec⟩ | ⟨hleft, hword, hexec⟩ | ⟨hleft, v, hword, hexec⟩
    · simp [t, hexec, hend, hword]
    · simp [t, hexec, hleft, hword]
    · simp [t, hexec, hleft, hword, Array.push_eq_push]
  · intro s v width below hwidth hstack
    refine ⟨_, execute_print limits hwidth hstack, ?_⟩
    intro s' rest hinput
    apply execute_read
    rw [hinput, Input.readInteger_padLeft]

/-- A machine with two lines to read, and a number with the width of its field to print. -/
def twoLines : State where
  pc := 0
  steps := 0
  stack := #[-2147483648, 20]
  frames := #[]
  returns := #[]
  heap := #[0]
  statics := #[]
  input := Utf8.encode "é- --05x3\n" ++ [55]
  output := #[]

/-- The number on the line starts at its third minus sign; the least word is read back. -/
theorem read_print_numbers_signs :
    Input.IsNextLine (Utf8.encode "é- --05x3\n") [55] ∧
      execute .standard .read twoLines
        = .ok true { twoLines with input := [55], stack := #[-2147483648, 20, -5] } ∧
      ∃ printed : List UInt8, execute .standard .print twoLines
          = .ok true { twoLines with stack := #[], output := twoLines.output ++ printed } ∧
        execute .standard .read { twoLines with input := printed ++ [10] }
          = .ok true { twoLines with input := [], stack := #[-2147483648, 20, -2147483648] } := by
  have hline : Input.IsNextLine (Utf8.encode "é- --05x3\n") [55] :=
    Or.inl ⟨Utf8.encode "é- --05x3", by decide +kernel, by decide +kernel⟩
  have htext : Text.trim "é- --05x3\n".toList = ['é', '-', ' ', '-', '-', '0', '5', 'x', '3'] := by
    decide +kernel
  have hspells : Input.Spells (Text.trim "é- --05x3\n".toList) (-5 : Word).toInt := by
    rw [htext]
    refine ⟨4, ⟨Or.inr ⟨rfl, rfl⟩, ?_⟩, ?_⟩
    · intro j hj
      have hpos : j = 0 ∨ j = 1 ∨ j = 2 ∨ j = 3 := by omega
      rcases hpos with rfl | rfl | rfl | rfl <;> simp [Input.Begins]
    · have hdigits : ∀ c ∈ ['0', '5'], c.isDigit = true := List.all_eq_true.mp rfl
      have hvalue : (-5 : Word).toInt = -(Nat.ofDigitChars 10 ['0', '5'] 0 : Int) := rfl
      rw [hvalue]
      exact Input.Leads.negative (List.cons_ne_nil _ _) hdigits rfl
  obtain ⟨hread, hprint⟩ := read_print_numbers .standard
  obtain ⟨printed, hprinted, hback⟩ := hprint twoLines (-2147483648) 20 #[] (by decide) rfl
  exact ⟨hline, ((hread twoLines _ _ rfl hline).1 (-5)).mpr hspells, printed, hprinted,
    hback { twoLines with input := printed ++ [10] } [] rfl⟩

end Machine
end MJ
