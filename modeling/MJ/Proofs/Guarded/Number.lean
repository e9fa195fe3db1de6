import MJ.Proofs.Guarded.Basic
import MJ.Proofs.Printing

/-!
# Numbers in a line of input

A number is looked for among the bytes of a line, and is then cut out of its text.  It may be
preceded by characters of several bytes, but no byte of such a character looks like a digit or a
minus sign, so the number is cut out between characters.

## Main definitions

* `Utf8.encodeChars`, `Utf8.isBoundary` — the bytes of a text, and the places between its
  characters.
* `Machine.Guarded.startsNumber`, `findNumber` — whether a number starts at a byte, and the first
  byte at which one does.
* `Machine.Guarded.cut` — a part of a text, which must not begin or end inside a character.
* `Machine.Guarded.number` — the word that a line stands for.

## Main results

* `Machine.Guarded.findNumber_encodeChars` — the search stops at the first number in the text.
* `Machine.Guarded.number_eq` — **a number is cut out of its line without a breach**, and it is the
  one that the characters of the line spell.
-/

namespace MJ

/-! ### The bytes of a text -/

namespace Utf8

/-- Whether a byte is one of the digits 0 to 9. -/
def isDigit (b : UInt8) : Bool := 48 ≤ b && b ≤ 57

/-- The bytes of a list of characters. -/
def encodeChars (cs : List Char) : List UInt8 := cs.flatMap String.utf8EncodeChar

/-- Whether a text may be cut before the byte at an index: at its two ends, and where that byte does
not continue a character. -/
def isBoundary (bs : List UInt8) (i : Nat) : Bool :=
  i == 0 || i == bs.length || bs[i]?.any fun b => b < 128 || 192 ≤ b

@[simp] theorem encodeChars_nil : encodeChars [] = [] := rfl

@[simp] theorem encodeChars_cons (c : Char) (cs : List Char) :
    encodeChars (c :: cs) = String.utf8EncodeChar c ++ encodeChars cs := List.flatMap_cons

@[simp] theorem encodeChars_append (cs ds : List Char) :
    encodeChars (cs ++ ds) = encodeChars cs ++ encodeChars ds := List.flatMap_append

/-- An ASCII character is one byte; any other character starts with a byte from 192 on, and is
continued by bytes from 128 on.  This is all that has to be known of the encoding. -/
theorem utf8EncodeChar_cases (c : Char) :
    (c.toNat < 128 ∧ String.utf8EncodeChar c = [UInt8.ofNat c.toNat]) ∨
      (128 ≤ c.toNat ∧ ∃ first rest, String.utf8EncodeChar c = first :: rest ∧
        192 ≤ first.toNat ∧ ∀ b ∈ rest, 128 ≤ b.toNat) := by
  have hval : c.toNat = c.val.toNat := rfl
  rw [String.utf8EncodeChar, hval]
  -- the cases are characters of one, two, three and four bytes
  split
  · exact Or.inl ⟨by omega, rfl⟩
  · refine Or.inr ⟨by omega, ?_⟩
    split
    · refine ⟨_, _, rfl, ?_, ?_⟩
      · simp only [UInt8.toNat_ofNat']
        omega
      · simp only [List.mem_cons, List.not_mem_nil, or_false, forall_eq, UInt8.toNat_ofNat']
        omega
    · split
      · refine ⟨_, _, rfl, ?_, ?_⟩
        · simp only [UInt8.toNat_ofNat']
          omega
        · simp only [List.mem_cons, List.not_mem_nil, or_false, forall_eq_or_imp, forall_eq,
            UInt8.toNat_ofNat']
          omega
      · refine ⟨_, _, rfl, ?_, ?_⟩
        · simp only [UInt8.toNat_ofNat']
          omega
        · simp only [List.mem_cons, List.not_mem_nil, or_false, forall_eq_or_imp, forall_eq,
            UInt8.toNat_ofNat']
          omega

theorem isDigit_eq (b : UInt8) : isDigit b = decide (48 ≤ b.toNat ∧ b.toNat ≤ 57) := by
  simp [isDigit, UInt8.le_iff_toNat_le]

theorem isDigit_char (c : Char) : c.isDigit = decide (48 ≤ c.toNat ∧ c.toNat ≤ 57) := by
  simp [Char.isDigit, UInt32.le_iff_toNat_le]

/-- A digit is one byte. -/
theorem utf8EncodeChar_of_isDigit {c : Char} (h : c.isDigit = true) :
    String.utf8EncodeChar c = [UInt8.ofNat c.toNat] ∧ isDigit (UInt8.ofNat c.toNat) = true := by
  rw [isDigit_char, decide_eq_true_iff] at h
  rw [isDigit_eq, decide_eq_true_iff, UInt8.toNat_ofNat']
  rcases utf8EncodeChar_cases c with ⟨-, hone⟩ | ⟨hlarge, -⟩
  · exact ⟨hone, by omega⟩
  · omega

/-- A byte of a character that looks like an ASCII character is one, and is the whole of it. -/
theorem toNat_eq_of_mem {c : Char} {b : UInt8} (hb : b ∈ String.utf8EncodeChar c)
    (hascii : b.toNat < 128) : c.toNat = b.toNat := by
  rcases utf8EncodeChar_cases c with ⟨hsmall, hone⟩ | ⟨-, first, rest, hmore, hfirst, hrest⟩
  · rw [hone, List.mem_singleton] at hb
    rw [hb, UInt8.toNat_ofNat']
    omega
  · rw [hmore, List.mem_cons] at hb
    rcases hb with rfl | hb
    · omega
    · have := hrest b hb
      omega

theorem isDigit_of_mem {c : Char} (hc : c.isDigit = false) {b : UInt8}
    (hb : b ∈ String.utf8EncodeChar c) : isDigit b = false := by
  rw [isDigit_char, decide_eq_false_iff_not] at hc
  rw [isDigit_eq, decide_eq_false_iff_not]
  intro hdigit
  rw [toNat_eq_of_mem hb (by omega)] at hc
  exact hc hdigit

theorem ne_minus_of_mem {c : Char} (hc : c ≠ '-') {b : UInt8} (hb : b ∈ String.utf8EncodeChar c) :
    b ≠ 45 := by
  rintro rfl
  exact hc (Char.toNat_inj.mp (toNat_eq_of_mem hb (by decide)))

/-- The first byte of a text is a digit if its first character is one. -/
theorem head?_encodeChars (cs : List Char) :
    (encodeChars cs).head?.any isDigit = cs.head?.any Char.isDigit := by
  cases cs with
  | nil => rfl
  | cons c cs =>
    cases hc : c.isDigit with
    | true =>
      obtain ⟨hbytes, hdigit⟩ := utf8EncodeChar_of_isDigit hc
      simp [hbytes, hdigit, hc]
    | false =>
      obtain ⟨b, bs, hbytes⟩ : ∃ b bs, String.utf8EncodeChar c = b :: bs := by
        rcases utf8EncodeChar_cases c with ⟨-, hone⟩ | ⟨-, first, rest, hmore, -⟩
        · exact ⟨_, _, hone⟩
        · exact ⟨_, _, hmore⟩
      have hb : isDigit b = false := isDigit_of_mem hc (hbytes ▸ List.mem_cons_self)
      simp [hbytes, hb, hc]

/-- Digits are one byte each. -/
theorem encodeChars_digits {cs : List Char} (h : ∀ c ∈ cs, c.isDigit = true) :
    encodeChars cs = cs.map fun c => UInt8.ofNat c.toNat := by
  induction cs with
  | nil => rfl
  | cons c cs ih =>
    obtain ⟨hbytes, -⟩ := utf8EncodeChar_of_isDigit (h c List.mem_cons_self)
    rw [encodeChars_cons, hbytes, ih fun d hd => h d (List.mem_cons_of_mem c hd)]
    rfl

/-- The digits at the front of a text are those at the front of its bytes.  The search runs over
bytes and the specification over characters, and this is where they meet. -/
theorem takeWhile_encodeChars (cs : List Char) :
    (encodeChars cs).takeWhile isDigit = encodeChars (cs.takeWhile Char.isDigit) := by
  induction cs with
  | nil => rfl
  | cons c cs ih =>
    cases hc : c.isDigit with
    | true =>
      obtain ⟨hbytes, hdigit⟩ := utf8EncodeChar_of_isDigit hc
      simp [hbytes, hdigit, hc, ih]
    | false =>
      -- a character that is no digit may have several bytes, but the first of them is none
      have hhead := head?_encodeChars (c :: cs)
      rw [List.takeWhile_cons, hc]
      cases hbytes : encodeChars (c :: cs) with
      | nil => rfl
      | cons b bs =>
        have hb : isDigit b = false := by simpa [hbytes, hc] using hhead
        simp [hb]

/-- A text may be cut after any of its characters, because the next one does not begin with a byte
that continues a character. -/
theorem isBoundary_encodeChars (cs ds : List Char) :
    isBoundary (encodeChars (cs ++ ds)) (encodeChars cs).length = true := by
  cases ds with
  | nil => simp [isBoundary]
  | cons d ds =>
    obtain ⟨b, bs, hbytes, hb⟩ : ∃ b bs, String.utf8EncodeChar d = b :: bs ∧
        (b < 128 || 192 ≤ b) = true := by
      rcases utf8EncodeChar_cases d with ⟨hsmall, hone⟩ | ⟨-, first, rest, hmore, hfirst, -⟩
      · refine ⟨_, _, hone, ?_⟩
        simp [UInt8.lt_iff_toNat_lt]
        omega
      · refine ⟨_, _, hmore, ?_⟩
        simp [UInt8.le_iff_toNat_le]
        omega
    rw [isBoundary, Bool.or_eq_true]
    right
    simp [hbytes, hb]

end Utf8

/-! ### The first number -/

namespace Input

/-- A number stands at the front of a text: a digit, or a minus sign with a digit after it.  A plus
sign does not count. -/
def Begins : List Char → Prop
  | [] => False
  | c :: cs => c.isDigit = true ∨ c = '-' ∧ cs.head?.any Char.isDigit = true

theorem integer?_of_not_begins {c : Char} {cs : List Char} (h : ¬ Begins (c :: cs)) :
    integer? (c :: cs) = integer? cs := by
  obtain ⟨hdigit, hsign⟩ := not_or.mp h
  rw [integer?, if_neg hdigit, if_neg hsign]

end Input

namespace Machine.Guarded

open Utf8

/-- Whether a number starts at an index: a digit, or a minus sign and a digit. -/
def startsNumber (bs : List UInt8) (i : Nat) : Guarded Bool := do
  let b ← element bs i
  if isDigit b then return true
  else if b = 45 then
    let next ← sum i 1
    return bs[next]?.any isDigit
  else return false

/-- The first of the `n` indices from `i` on at which a number starts.  The indices are those of
bytes and not of characters. -/
def findNumber (bs : List UInt8) : (i n : Nat) → Guarded (Option Nat)
  | _, 0 => return none
  | i, n + 1 => do
    if ← startsNumber bs i then return some i
    else findNumber bs (i + 1) n

theorem startsNumber_eq {before after : List UInt8} {b : UInt8}
    (hlen : before.length + 1 < 18446744073709551616) :
    startsNumber (before ++ b :: after) before.length
      = pure (isDigit b || b == 45 && after.head?.any isDigit) := by
  have hb : element (before ++ b :: after) before.length = pure b :=
    element_of_getElem? (by simp)
  have hnext : (before ++ b :: after)[before.length + 1]? = after.head? := by
    rw [List.getElem?_append_right (Nat.le_add_right _ _), Nat.add_sub_cancel_left,
      List.head?_eq_getElem?]
    rfl
  rw [startsNumber, hb, pure_bind, sum_of_lt hlen, pure_bind, hnext]
  cases hdigit : isDigit b with
  | true => simp
  | false =>
    by_cases hminus : b = 45
    · simp [hminus]
    · simp [hminus, beq_eq_false_iff_ne.mpr hminus]

/-- Bytes that look neither like a digit nor like a minus sign are passed over. -/
theorem findNumber_skip (before : List UInt8) {mid : List UInt8} (after : List UInt8) (n : Nat)
    (hlen : (before ++ mid).length < 18446744073709551616)
    (hmid : ∀ b ∈ mid, isDigit b = false ∧ b ≠ 45) :
    findNumber (before ++ (mid ++ after)) before.length (mid.length + n)
      = findNumber (before ++ (mid ++ after)) (before ++ mid).length n := by
  induction mid generalizing before with
  | nil => simp
  | cons b mid ih =>
    obtain ⟨hdigit, hminus⟩ := hmid b List.mem_cons_self
    have hlen' : before.length + 1 < 18446744073709551616 := by
      simp only [List.length_append, List.length_cons] at hlen
      omega
    have hskip := ih (before ++ [b]) (by simpa using hlen) fun b hb =>
      hmid b (List.mem_cons_of_mem _ hb)
    rw [List.append_assoc, List.append_assoc] at hskip
    rw [List.length_cons, Nat.succ_add, findNumber, List.cons_append, startsNumber_eq hlen',
      pure_bind, hdigit, Bool.false_or, beq_eq_false_iff_ne.mpr hminus]
    simpa using hskip

/-- A character at which no number starts is passed over, with all its bytes.  A minus sign is one
if no digit follows. -/
theorem findNumber_char (before : List UInt8) {c : Char} {cs : List Char}
    (hlen : (before ++ String.utf8EncodeChar c).length < 18446744073709551616)
    (hc : ¬ Input.Begins (c :: cs)) :
    findNumber (before ++ encodeChars (c :: cs)) before.length (encodeChars (c :: cs)).length
      = findNumber (before ++ encodeChars (c :: cs)) (before ++ String.utf8EncodeChar c).length
          (encodeChars cs).length := by
  obtain ⟨hdigit, hsign⟩ := not_or.mp hc
  rw [Bool.not_eq_true] at hdigit
  rw [encodeChars_cons]
  by_cases hminus : c = '-'
  · -- a minus sign is one byte, and the search has to look at the next one
    subst hminus
    have hnext : (encodeChars cs).head?.any isDigit = false := by
      rw [head?_encodeChars]
      simpa using hsign
    have hbytes : String.utf8EncodeChar '-' = [45] := rfl
    rw [hbytes] at hlen ⊢
    rw [List.length_append] at hlen
    rw [List.singleton_append, List.length_cons, findNumber, startsNumber_eq hlen, pure_bind, hnext]
    simp [isDigit]
  · rw [List.length_append]
    exact findNumber_skip before _ _ hlen fun b hb =>
      ⟨isDigit_of_mem hdigit hb, ne_minus_of_mem hminus hb⟩

/-- The first character of a number is one byte, at which the number starts. -/
theorem utf8EncodeChar_of_begins {c : Char} {cs : List Char} (h : Input.Begins (c :: cs)) :
    ∃ b, String.utf8EncodeChar c = [b] ∧
      (isDigit b || b == 45 && (encodeChars cs).head?.any isDigit) = true := by
  rcases h with hdigit | ⟨rfl, hnext⟩
  · obtain ⟨hbytes, hb⟩ := utf8EncodeChar_of_isDigit hdigit
    exact ⟨_, hbytes, by simp [hb]⟩
  · rw [head?_encodeChars, hnext]
    exact ⟨45, rfl, rfl⟩

/-- The search stops at the first number in the text, and finds none if there is none.  By induction
on the text, with the bytes before it as a parameter, so that the indices stay those of the line. -/
theorem findNumber_encodeChars (before : List UInt8) (cs : List Char)
    (hlen : (before ++ encodeChars cs).length < 9223372036854775808) :
    (Input.integer? cs = none ∧ findNumber (before ++ encodeChars cs) before.length
        (encodeChars cs).length = pure none) ∨
      ∃ skipped rest, cs = skipped ++ rest ∧ Input.Begins rest ∧
        Input.integer? cs = Input.integer? rest ∧
        findNumber (before ++ encodeChars cs) before.length (encodeChars cs).length
          = pure (some (before ++ encodeChars skipped).length) := by
  induction cs generalizing before with
  | nil => exact Or.inl ⟨rfl, rfl⟩
  | cons c cs ih =>
    by_cases hbegins : Input.Begins (c :: cs)
    · obtain ⟨b, hbytes, hb⟩ := utf8EncodeChar_of_begins hbegins
      have hlen' : before.length + 1 < 18446744073709551616 := by
        simp only [encodeChars_cons, hbytes, List.length_append, List.length_cons] at hlen
        omega
      refine Or.inr ⟨[], c :: cs, rfl, hbegins, rfl, ?_⟩
      rw [encodeChars_cons, hbytes, List.singleton_append, List.length_cons, findNumber,
        startsNumber_eq hlen', pure_bind, hb]
      simp
    · -- the bytes of the first character are passed over, and join those before the text
      have hsplit : before ++ encodeChars (c :: cs)
          = (before ++ String.utf8EncodeChar c) ++ encodeChars cs := by simp
      have hskip := findNumber_char before (by
        rw [hsplit, List.length_append] at hlen
        omega) hbegins
      rw [hskip, Input.integer?_of_not_begins hbegins]
      rw [hsplit] at hlen ⊢
      rcases ih _ hlen with hnone | ⟨skipped, rest, rfl, hrest, hvalue, hfind⟩
      · exact Or.inl hnone
      · refine Or.inr ⟨c :: skipped, rest, rfl, hrest, hvalue, ?_⟩
        rw [hfind]
        simp

/-! ### The number -/

/-- A part of a text, which must not begin or end inside a character.  Otherwise it would not be a
text. -/
def cut (bs : List UInt8) (start stop : Nat) : Guarded (List UInt8) :=
  if start ≤ stop ∧ isBoundary bs start = true ∧ isBoundary bs stop = true then
    slice bs start stop
  else breach .boundary

/-- The number that a string of digits stands for. -/
def digits? (bs : List UInt8) : Option Int :=
  if bs.isEmpty || !bs.all isDigit then none
  else some (Int.ofNat (bs.foldl (fun n b => 10 * n + (b.toNat - 48)) 0))

/-- The word that digits stand for, with or without a sign before them.  There is none if the number
does not fit. -/
def parse? : List UInt8 → Option Word
  | [] => none
  | b :: bs =>
    let value? :=
      if b = 45 then (digits? bs).map fun n => -n
      else if b = 43 then digits? bs
      else digits? (b :: bs)
    match value? with
    | some n => if -2147483648 ≤ n ∧ n ≤ 2147483647 then some (Int32.ofInt n) else none
    | none => none

/-- The word that a line of text stands for. -/
def number (text : List Char) : Guarded Word := do
  let bs := encodeChars text
  match ← findNumber bs 0 bs.length with
  | none => fail (.badInput (String.ofList text))
  | some start =>
    let second ← sum start 1
    let tail ← slice bs second bs.length
    let stop ← sum second (tail.takeWhile isDigit).length
    match parse? (← cut bs start stop) with
    | some v => return v
    | none => fail (.badInput (String.ofList text))

/-- The bytes of some characters may be cut out of their text. -/
theorem cut_encodeChars (cs ds es : List Char) :
    cut (encodeChars (cs ++ (ds ++ es))) (encodeChars cs).length
        ((encodeChars cs).length + (encodeChars ds).length) = pure (encodeChars ds) := by
  have hstart := isBoundary_encodeChars cs (ds ++ es)
  have hstop := isBoundary_encodeChars (cs ++ ds) es
  rw [encodeChars_append cs ds, List.length_append, List.append_assoc] at hstop
  rw [cut, if_pos ⟨Nat.le_add_right _ _, hstart, hstop⟩, slice_of_le (Nat.le_add_right _ _)]
  · simp [List.extract_eq_take_drop]
  · simp only [encodeChars_append, List.length_append]
    omega

/-- Digits are added up byte by byte as they are character by character. -/
theorem foldl_encodeChars {cs : List Char} (h : ∀ c ∈ cs, c.isDigit = true) (init : Nat) :
    (encodeChars cs).foldl (fun n b => 10 * n + (b.toNat - 48)) init
      = Nat.ofDigitChars 10 cs init := by
  induction cs generalizing init with
  | nil => rfl
  | cons c cs ih =>
    have hc := h c List.mem_cons_self
    obtain ⟨hbytes, -⟩ := utf8EncodeChar_of_isDigit hc
    rw [isDigit_char, decide_eq_true_iff] at hc
    have hcode : (UInt8.ofNat c.toNat).toNat = c.toNat := by
      rw [UInt8.toNat_ofNat']
      omega
    rw [encodeChars_cons, hbytes, List.singleton_append, List.foldl_cons, hcode,
      ih fun d hd => h d (List.mem_cons_of_mem c hd)]
    rfl

/-- The digits of a text are read as its characters are. -/
theorem digits?_encodeChars {cs : List Char} (hcs : cs ≠ []) (h : ∀ c ∈ cs, c.isDigit = true) :
    digits? (encodeChars cs) = some (Int.ofNat (Nat.ofDigitChars 10 cs 0)) := by
  have hdigits : ((encodeChars cs).isEmpty || !(encodeChars cs).all isDigit) = false := by
    rw [encodeChars_digits h, Bool.or_eq_false_iff, Bool.not_eq_false']
    refine ⟨by simpa using hcs, ?_⟩
    rw [List.all_map, List.all_eq_true]
    exact fun c hc => (utf8EncodeChar_of_isDigit (h c hc)).2
  rw [digits?, hdigits, foldl_encodeChars h]
  rfl

/-- A number and its sign are read as their characters are.  The number starts with a digit or with
a minus sign, and in both cases its other characters are digits. -/
theorem parse?_of_begins {c : Char} {cs : List Char} (h : Input.Begins (c :: cs)) :
    parse? (encodeChars (c :: cs.takeWhile Char.isDigit)) = Input.word? (c :: cs) := by
  have hrun : ∀ d ∈ cs.takeWhile Char.isDigit, d.isDigit = true := fun d hd =>
    (List.all_eq_true.mp List.all_takeWhile) d hd
  by_cases hdigit : c.isDigit = true
  · obtain ⟨hbytes, hb⟩ := utf8EncodeChar_of_isDigit hdigit
    have hall : ∀ d ∈ c :: cs.takeWhile Char.isDigit, d.isDigit = true :=
      List.forall_mem_cons.mpr ⟨hdigit, hrun⟩
    have hvalue := digits?_encodeChars (List.cons_ne_nil _ _) hall
    rw [encodeChars_cons, hbytes, List.singleton_append] at hvalue ⊢
    -- a digit is no sign
    have hminus : UInt8.ofNat c.toNat ≠ 45 := fun heq => by rw [heq] at hb; cases hb
    have hplus : UInt8.ofNat c.toNat ≠ 43 := fun heq => by rw [heq] at hb; cases hb
    have hnatural : Input.natural (c :: cs)
        = Nat.ofDigitChars 10 (c :: cs.takeWhile Char.isDigit) 0 := by
      rw [Input.natural, List.takeWhile_cons, if_pos hdigit]
    rw [parse?, if_neg hminus, if_neg hplus, hvalue, Input.word?, Input.integer?, if_pos hdigit,
      hnatural]
    rfl
  · obtain ⟨rfl, hnext⟩ := h.resolve_left hdigit
    -- a minus sign alone is no number
    have hne : cs.takeWhile Char.isDigit ≠ [] := by
      cases cs with
      | nil => cases hnext
      | cons d cs =>
        have hd : d.isDigit = true := by simpa using hnext
        simp [hd]
    have hvalue := digits?_encodeChars hne hrun
    have hbytes : encodeChars ('-' :: cs.takeWhile Char.isDigit)
        = 45 :: encodeChars (cs.takeWhile Char.isDigit) := rfl
    rw [hbytes, parse?, if_pos rfl, hvalue, Input.word?, Input.integer?, if_neg hdigit,
      if_pos ⟨rfl, hnext⟩]
    rfl

/-- **A number is cut out of its line without a breach**, and is the one that the characters of the
line spell.  The two ends of the cut are boundaries: the number starts at a character of one byte,
and ends after digits. -/
theorem number_eq {text : List Char} (hlen : (encodeChars text).length < 9223372036854775808) :
    number text = match Input.word? text with
      | some v => pure v
      | none => fail (.badInput (String.ofList text)) := by
  rcases findNumber_encodeChars [] text hlen with
    ⟨hnone, hfind⟩ | ⟨skipped, rest, rfl, hbegins, hvalue, hfind⟩
  · have hword : Input.word? text = none := by rw [Input.word?, hnone]
    change findNumber (encodeChars text) 0 (encodeChars text).length = pure none at hfind
    rw [number, hfind, pure_bind, hword]
  · cases rest with
    | nil => exact hbegins.elim
    | cons c cs =>
      have hword : Input.word? (skipped ++ c :: cs) = Input.word? (c :: cs) := by
        rw [Input.word?, hvalue, Input.word?]
      obtain ⟨b, hbytes, -⟩ := utf8EncodeChar_of_begins hbegins
      have hsplit : encodeChars (skipped ++ c :: cs)
          = (encodeChars skipped ++ [b]) ++ encodeChars cs := by simp [hbytes]
      have htail : slice (encodeChars (skipped ++ c :: cs)) ((encodeChars skipped).length + 1)
          (encodeChars (skipped ++ c :: cs)).length = pure (encodeChars cs) := by
        have hsecond : (encodeChars skipped ++ [b]).length = (encodeChars skipped).length + 1 :=
          List.length_append
        rw [hsplit, ← hsecond]
        exact slice_append _ _
      -- the part that is cut out is the first character and the digits after it
      have hcut := cut_encodeChars skipped (c :: cs.takeWhile Char.isDigit)
        (cs.dropWhile Char.isDigit)
      rw [List.cons_append, List.takeWhile_append_dropWhile] at hcut
      have hstop : (encodeChars skipped).length + 1
            + ((encodeChars cs).takeWhile isDigit).length
          = (encodeChars skipped).length
            + (encodeChars (c :: cs.takeWhile Char.isDigit)).length := by
        rw [takeWhile_encodeChars, encodeChars_cons, hbytes, List.length_append]
        exact Nat.add_assoc _ _ _
      have hdigits : ((encodeChars cs).takeWhile isDigit).length ≤ (encodeChars cs).length :=
        (List.takeWhile_sublist _).length_le
      rw [hsplit] at hlen
      simp only [List.length_append, List.length_singleton] at hlen
      change findNumber (encodeChars (skipped ++ c :: cs)) 0 _
        = pure (some (encodeChars skipped).length) at hfind
      rw [number, hfind, pure_bind]
      dsimp only
      rw [sum_of_lt (by omega), pure_bind, htail, pure_bind, sum_of_lt (by omega), pure_bind, hstop,
        hcut, pure_bind, parse?_of_begins hbegins, hword]

end Machine.Guarded
end MJ
