import MJ.Listing
import MJ.Proofs.Encoding

/-!
# Object files

An image is read back from the file it was written to, and the file from the image that was read
from it.  An image that was read from a file has segments of the sizes that its header tells, so its
static segment is made of whole words and can be listed.

## Main definitions

* `Image.Consistent` — the header tells the sizes of the segments.
* `Image.announced` — the length that the header at the front of a file announces.

## Main results

* `BigEndian.bytes_value` — writing a number that was read gives the bytes it was read from.
* `Header.parse_eq_ok`, `Image.parse_eq_ok` — what can be read from a file.
* `Image.parse_eq_error` — why nothing can be read from it.
* `Image.file_roundTrip` — **object files round-trip.**
-/

namespace MJ

namespace BigEndian

/-- Bytes denote a number below their capacity.  The induction takes bytes off at the end, as
numbers are written. -/
theorem value_lt {bs : List UInt8} {k : Nat} (h : bs.length = k) : value bs < capacity k := by
  induction k generalizing bs with
  | zero =>
    rw [List.length_eq_zero_iff.mp h]
    decide
  | succ k ih =>
    obtain ⟨cs, b, rfl⟩ := (List.eq_nil_or_concat bs).resolve_left (by rintro rfl; cases h)
    have hcs := ih (by simpa using h)
    have hb := b.toNat_lt
    rw [List.concat_eq_append, value_concat, capacity]
    omega

/-- Reading bytes and writing the number back gives the bytes.  They have to be as many as are
written, since leading zeros are bytes as well. -/
theorem bytes_value {bs : List UInt8} {k : Nat} (h : bs.length = k) : bytes k (value bs) = bs := by
  induction k generalizing bs with
  | zero => rw [List.length_eq_zero_iff.mp h, bytes]
  | succ k ih =>
    obtain ⟨cs, b, rfl⟩ := (List.eq_nil_or_concat bs).resolve_left (by rintro rfl; cases h)
    have hb := b.toNat_lt
    have hlow : UInt8.ofNat (256 * value cs + b.toNat) = b := by
      apply UInt8.toNat_inj.mp
      rw [UInt8.toNat_ofNat']
      omega
    have hhigh : (256 * value cs + b.toNat) / 256 = value cs := by omega
    rw [List.concat_eq_append, value_concat, bytes, hhigh, hlow, ih (by simpa using h)]

end BigEndian

namespace Header

/-! ### Headers -/

/-- A number of the header is the one in its bytes, which always fits, as there are four of them. -/
theorem toNat_field {bs : List UInt8} {start : Nat} (h : start + 4 ≤ bs.length) :
    (field bs start).toNat = BigEndian.value ((bs.drop start).take 4) := by
  have hlength : ((bs.drop start).take 4).length = 4 := by
    rw [List.length_take, List.length_drop]
    omega
  exact UInt32.toNat_ofNat_of_lt' (BigEndian.value_lt hlength)

/-- A number of the header that is written back gives the bytes it was read from. -/
theorem bytes_field {bs : List UInt8} {start : Nat} (h : start + 4 ≤ bs.length) :
    BigEndian.bytes 4 (field bs start).toNat = (bs.drop start).take 4 := by
  rw [toNat_field h]
  apply BigEndian.bytes_value
  rw [List.length_take, List.length_drop]
  omega

/-- A number of the header is read back from the bytes it was written to, wherever in the file they
are. -/
theorem field_append (before after : List UInt8) (n : UInt32) {start : Nat}
    (h : before.length = start) :
    field (before ++ (BigEndian.bytes 4 n.toNat ++ after)) start = n := by
  have hbytes : ((before ++ (BigEndian.bytes 4 n.toNat ++ after)).drop start).take 4
      = BigEndian.bytes 4 n.toNat := by
    rw [← h, List.drop_left, List.take_left' (BigEndian.length_bytes 4 _)]
  rw [field, hbytes, BigEndian.value_bytes, show BigEndian.capacity 4 = UInt32.size from rfl,
    Nat.mod_eq_of_lt n.toNat_lt, UInt32.ofNat_toNat]

@[simp] theorem length_bytes (h : Header) : h.bytes.length = headerSize := by
  simp [bytes, headerSize]

theorem parse_of_lt {bs : List UInt8} (h : bs.length < headerSize) :
    parse bs = .error (.shortHeader bs.length) := by
  unfold parse
  rw [if_pos h]

/-- The first two bytes of a file that is long enough. -/
theorem exists_magic {bs : List UInt8} (h : headerSize ≤ bs.length) :
    ∃ first second tail, bs = first :: second :: tail := by
  match bs, h with
  | first :: second :: tail, _ => exact ⟨first, second, tail, rfl⟩

/-- What is read from a file that is long enough for a header.  The parser matches on the two
letters; here this is a condition, which the later proofs can decide. -/
theorem parse_cons {first second : UInt8} {tail bs : List UInt8}
    (hbs : bs = first :: second :: tail) (h : headerSize ≤ bs.length) :
    parse bs = if first = 0x4d ∧ second = 0x4a then .ok ⟨field bs 2, field bs 6, field bs 10⟩
      else .error (.badMagic first second) := by
  unfold parse
  rw [if_neg (Nat.not_lt.mpr h)]
  subst hbs
  split
  · rename_i heq
    cases heq
    rw [if_pos ⟨rfl, rfl⟩]
  · rename_i hmagic heq
    obtain ⟨rfl, rfl, rfl⟩ : first = _ ∧ second = _ ∧ tail = _ := by simpa using heq
    rw [if_neg]
    rintro ⟨rfl, rfl⟩
    exact hmagic rfl rfl
  · rename_i hshort
    exact absurd rfl (hshort first second tail)

/-- Why no header can be read from a file.  The length is looked at first, so that a short file is
never said to begin with the wrong letters. -/
theorem parse_eq_error {bs : List UInt8} {e : ImageError} :
    parse bs = .error e ↔
      (bs.length < headerSize ∧ e = .shortHeader bs.length) ∨
        (headerSize ≤ bs.length ∧ ∃ first second, bs.take 2 = [first, second] ∧
          [first, second] ≠ [0x4d, 0x4a] ∧ e = .badMagic first second) := by
  by_cases hshort : bs.length < headerSize
  · rw [parse_of_lt hshort]
    constructor
    · intro h
      exact Or.inl ⟨hshort, (Except.error.inj h).symm⟩
    · rintro (⟨-, rfl⟩ | ⟨hlong, -⟩)
      · rfl
      · exact absurd hshort (Nat.not_lt.mpr hlong)
  · have hlong := Nat.le_of_not_lt hshort
    obtain ⟨first, second, tail, hbs⟩ := exists_magic hlong
    have htake : bs.take 2 = [first, second] := by rw [hbs]; rfl
    rw [parse_cons hbs hlong]
    -- the file is long enough, so that only its letters can be wrong
    split
    · rename_i hmagic
      constructor
      · intro h
        cases h
      · rintro (⟨h, -⟩ | ⟨-, a, b, hab, hne, -⟩)
        · exact absurd h hshort
        · rw [htake, hmagic.1, hmagic.2] at hab
          exact absurd hab.symm hne
    · rename_i hmagic
      constructor
      · intro h
        refine Or.inr ⟨hlong, first, second, htake, fun h' => hmagic ?_, (Except.error.inj h).symm⟩
        simpa using h'
      · rintro (⟨h, -⟩ | ⟨-, a, b, hab, -, rfl⟩)
        · exact absurd h hshort
        · rw [htake] at hab
          cases hab
          rfl

/-- A header is read from every file that is long enough and begins with the two letters. -/
theorem parse_of_magic {bs : List UInt8} (hlong : headerSize ≤ bs.length)
    (hmagic : bs.take 2 = [0x4d, 0x4a]) :
    parse bs = .ok ⟨field bs 2, field bs 6, field bs 10⟩ := by
  obtain ⟨first, second, tail, hbs⟩ := exists_magic hlong
  have hfirst : [first, second] = [0x4d, 0x4a] := by rw [← hmagic, hbs]; rfl
  rw [parse_cons hbs hlong, if_pos (by simpa using hfirst)]

/-- What a header that is read from a file says of the file. -/
theorem eq_of_parse {bs : List UInt8} {h : Header} (hparse : parse bs = .ok h) :
    headerSize ≤ bs.length ∧ bs.take 2 = [0x4d, 0x4a] ∧
      h = ⟨field bs 2, field bs 6, field bs 10⟩ := by
  have hlong : headerSize ≤ bs.length := by
    refine Nat.le_of_not_lt fun hshort => ?_
    rw [parse_of_lt hshort] at hparse
    cases hparse
  obtain ⟨first, second, tail, hbs⟩ := exists_magic hlong
  rw [parse_cons hbs hlong] at hparse
  split at hparse
  · rename_i hmagic
    refine ⟨hlong, ?_, (Except.ok.inj hparse).symm⟩
    rw [hbs, hmagic.1, hmagic.2]
    rfl
  · cases hparse

/-- A header is read from a file just if the file begins with it. -/
theorem parse_eq_ok {bs : List UInt8} {h : Header} :
    parse bs = .ok h ↔ ∃ rest, bs = h.bytes ++ rest := by
  constructor
  · intro hparse
    obtain ⟨hlong, hmagic, rfl⟩ := eq_of_parse hparse
    have hlength : 14 ≤ bs.length := hlong
    refine ⟨bs.drop headerSize, ?_⟩
    rw [bytes, bytes_field (by omega), bytes_field (by omega), bytes_field (by omega), ← hmagic,
      ← List.take_add, ← List.take_add, ← List.take_add]
    exact (List.take_append_drop 14 bs).symm
  · -- the three numbers are found again at their places
    rintro ⟨rest, rfl⟩
    have hlong : headerSize ≤ (h.bytes ++ rest).length := by simp
    have hcode : field (h.bytes ++ rest) 2 = h.codeSize := by
      rw [bytes, List.append_assoc, List.append_assoc, List.append_assoc]
      exact field_append [0x4d, 0x4a] _ h.codeSize rfl
    have hdata : field (h.bytes ++ rest) 6 = h.dataWords := by
      rw [bytes, List.append_assoc, List.append_assoc]
      exact field_append _ _ h.dataWords (by simp)
    have hstart : field (h.bytes ++ rest) 10 = h.startPc := by
      rw [bytes, List.append_assoc]
      exact field_append _ _ h.startPc (by simp)
    have hmagic : h.bytes ++ rest = 0x4d :: 0x4a :: (h.bytes ++ rest).drop 2 := by simp [bytes]
    rw [parse_cons hmagic hlong, if_pos ⟨rfl, rfl⟩, hcode, hdata, hstart]

end Header

namespace Image

/-! ### Images -/

/-- The header tells the sizes of the segments.  An image that was put together by hand need not be
so, and its file would be read back as another image. -/
structure Consistent (image : Image) : Prop where
  code : image.code.length = image.header.codeSize.toNat
  data : image.data.length = 4 * image.header.dataWords.toNat

/-- The length that the header at the front of a file announces. -/
def announced (bs : List UInt8) : Nat :=
  headerSize + BigEndian.value ((bs.drop 2).take 4) + 4 * BigEndian.value ((bs.drop 6).take 4)

/-- A header announces what it tells of the segments: the code in bytes, and the static data in
words. -/
theorem announced_of_parse {bs : List UInt8} {h : Header} (hparse : Header.parse bs = .ok h) :
    announced bs = headerSize + h.codeSize.toNat + 4 * h.dataWords.toNat := by
  obtain ⟨hlong, -, rfl⟩ := Header.eq_of_parse hparse
  have hlength : 14 ≤ bs.length := hlong
  rw [announced, Header.toNat_field (by omega), Header.toNat_field (by omega)]

/-- The segments are read after the header, if the file is as long as it announces.  What the file
has beyond that is not looked at. -/
theorem parse_of_header {bs : List UInt8} {h : Header} (hparse : Header.parse bs = .ok h) :
    parse bs = if bs.length < announced bs then .error (.shortSegments (announced bs) bs.length)
      else .ok ⟨h, (bs.drop headerSize).take h.codeSize.toNat,
        ((bs.drop headerSize).drop h.codeSize.toNat).take (4 * h.dataWords.toNat)⟩ := by
  rw [announced_of_parse hparse, Nat.mul_comm 4]
  unfold parse
  rw [hparse]
  rfl

theorem parse_of_header_error {bs : List UInt8} {e : ImageError}
    (hparse : Header.parse bs = .error e) : parse bs = .error e := by
  unfold parse
  rw [hparse]
  rfl

/-- An image is read from a file just if the file begins with it and its header tells the sizes of
its segments. -/
theorem parse_eq_ok {bs : List UInt8} {image : Image} :
    parse bs = .ok image ↔ image.Consistent ∧ ∃ rest, bs = image.bytes ++ rest := by
  constructor
  · intro hparse
    cases hheader : Header.parse bs with
    | error e =>
      rw [parse_of_header_error hheader] at hparse
      cases hparse
    | ok h =>
      rw [parse_of_header hheader] at hparse
      split at hparse
      · cases hparse
      · rename_i hlong
        cases hparse
        -- the file is cut behind the header, behind the code and behind the static data
        rw [announced_of_parse hheader] at hlong
        obtain ⟨rest, rfl⟩ := Header.parse_eq_ok.mp hheader
        have hdrop : (h.bytes ++ rest).drop headerSize = rest := List.drop_left' h.length_bytes
        rw [List.length_append, h.length_bytes] at hlong
        rw [hdrop]
        refine ⟨⟨?_, ?_⟩, (rest.drop h.codeSize.toNat).drop (4 * h.dataWords.toNat), ?_⟩
        · exact List.length_take_of_le (by omega)
        · exact List.length_take_of_le (by rw [List.length_drop]; omega)
        · rw [bytes, List.append_assoc, List.append_assoc, List.take_append_drop,
            List.take_append_drop]
  · rintro ⟨⟨hcode, hdata⟩, rest, rfl⟩
    have hbytes : image.bytes ++ rest
        = image.header.bytes ++ (image.code ++ (image.data ++ rest)) := by
      rw [bytes, List.append_assoc, List.append_assoc]
    have hheader : Header.parse (image.bytes ++ rest) = .ok image.header :=
      Header.parse_eq_ok.mpr ⟨_, hbytes⟩
    have hlong : ¬ (image.bytes ++ rest).length < announced (image.bytes ++ rest) := by
      rw [announced_of_parse hheader, hbytes, List.length_append, List.length_append,
        List.length_append, Header.length_bytes]
      omega
    rw [parse_of_header hheader, if_neg hlong, hbytes, List.drop_left' (Header.length_bytes _),
      List.take_left' hcode, List.drop_left' hcode, List.take_left' hdata]

/-- Why no image can be read from a file, in the order in which it is looked at. -/
theorem parse_eq_error {bs : List UInt8} {e : ImageError} :
    parse bs = .error e ↔
      (bs.length < headerSize ∧ e = .shortHeader bs.length) ∨
        (headerSize ≤ bs.length ∧ ∃ first second, bs.take 2 = [first, second] ∧
          [first, second] ≠ [0x4d, 0x4a] ∧ e = .badMagic first second) ∨
        (headerSize ≤ bs.length ∧ bs.take 2 = [0x4d, 0x4a] ∧ bs.length < announced bs ∧
          e = .shortSegments (announced bs) bs.length) := by
  constructor
  · intro hparse
    cases hheader : Header.parse bs with
    | error e' =>
      rw [parse_of_header_error hheader] at hparse
      cases hparse
      rcases Header.parse_eq_error.mp hheader with hshort | hmagic
      · exact Or.inl hshort
      · exact Or.inr (Or.inl hmagic)
    | ok h =>
      -- with a header only the segments can be missing, in part or whole
      obtain ⟨hlong, hmagic, -⟩ := Header.eq_of_parse hheader
      rw [parse_of_header hheader] at hparse
      split at hparse
      · rename_i hshort
        exact Or.inr (Or.inr ⟨hlong, hmagic, hshort, (Except.error.inj hparse).symm⟩)
      · cases hparse
  · rintro (hshort | hmagic | ⟨hlong, hmagic, hshort, rfl⟩)
    · exact parse_of_header_error (Header.parse_eq_error.mpr (Or.inl hshort))
    · exact parse_of_header_error (Header.parse_eq_error.mpr (Or.inr hmagic))
    · rw [parse_of_header (Header.parse_of_magic hlong hmagic), if_pos hshort]

/-- The image of segments whose sizes fit the header is consistent.  The number of words is rounded
down, so that the static data has to be made of whole words. -/
theorem consistent_ofSegments {code data : List UInt8} (startPc : UInt32)
    (hcode : code.length < UInt32.size) (hwords : data.length % wordSize = 0)
    (hdata : data.length / wordSize < UInt32.size) :
    (ofSegments code data startPc).Consistent := by
  have hmul : 4 * (data.length / wordSize) = data.length :=
    Nat.mul_div_cancel' (Nat.dvd_of_mod_eq_zero hwords)
  refine ⟨?_, ?_⟩
  · exact (UInt32.toNat_ofNat_of_lt' hcode).symm
  · change data.length = 4 * (UInt32.ofNat (data.length / wordSize)).toNat
    rw [UInt32.toNat_ofNat_of_lt' hdata, hmul]

theorem length_bytes {image : Image} (h : image.Consistent) :
    image.bytes.length
      = headerSize + image.header.codeSize.toNat + 4 * image.header.dataWords.toNat := by
  rw [bytes, List.length_append, List.length_append, Header.length_bytes, h.code, h.data]

end Image

namespace Listing

/-! ### Listings -/

/-- A segment of whole words has a line for each of them, and none is left over that could not be
listed. -/
theorem isSome_dataLines {data : List UInt8} {words : Nat} (h : data.length = 4 * words)
    (word : Nat) : (dataLines word data).isSome = true := by
  induction words generalizing data word with
  | zero =>
    rw [List.length_eq_zero_iff.mp h]
    rfl
  | succ n ih =>
    match data, h with
    | a :: b :: c :: d :: rest, h =>
      have hrest : rest.length = 4 * n := by
        simp only [List.length_cons] at h
        omega
      obtain ⟨lines, hlines⟩ := Option.isSome_iff_exists.mp (ih hrest (word + 1))
      rw [dataLines, hlines]
      rfl

/-- A consistent image can be listed if its code can be decoded.  The static data is no obstacle,
since it is made of whole words. -/
theorem ofImage_cases {image : Image} (h : image.Consistent) (labels? : Option LabelMap) :
    (∃ text, ofImage image labels? = .ok text) ∨
      ∃ cause, Code.decode image.code = .error cause ∧
        ofImage image labels? = .error (.badCode cause) := by
  have hsection : ∃ statics, dataSection image.data = some statics := by
    unfold dataSection
    split
    · exact ⟨_, rfl⟩
    · obtain ⟨lines, hlines⟩ := Option.isSome_iff_exists.mp (isSome_dataLines h.data 0)
      exact ⟨_, by rw [hlines]; rfl⟩
  obtain ⟨statics, hstatics⟩ := hsection
  cases hcode : Code.decode image.code with
  | error cause =>
    refine Or.inr ⟨cause, rfl, ?_⟩
    unfold ofImage
    rw [hcode]
  | ok code =>
    refine Or.inl ?_
    unfold ofImage
    rw [hcode]
    dsimp only
    rw [hstatics]
    exact ⟨_, rfl⟩

end Listing

/-- **Object files round-trip.**  An image of segments whose sizes fit the header is read back from
its file, whatever follows.  An image that is read from a file has segments of the sizes that its
header tells, its file is the part of the given file that the header announces, and it can be listed
unless its code cannot be decoded.  No image can be read exactly if the file is shorter than a
header, or else does not begin with the two letters, or else is shorter than its header announces.
-/
theorem Image.file_roundTrip :
    (∀ code data startPc rest, code.length < UInt32.size → data.length % 4 = 0 →
      data.length / 4 < UInt32.size → ∃ image, Image.ofSegments? code data startPc = .ok image ∧
        image.code = code ∧ image.data = data ∧ image.header.startPc = startPc ∧
        Image.parse (image.bytes ++ rest) = .ok image) ∧
    (∀ bs image, Image.parse bs = .ok image →
      image.code.length = image.header.codeSize.toNat ∧
      image.data.length = 4 * image.header.dataWords.toNat ∧
      image.bytes <+: bs ∧ image.bytes.length
        = 14 + image.header.codeSize.toNat + 4 * image.header.dataWords.toNat ∧
      ∀ labels?, (∃ text, Listing.ofImage image labels? = .ok text) ∨
        ∃ cause, Code.decode image.code = .error cause ∧
          Listing.ofImage image labels? = .error (.badCode cause)) ∧
    ∀ bs e, Image.parse bs = .error e ↔
      (bs.length < 14 ∧ e = .shortHeader bs.length) ∨
      (14 ≤ bs.length ∧ ∃ first second, bs.take 2 = [first, second] ∧
        [first, second] ≠ [0x4d, 0x4a] ∧ e = .badMagic first second) ∨
      (14 ≤ bs.length ∧ bs.take 2 = [0x4d, 0x4a] ∧ bs.length < Image.announced bs ∧
        e = .shortSegments (Image.announced bs) bs.length) := by
  refine ⟨?_, ?_, fun bs e => Image.parse_eq_error⟩
  · intro code data startPc rest hcode hwords hdata
    have hconsistent := Image.consistent_ofSegments startPc hcode hwords hdata
    refine ⟨.ofSegments code data startPc, ?_, rfl, rfl, rfl, ?_⟩
    · exact if_pos hwords
    · exact Image.parse_eq_ok.mpr ⟨hconsistent, rest, rfl⟩
  · intro bs image hparse
    obtain ⟨hconsistent, rest, rfl⟩ := Image.parse_eq_ok.mp hparse
    exact ⟨hconsistent.code, hconsistent.data, List.prefix_append _ _,
      Image.length_bytes hconsistent, Listing.ofImage_cases hconsistent⟩

/-- An image with a word of static data is read from a file that goes on after it and has a listing;
a file that ends within the static data is too short. -/
theorem Image.file_roundTrip_one_word :
    (∃ image, Image.ofSegments? [48, 0, 0, 49, 47] [0, 0, 0, 7] 0 = .ok image ∧
      Image.parse (image.bytes ++ [255]) = .ok image ∧ image.bytes.length = 23 ∧
      ∃ text, Listing.ofImage image none = .ok text) ∧
    Image.parse [77, 74, 0, 0, 0, 5, 0, 0, 0, 1, 0, 0, 0, 0, 48, 0, 0, 49, 47, 0, 0, 0]
      = .error (.shortSegments 23 22) := by
  obtain ⟨hwrite, hread, hfail⟩ := Image.file_roundTrip
  obtain ⟨image, himage, hcode, hdata, -, hparse⟩ := hwrite [48, 0, 0, 49, 47] [0, 0, 0, 7] 0 [255]
    (by decide) (by decide) (by decide)
  obtain ⟨hcodeSize, hdataSize, -, hlength, hlisting⟩ := hread _ image hparse
  rw [hcode] at hcodeSize
  rw [hdata] at hdataSize
  refine ⟨⟨image, himage, hparse, ?_, ?_⟩, ?_⟩
  · rw [hlength, ← hcodeSize, ← hdataSize]
    rfl
  · rcases hlisting none with htext | ⟨cause, hcause, -⟩
    · exact htext
    · have hdecode : Code.decode [48, 0, 0, 49, 47]
          = .ok (Code.locate 0 [.enter 0 0, .exit, .ret]) :=
        Code.decodeFrom_ofInstructions [.enter 0 0, .exit, .ret] 0
      rw [hcode, hdecode] at hcause
      cases hcause
  · exact (hfail _ _).mpr (Or.inr (Or.inr ⟨by decide, by decide, by decide, by decide⟩))

end MJ
