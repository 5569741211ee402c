import Dwo.Proofs.Token.Characters
import Mathlib

/-!
# Bytes and characters

A scanner looks at bytes. It moves one byte at a time, and a byte that continues a character
takes no column. Here positions and texts are compared byte by byte and character by character;
what follows for whole tokens is in `Dwo.Proofs.Token.Scanning`.

Two facts about UTF-8 are behind this. Every byte of a character that is not ASCII is at least
`0x80`, and all but the first are of the form `10xxxxxx`. So moving over the bytes of a
character is moving over the character (`Cursor.overBytes_utf8EncodeChar`), and a class of bytes
tells the same about each byte of a character, namely what a class of characters tells about it
(`Refines`).

By `c.IsAt source left`, the position `c` is between two characters of `source`, and the text
behind it is `left`. From such a position:

* the bytes that are left are those of `left` (`Cursor.IsAt.bytesFrom_eq`);
* moving over a character leads to such a position again (`Cursor.IsAt.advance`,
  `Cursor.IsAt.bump_eq`);
* moving on while bytes are in a class is moving on while characters are
  (`Cursor.IsAt.bumpWhile_eq`);
* the slice between two such positions is the text between them (`Cursor.IsAt.slice?_eq`), so
  cutting it never fails.
-/

namespace Dwo

/-! ### The bytes of a character -/

/-- An ASCII character is one byte, and the bytes of any other are at least `0x80`. The first byte
is never of the form `10xxxxxx`, and the others are. -/
theorem utf8EncodeChar_cases (ch : Char) :
    (ch.toNat < 0x80 ∧ String.utf8EncodeChar ch = [ch.toUInt8]) ∨
      (0x80 ≤ ch.toNat ∧ ∃ first rest, String.utf8EncodeChar ch = first :: rest ∧
        0xc0 ≤ first.toNat ∧ ∀ b ∈ rest, 0x80 ≤ b.toNat ∧ b.toNat < 0xc0) := by
  have hbyte (n m k : ℕ) (h : n % m + k < 0x100) :
      (UInt8.ofNat (n % m + k)).toNat = n % m + k := by
    rw [UInt8.toNat_ofNat', Nat.mod_eq_of_lt h]
  have hfirst (n m k : ℕ) (hk : 0xc0 ≤ k) (h : n % m + k < 0x100) :
      0xc0 ≤ (UInt8.ofNat (n % m + k)).toNat := by
    rw [hbyte _ _ _ h]
    omega
  have hrest (n : ℕ) : 0x80 ≤ (UInt8.ofNat (n % 0x40 + 0x80)).toNat ∧
      (UInt8.ofNat (n % 0x40 + 0x80)).toNat < 0xc0 := by
    rw [hbyte _ _ _ (by omega)]
    omega
  have hnat : ch.val.toNat = ch.toNat := rfl
  rw [String.utf8EncodeChar, hnat]
  split
  · exact .inl ⟨by omega, rfl⟩
  · refine .inr ⟨by omega, ?_⟩
    -- Two, three and four bytes: the first carries the length, all others have the same form.
    split
    · refine ⟨_, _, rfl, hfirst _ _ _ (by decide) (by omega), ?_⟩
      exact List.forall_mem_singleton.mpr (hrest _)
    · split
      · refine ⟨_, _, rfl, hfirst _ _ _ (by decide) (by omega), ?_⟩
        exact List.forall_mem_cons.mpr ⟨hrest _, List.forall_mem_singleton.mpr (hrest _)⟩
      · refine ⟨_, _, rfl, hfirst _ _ _ (by decide) (by omega), ?_⟩
        exact List.forall_mem_cons.mpr
          ⟨hrest _, List.forall_mem_cons.mpr ⟨hrest _, List.forall_mem_singleton.mpr (hrest _)⟩⟩

/-- Every character is written as at least one byte, so a nonempty text has a first byte. -/
theorem exists_utf8EncodeChar_eq_cons (ch : Char) :
    ∃ first rest, String.utf8EncodeChar ch = first :: rest := by
  rcases utf8EncodeChar_cases ch with ⟨-, h⟩ | ⟨-, first, rest, h, -⟩
  · exact ⟨_, _, h⟩
  · exact ⟨_, _, h⟩

/-- The bytes of a character are at least `0x80`, unless it is ASCII. -/
theorem le_toNat_of_mem_utf8EncodeChar {ch : Char} (h : 0x80 ≤ ch.toNat) {b : UInt8}
    (hb : b ∈ String.utf8EncodeChar ch) : 0x80 ≤ b.toNat := by
  rcases utf8EncodeChar_cases ch with ⟨hlt, -⟩ | ⟨-, first, rest, hbytes, hfirst, hrest⟩
  · omega
  · rw [hbytes] at hb
    rcases List.mem_cons.mp hb with rfl | hb
    · omega
    · exact (hrest b hb).1

private theorem toNat_toUInt8 {ch : Char} (h : ch.toNat < 0x80) : ch.toUInt8.toNat = ch.toNat := by
  change ch.toNat % 0x100 = ch.toNat
  omega

/-- An ASCII character can be told from each of the bytes of a character. -/
theorem eq_toUInt8_iff {k : Char} (hk : k.toNat < 0x80) {ch : Char} {b : UInt8}
    (hb : b ∈ String.utf8EncodeChar ch) : b = k.toUInt8 ↔ ch = k := by
  rcases utf8EncodeChar_cases ch with ⟨hch, hbytes⟩ | ⟨hch, -⟩
  · rw [hbytes, List.mem_singleton] at hb
    rw [hb, ← UInt8.toNat_inj, toNat_toUInt8 hch, toNat_toUInt8 hk, Char.toNat_inj]
  · have hle := le_toNat_of_mem_utf8EncodeChar hch hb
    constructor
    · rintro rfl
      rw [toNat_toUInt8 hk] at hle
      omega
    · rintro rfl
      omega

/-- The bytes of the form `10xxxxxx` are those that continue a character. -/
theorem and_eq_iff (b : UInt8) : b &&& 0xc0 = 0x80 ↔ 0x80 ≤ b.toNat ∧ b.toNat < 0xc0 := by
  have hall : ∀ n < 0x100, UInt8.ofNat n &&& 0xc0 = 0x80 ↔ 0x80 ≤ n ∧ n < 0xc0 := by
    decide +kernel
  have hb := hall b.toNat b.toNat_lt
  rwa [UInt8.ofNat_toNat] at hb

/-! ### Moving over the bytes of a character -/

/-- The bytes of a text. -/
def encode (text : List Char) : List UInt8 :=
  text.flatMap String.utf8EncodeChar

@[simp]
theorem encode_nil : encode [] = [] := rfl

@[simp]
theorem encode_cons (ch : Char) (text : List Char) :
    encode (ch :: text) = String.utf8EncodeChar ch ++ encode text := rfl

/-- Encoding works character by character, so it commutes with cutting a text in two. -/
@[simp]
theorem encode_append (s t : List Char) : encode (s ++ t) = encode s ++ encode t :=
  List.flatMap_append

/-- The encoding has as many bytes as the text is long in UTF-8, so offsets count bytes of
it. -/
private theorem length_encode (text : List Char) :
    (encode text).length = (String.ofList text).utf8ByteSize := by
  rw [← String.size_toByteArray, String.toByteArray_ofList, List.utf8Encode,
    List.size_toByteArray]
  rfl

namespace Cursor

/-- The position after some bytes. -/
def overBytes (c : Cursor) (bytes : List UInt8) : Cursor :=
  bytes.foldl overByte c

@[simp]
theorem overBytes_nil (c : Cursor) : c.overBytes [] = c := rfl

@[simp]
theorem overBytes_cons (c : Cursor) (b : UInt8) (bytes : List UInt8) :
    c.overBytes (b :: bytes) = (c.overByte b).overBytes bytes := rfl

@[simp]
theorem overBytes_append (c : Cursor) (s t : List UInt8) :
    c.overBytes (s ++ t) = (c.overBytes s).overBytes t :=
  List.foldl_append

private theorem offset_overBytes (c : Cursor) (bytes : List UInt8) :
    (c.overBytes bytes).offset = c.offset + bytes.length := by
  induction bytes generalizing c with
  | nil => rfl
  | cons b bytes ih =>
    rw [overBytes_cons, ih, offset_overByte, List.length_cons, Nat.add_right_comm, Nat.add_assoc]

/-- Bytes that continue a character take no column. -/
theorem overBytes_of_continuing (c : Cursor) {bytes : List UInt8}
    (h : ∀ b ∈ bytes, 0x80 ≤ b.toNat ∧ b.toNat < 0xc0) :
    c.overBytes bytes = ⟨c.offset + bytes.length, c.row, c.column⟩ := by
  induction bytes generalizing c with
  | nil => rfl
  | cons b bytes ih =>
    obtain ⟨hb, hbytes⟩ := List.forall_mem_cons.mp h
    have hline : b ≠ '\n'.toUInt8 := by
      rintro rfl
      exact absurd hb.1 (by decide)
    have hbyte : c.overByte b = ⟨c.offset + 1, c.row, c.column⟩ := by
      rw [overByte, if_neg hline, if_neg (not_not.mpr ((and_eq_iff b).mpr hb))]
    rw [overBytes_cons, ih _ hbytes, hbyte, List.length_cons, Nat.add_right_comm, Nat.add_assoc]

/-- **Moving over the bytes of a character is moving over the character.** -/
theorem overBytes_utf8EncodeChar (c : Cursor) (ch : Char) :
    c.overBytes (String.utf8EncodeChar ch) = c.advance ch := by
  have hlength := String.length_utf8EncodeChar ch
  rcases utf8EncodeChar_cases ch with ⟨hch, hbytes⟩ | ⟨hch, first, rest, hbytes, hfirst, hrest⟩
  · have hline : ch.toUInt8 = '\n'.toUInt8 ↔ ch = '\n' :=
      eq_toUInt8_iff (by decide) (by rw [hbytes]; exact List.mem_singleton_self _)
    have hplain : ch.toUInt8 &&& 0xc0 ≠ 0x80 := by
      rw [Ne, and_eq_iff, toNat_toUInt8 hch]
      omega
    rw [hbytes] at hlength ⊢
    rw [overBytes_cons, overBytes_nil, overByte, advance, ← hlength, if_pos hplain]
    simp only [hline, List.length_singleton]
  · have hline : ch ≠ '\n' := by
      rintro rfl
      exact absurd hch (by decide)
    have hfirst' : first ≠ '\n'.toUInt8 := by
      rintro rfl
      exact absurd hfirst (by decide)
    have hlead : first &&& 0xc0 ≠ 0x80 := by
      rw [Ne, and_eq_iff]
      omega
    -- The first byte takes the column of the character, and the others take none.
    rw [hbytes, List.length_cons] at hlength
    rw [hbytes, overBytes_cons, overBytes_of_continuing _ hrest, overByte, if_neg hfirst',
      if_pos hlead, advance, if_neg hline, ← hlength, Nat.add_assoc, Nat.add_comm 1]

/-- Moving over the bytes of a text is moving over the text. -/
theorem overBytes_encode (c : Cursor) (text : List Char) :
    c.overBytes (encode text) = c.past text := by
  induction text generalizing c with
  | nil => rfl
  | cons ch text ih => rw [encode_cons, overBytes_append, overBytes_utf8EncodeChar, ih, past_cons]

end Cursor

/-! ### Classes of bytes and of characters -/

/-- What `p` tells about any byte of a character is what `q` tells about the character. -/
def Refines (p : UInt8 → Bool) (q : Char → Bool) : Prop :=
  ∀ ch, ∀ b ∈ String.utf8EncodeChar ch, p b = q ch

namespace Refines

variable {p : UInt8 → Bool} {q : Char → Bool}

/-- It suffices to look at the ASCII characters if there are no others in the class. -/
theorem of_ascii (hascii : ∀ n < 0x80, p (UInt8.ofNat n) = q (Char.ofNat n))
    (hbyte : ∀ n < 0x100, 0x80 ≤ n → p (UInt8.ofNat n) = false)
    (hchar : ∀ ch, q ch = true → ch.toNat < 0x80) : Refines p q := by
  intro ch b hb
  rcases utf8EncodeChar_cases ch with ⟨hch, hbytes⟩ | ⟨hch, -⟩
  · rw [hbytes, List.mem_singleton] at hb
    have hsame := hascii ch.toNat hch
    rw [Char.ofNat_toNat] at hsame
    rw [hb]
    exact hsame
  · have hp := hbyte b.toNat b.toNat_lt (le_toNat_of_mem_utf8EncodeChar hch hb)
    rw [UInt8.ofNat_toNat] at hp
    have hq : ¬q ch = true := fun h => absurd (hchar ch h) (Nat.not_lt.mpr hch)
    rw [hp, Bool.eq_false_iff.mpr hq]

/-- A class and its complement are refined alike: each byte decides as its character. -/
theorem not (h : Refines p q) : Refines (fun b => !p b) (fun ch => !q ch) :=
  fun ch b hb => congrArg Bool.not (h ch b hb)

/-- Comparing bytes with an ASCII character compares the characters with it, because no byte
of a longer character is below `0x80`. -/
theorem ne {k : Char} (hk : k.toNat < 0x80) : Refines (· != k.toUInt8) (· != k) := by
  intro ch b hb
  rw [Bool.eq_iff_iff, bne_iff_ne, bne_iff_ne, Ne, eq_toUInt8_iff hk hb]

/-- The first bytes of a class are the bytes of the first characters of a class. -/
theorem takeWhile_encode (h : Refines p q) (text : List Char) :
    (encode text).takeWhile p = encode (text.takeWhile q) := by
  induction text with
  | nil => rfl
  | cons ch text ih =>
    rw [encode_cons]
    cases hq : q ch with
    | true =>
      have hall : ∀ b ∈ String.utf8EncodeChar ch, p b = true := fun b hb => (h ch b hb).trans hq
      rw [List.takeWhile_append_of_pos hall, List.takeWhile_cons_of_pos hq, encode_cons, ih]
    | false =>
      -- The run ends with the first byte of the character; its other bytes are not looked at.
      obtain ⟨first, rest, hbytes⟩ := exists_utf8EncodeChar_eq_cons ch
      have hfirst : ¬p first = true := by
        rw [h ch first (by rw [hbytes]; exact List.mem_cons_self), hq]
        exact Bool.false_ne_true
      rw [hbytes, List.cons_append, List.takeWhile_cons_of_neg hfirst,
        List.takeWhile_cons_of_neg (by rw [hq]; exact Bool.false_ne_true), encode_nil]

end Refines

/-- White space is recognised byte by byte. -/
theorem refines_isBlank : Refines isBlankByte isBlank := by
  refine .of_ascii (by decide +kernel) (by decide +kernel) fun ch hch => ?_
  rcases isBlank_iff.mp hch with rfl | rfl | rfl | rfl | rfl | rfl <;> decide

private theorem toNat_lt_of_isAlphanum {ch : Char} (h : ch.isAlphanum = true) :
    ch.toNat < 0x80 := by
  have hlast : 'z'.val.toNat = 122 ∧ 'Z'.val.toNat = 90 ∧ '9'.val.toNat = 57 := by decide
  simp only [Char.isAlphanum, Char.isAlpha, Char.isUpper, Char.isLower, Char.isDigit,
    Bool.or_eq_true, Bool.and_eq_true, decide_eq_true_eq, ge_iff_le, UInt32.le_iff_toNat_le] at h
  change ch.val.toNat < 0x80
  omega

/-- The characters inside a word are recognised byte by byte. -/
theorem refines_isWordPart : Refines isWordByte isWordPart := by
  refine .of_ascii (by decide +kernel) (by decide +kernel) fun ch hch => ?_
  rw [isWordPart, Bool.or_eq_true, beq_iff_eq] at hch
  rcases hch with hch | rfl
  · exact toNat_lt_of_isAlphanum hch
  · decide

/-- A word does not start with a digit, and goes on with what it can start with. -/
theorem of_isWordStart {c : Char} (h : isWordStart c = true) :
    isWordPart c = true ∧ c.isDigit = false := by
  rw [isWordStart, Bool.or_eq_true, beq_iff_eq] at h
  rcases h with halpha | rfl
  · refine ⟨by simp [isWordPart, Char.isAlphanum, halpha], ?_⟩
    have hzero : '0'.val.toNat = 48 := rfl
    have hnine : '9'.val.toNat = 57 := rfl
    have hupper : 'A'.val.toNat = 65 := rfl
    have hlower : 'a'.val.toNat = 97 := rfl
    simp only [Char.isAlpha, Char.isUpper, Char.isLower, Bool.or_eq_true, Bool.and_eq_true,
      decide_eq_true_eq, ge_iff_le, UInt32.le_iff_toNat_le] at halpha
    simp only [Char.isDigit, Bool.and_eq_false_iff, decide_eq_false_iff_not, ge_iff_le,
      UInt32.le_iff_toNat_le]
    omega
  · decide

/-- The characters that start a word are recognised byte by byte. -/
theorem refines_isWordStart : Refines isWordStartByte isWordStart := by
  refine .of_ascii (by decide +kernel) (by decide +kernel) fun ch hch => ?_
  have hpart := (of_isWordStart hch).1
  rw [isWordPart, Bool.or_eq_true, beq_iff_eq] at hpart
  rcases hpart with hpart | rfl
  · exact toNat_lt_of_isAlphanum hpart
  · decide

/-- Digits are recognised byte by byte. -/
theorem refines_isDigit : Refines isDigitByte Char.isDigit := by
  refine .of_ascii (by decide +kernel) (by decide +kernel) fun ch hch => ?_
  refine toNat_lt_of_isAlphanum ?_
  rw [Char.isAlphanum, hch, Bool.or_true]

theorem toNat_lt_of_isPunctuation {ch : Char} (h : isPunctuation ch = true) :
    ch.toNat < 0x80 := by
  simp only [isPunctuation, Bool.and_eq_true, decide_eq_true_eq] at h
  have hlast : '~'.toNat = 126 := rfl
  have hle : ch.toNat ≤ '~'.toNat := h.1.2
  omega

/-- Punctuation marks are recognised byte by byte. -/
theorem refines_isPunctuation : Refines isPunctuationByte isPunctuation :=
  .of_ascii (by decide +kernel) (by decide +kernel) fun _ => toNat_lt_of_isPunctuation

/-! ### Bytes behind a position -/

/-- The bytes of a source text from a position on. -/
def bytesFrom (source : String) (offset : ℕ) : List UInt8 :=
  source.toByteArray.data.toList.drop offset

/-- Reading one byte is looking at the first of the bytes that are left. -/
theorem byteAt_eq_head? (source : String) (offset : ℕ) :
    byteAt source offset = (bytesFrom source offset).head? := by
  rw [bytesFrom, List.head?_drop, byteAt]
  split
  · next h =>
    rw [List.getElem?_eq_getElem (by simpa using h)]
    rfl
  · next h =>
    rw [List.getElem?_eq_none]
    simpa using h

variable {source : String} {c : Cursor}

/-- One byte step: the cursor goes over the first byte that is left, and the others stay. -/
theorem bump_of_bytesFrom {b : UInt8} {bytes : List UInt8}
    (h : bytesFrom source c.offset = b :: bytes) :
    c.bump source = c.overByte b ∧ bytesFrom source (c.overByte b).offset = bytes := by
  constructor
  · rw [Cursor.bump, byteAt_eq_head?, h]
    rfl
  · rw [Cursor.offset_overByte, bytesFrom, ← List.tail_drop, ← bytesFrom, h, List.tail_cons]

/-- Moving on while bytes are in a class goes over the longest run of such bytes. -/
private theorem bumpWhile_of_bytesFrom {bytes : List UInt8} (p : UInt8 → Bool)
    (h : bytesFrom source c.offset = bytes) :
    c.bumpWhile source p = c.overBytes (bytes.takeWhile p) := by
  induction bytes generalizing c with
  | nil =>
    have hnone : byteAt source c.offset = none := by
      rw [byteAt_eq_head?, h]
      rfl
    rw [Cursor.bumpWhile]
    split
    · next h' => cases hnone.symm.trans h'
    · rfl
  | cons b bytes ih =>
    have hsome : byteAt source c.offset = some b := by
      rw [byteAt_eq_head?, h]
      rfl
    obtain ⟨hbump, hbytes⟩ := bump_of_bytesFrom h
    rw [Cursor.bumpWhile]
    split
    · next b' h' =>
      cases hsome.symm.trans h'
      split
      · next hb => rw [hbump, ih hbytes, List.takeWhile_cons_of_pos hb, Cursor.overBytes_cons]
      · next hb => rw [List.takeWhile_cons_of_neg hb, Cursor.overBytes_nil]
    · next h' => cases hsome.symm.trans h'

/-! ### Positions between characters -/

/-- The bytes of a text that stands between two others. -/
theorem extract_toByteArray {source : String} {front text rest : List Char}
    (h : source.toList = front ++ (text ++ rest)) :
    source.toByteArray.extract (String.ofList front).utf8ByteSize
        ((String.ofList front).utf8ByteSize + (String.ofList text).utf8ByteSize) =
      (String.ofList text).toByteArray := by
  have hsource : source = String.ofList front ++ (String.ofList text ++ String.ofList rest) := by
    rw [← String.ofList_append, ← String.ofList_append, ← h, String.ofList_toList]
  have hskip (a b : ByteArray) (n : Nat) :
      (a ++ b).extract a.size (a.size + n) = b.extract 0 n := by
    have hextract := ByteArray.extract_append_size_add (a := a) (b := b) (i := 0) (j := n)
    rwa [Nat.add_zero] at hextract
  rw [hsource, String.toByteArray_append, String.toByteArray_append, ← String.size_toByteArray,
    ← String.size_toByteArray, hskip, ByteArray.extract_append_eq_left rfl]

/-- The position `c` is between two characters of `source`, in front of `left`. -/
def Cursor.IsAt (c : Cursor) (source : String) (left : List Char) : Prop :=
  ∃ front, source.toList = front ++ left ∧ c.offset = (String.ofList front).utf8ByteSize

namespace Cursor

/-- Moving over a text counts its bytes. -/
theorem offset_past (c : Cursor) (text : List Char) :
    (c.past text).offset = c.offset + (String.ofList text).utf8ByteSize := by
  rw [← overBytes_encode, offset_overBytes, length_encode]

namespace IsAt

variable {ch : Char} {left : List Char}

/-- Moving over a text that is behind a position. -/
theorem past {taken : List Char} (h : c.IsAt source (taken ++ left)) :
    (c.past taken).IsAt source left := by
  obtain ⟨front, hsource, hoffset⟩ := h
  refine ⟨front ++ taken, ?_, ?_⟩
  · rw [hsource, List.append_assoc]
  · rw [offset_past, hoffset, ← String.utf8ByteSize_append, ← String.ofList_append]

/-- A cursor at a place of the text sees exactly the encoding of what is left. -/
theorem bytesFrom_eq (h : c.IsAt source left) : bytesFrom source c.offset = encode left := by
  obtain ⟨front, hsource, hoffset⟩ := h
  have hbytes : source.toByteArray.data.toList = encode source.toList := by
    rw [← String.utf8Encode_toList, List.utf8Encode, List.data_toByteArray]
    rfl
  rw [bytesFrom, hbytes, hsource, encode_append, hoffset, ← length_encode, List.drop_left]

theorem byteAt_of_nil (h : c.IsAt source []) : byteAt source c.offset = none := by
  rw [byteAt_eq_head?, h.bytesFrom_eq]
  rfl

/-- Behind a position is the first byte of a character. -/
theorem exists_byteAt_of_cons (h : c.IsAt source (ch :: left)) :
    ∃ b ∈ String.utf8EncodeChar ch, byteAt source c.offset = some b := by
  obtain ⟨first, rest, hbytes⟩ := exists_utf8EncodeChar_eq_cons ch
  refine ⟨first, by rw [hbytes]; exact List.mem_cons_self, ?_⟩
  rw [byteAt_eq_head?, h.bytesFrom_eq, encode_cons, hbytes]
  rfl

/-- An ASCII character is seen where it stands, and nowhere else. -/
theorem byteAt_eq_some_iff {k : Char} (hk : k.toNat < 0x80) (h : c.IsAt source left) :
    byteAt source c.offset = some k.toUInt8 ↔ left.head? = some k := by
  cases left with
  | nil => simp [h.byteAt_of_nil]
  | cons ch left =>
    obtain ⟨b, hb, hbyte⟩ := h.exists_byteAt_of_cons
    rw [hbyte, Option.some_inj, eq_toUInt8_iff hk hb, List.head?_cons, Option.some_inj]

/-- A class of bytes is passed over as the class of characters is. -/
theorem bumpWhile_eq {p : UInt8 → Bool} {q : Char → Bool} (hpq : Refines p q)
    (h : c.IsAt source left) : c.bumpWhile source p = c.past (left.takeWhile q) := by
  rw [bumpWhile_of_bytesFrom p h.bytesFrom_eq, hpq.takeWhile_encode, overBytes_encode]

/-- An ASCII character is passed over in one step. -/
theorem bump_eq (h : c.IsAt source (ch :: left)) (hch : ch.toNat < 0x80) :
    c.bump source = c.advance ch := by
  have hone : String.utf8EncodeChar ch = [ch.toUInt8] := by
    rcases utf8EncodeChar_cases ch with ⟨-, hone⟩ | ⟨hle, -⟩
    · exact hone
    · omega
  have hbytes : bytesFrom source c.offset = ch.toUInt8 :: encode left := by
    rw [h.bytesFrom_eq, encode_cons, hone, List.singleton_append]
  rw [(bump_of_bytesFrom hbytes).1, ← overBytes_utf8EncodeChar, hone, overBytes_cons,
    overBytes_nil]

/-- Going over one character leads from a place of the text to the next one. -/
theorem advance (h : c.IsAt source (ch :: left)) : (c.advance ch).IsAt source left := by
  rw [← List.singleton_append] at h
  exact h.past

/-- The text between two positions between characters. -/
theorem slice?_eq {word : List Char} (h : c.IsAt source (word ++ left)) :
    slice? source c.offset (c.past word).offset = some (String.ofList word) := by
  obtain ⟨front, hsource, hoffset⟩ := h
  rw [slice?, String.toUTF8_eq_toByteArray, offset_past, hoffset, extract_toByteArray hsource,
    String.fromUTF8?, dif_pos (String.ofList word).isValidUTF8]
  rfl

end IsAt

end Cursor

end Dwo
