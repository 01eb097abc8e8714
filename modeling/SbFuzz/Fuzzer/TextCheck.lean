import Mathlib.Algebra.Ring.Nat
import Mathlib.Data.List.Basic
import Mathlib.Data.Nat.Count

/-! `check_if_text_buf` and `check_if_text`, and the UTF-8 sequences that they recognise. -/

set_option autoImplicit false

namespace SbFuzz.Fuzzer.TextCheck

/-! ## The recogniser -/

abbrev Range := UInt8 × UInt8

/-- ASCII that may be in a text. -/
def printable (byte : UInt8) : Bool :=
  byte == 0x09 || byte == 0x0A || byte == 0x0D || 0x20 ≤ byte && byte ≤ 0x7E

def tail : Range := (0x80, 0xBF)

/-- Non-overlong 2-byte sequences. -/
def twoByte : List (List Range) := [[(0xC2, 0xDF), tail]]

/-- Without overlongs, straight 3-byte sequences, and without surrogates. -/
def threeByte : List (List Range) :=
  [[(0xE0, 0xE0), (0xA0, 0xBF), tail], [(0xE1, 0xEC), tail, tail], [(0xEE, 0xEE), tail, tail],
    [(0xEF, 0xEF), tail, tail], [(0xED, 0xED), (0x80, 0x9F), tail]]

/-- Planes 1-3, 4-15 and 16. -/
def fourByte : List (List Range) :=
  [[(0xF0, 0xF0), (0x90, 0xBF), tail, tail], [(0xF1, 0xF3), tail, tail, tail],
    [(0xF4, 0xF4), (0x80, 0x8F), tail, tail]]

/-- The bytes from an offset on lie in the ranges, tested in turn; nothing stands for a read past
the end of the buffer. -/
def readIn (buf : List UInt8) : Nat → List Range → Option Bool
  | _, [] => some true
  | offset, range :: ranges =>
    buf[offset]?.bind fun byte =>
      if range.1 ≤ byte ∧ byte ≤ range.2 then readIn buf (offset + 1) ranges else some false

def readAny (buf : List UInt8) (offset : Nat) : List (List Range) → Option Bool
  | [] => some false
  | form :: forms =>
    (readIn buf offset form).bind fun hit => if hit then some true else readAny buf offset forms

structure Counts where
  ascii : Nat
  utf8 : Nat
  /-- Only `check_if_text` keeps it. -/
  comp : Int

/-- A branch for the sequences of one size. -/
def branch (buf : List UInt8) (offset size : Nat) (forms : List (List Range)) : Option Bool :=
  if size - 1 < buf.length - offset then readAny buf offset forms else some false

/-- One round of the loop. -/
def advance (buf : List UInt8) (offset : Nat) (counts : Counts) : Option (Nat × Counts) :=
  buf[offset]?.bind fun byte =>
    if printable byte then
      some (offset + 1, { counts with utf8 := counts.utf8 + 1, ascii := counts.ascii + 1 })
    else
      -- `isprint` is for ASCII only, in the locale of C.
      let counts := if byte < 0x80 then { counts with ascii := counts.ascii + 1 } else counts
      let sequence (size : Nat) : Nat × Counts :=
        (offset + size, { counts with utf8 := counts.utf8 + 1, comp := counts.comp - (size - 1) })
      (branch buf offset 2 twoByte).bind fun two =>
        if two then some (sequence 2)
        else
          (branch buf offset 3 threeByte).bind fun three =>
            if three then some (sequence 3)
            else
              (branch buf offset 4 fourByte).bind fun four =>
                if four then some (sequence 4) else some (offset + 1, counts)

def scan (buf : List UInt8) (fuel offset : Nat) (counts : Counts) : Option Counts :=
  if offset < buf.length then
    match fuel with
    | 0 => none
    | fuel + 1 => (advance buf offset counts).bind fun advanced => scan buf fuel advanced.1 advanced.2
  else some counts

def checkIfTextBuf (buf : List UInt8) : Option UInt8 :=
  (scan buf buf.length 0 ⟨0, 0, buf.length⟩).map fun counts =>
    .ofNat (if counts.ascii < counts.utf8 then counts.utf8 else counts.ascii)

def aflTxtMinLen : Nat := 12

def aflTxtMaxLen : Nat := 65535

def aflTxtMinPercent : Nat := 99

def maxFile : Nat := 1 * 1024 * 1024

/-- `check_if_text`, for an entry of some length and its file, if it can be opened. -/
def checkIfText (len : Nat) (file : Option (List UInt8)) : Option Nat :=
  if len < aflTxtMinLen ∨ len < aflTxtMaxLen then some 0
  else
    let len := if maxFile ≤ len then maxFile - 1 else len
    match file with
    | none => some 0
    | some data =>
      let buf := data.take len
      if buf.length ≠ len then some 0
      else
        (scan buf buf.length 0 ⟨0, 0, buf.length⟩).map fun counts =>
          let percentUtf8 := (counts.utf8 * 100 : Int) / counts.comp
          let percentAscii : Int := counts.ascii * 100 / len
          if percentAscii ≤ percentUtf8 ∧ aflTxtMinPercent ≤ percentUtf8 then 2
          else if aflTxtMinPercent ≤ percentAscii then 1
          else 0

/-! ## Well-formed sequences -/

def inRanges : List Range → List UInt8 → Bool
  | [], _ => true
  | _ :: _, [] => false
  | range :: ranges, byte :: bytes =>
    (range.1 ≤ byte && byte ≤ range.2) && inRanges ranges bytes

/-- The size of the sequence that a buffer starts with, 0 if there is none. -/
def sequenceSize (bytes : List UInt8) : Nat :=
  if twoByte.any (inRanges · bytes) then 2
  else if threeByte.any (inRanges · bytes) then 3
  else if fourByte.any (inRanges · bytes) then 4
  else 0

/-- A character of several bytes. -/
def Wide (c : Char) : Prop := 1 < c.utf8Size

/-- A character of several bytes is encoded at a position of a buffer. -/
def CharAt (buf : List UInt8) (pos : Nat) (c : Char) : Prop :=
  Wide c ∧ String.utf8EncodeChar c <+: buf.drop pos

theorem char_bytes {c : Char} (wide : Wide c) :
    (0x80 ≤ c.val.toNat ∧ c.val.toNat ≤ 0x7ff ∧ c.utf8Size = 2 ∧ String.utf8EncodeChar c =
        [.ofNat (c.val.toNat / 64 % 0x20 + 0xc0), .ofNat (c.val.toNat % 0x40 + 0x80)]) ∨
      (0x800 ≤ c.val.toNat ∧ c.val.toNat ≤ 0xffff ∧ c.utf8Size = 3 ∧ String.utf8EncodeChar c =
        [.ofNat (c.val.toNat / 4096 % 0x10 + 0xe0), .ofNat (c.val.toNat / 64 % 0x40 + 0x80),
          .ofNat (c.val.toNat % 0x40 + 0x80)]) ∨
      (0x10000 ≤ c.val.toNat ∧ c.utf8Size = 4 ∧ String.utf8EncodeChar c =
        [.ofNat (c.val.toNat / 262144 % 0x08 + 0xf0), .ofNat (c.val.toNat / 4096 % 0x40 + 0x80),
          .ofNat (c.val.toNat / 64 % 0x40 + 0x80), .ofNat (c.val.toNat % 0x40 + 0x80)]) := by
  unfold Wide at wide
  rcases c.utf8Size_eq with one | two | three | four
  · omega
  · obtain ⟨low, high⟩ := Char.utf8Size_eq_two_iff.mp two
    have low' : 127 < c.val.toNat := low
    have high' : c.val.toNat ≤ 0x7ff := high
    refine .inl ⟨low', high', two, ?_⟩
    unfold String.utf8EncodeChar
    dsimp only
    rw [if_neg (by omega), if_pos high']
  · obtain ⟨low, high⟩ := Char.utf8Size_eq_three_iff.mp three
    have low' : 0x7ff < c.val.toNat := low
    have high' : c.val.toNat ≤ 0xffff := high
    refine .inr (.inl ⟨low', high', three, ?_⟩)
    unfold String.utf8EncodeChar
    dsimp only
    rw [if_neg (by omega), if_neg (by omega), if_pos high']
  · have low : 0xffff < c.val.toNat := Char.utf8Size_eq_four_iff.mp four
    refine .inr (.inr ⟨low, four, ?_⟩)
    unfold String.utf8EncodeChar
    dsimp only
    rw [if_neg (by omega), if_neg (by omega), if_neg (by omega)]

theorem twoByte_iff (a b : UInt8) (rest : List UInt8) :
    twoByte.any (inRanges · (a :: b :: rest)) = true ↔
      (0xC2 ≤ a.toNat ∧ a.toNat ≤ 0xDF) ∧ 0x80 ≤ b.toNat ∧ b.toNat ≤ 0xBF := by
  simp [twoByte, tail, inRanges, UInt8.le_iff_toNat_le]

theorem threeByte_iff (a b c : UInt8) (rest : List UInt8) :
    threeByte.any (inRanges · (a :: b :: c :: rest)) = true ↔
      (a.toNat = 0xE0 ∧ 0xA0 ≤ b.toNat ∧ b.toNat ≤ 0xBF ∨
        (0xE1 ≤ a.toNat ∧ a.toNat ≤ 0xEC ∨ a.toNat = 0xEE ∨ a.toNat = 0xEF) ∧
          0x80 ≤ b.toNat ∧ b.toNat ≤ 0xBF ∨
        a.toNat = 0xED ∧ 0x80 ≤ b.toNat ∧ b.toNat ≤ 0x9F) ∧
      0x80 ≤ c.toNat ∧ c.toNat ≤ 0xBF := by
  simp [threeByte, tail, inRanges, UInt8.le_iff_toNat_le]
  omega

theorem fourByte_iff (a b c d : UInt8) (rest : List UInt8) :
    fourByte.any (inRanges · (a :: b :: c :: d :: rest)) = true ↔
      (a.toNat = 0xF0 ∧ 0x90 ≤ b.toNat ∧ b.toNat ≤ 0xBF ∨
        0xF1 ≤ a.toNat ∧ a.toNat ≤ 0xF3 ∧ 0x80 ≤ b.toNat ∧ b.toNat ≤ 0xBF ∨
        a.toNat = 0xF4 ∧ 0x80 ≤ b.toNat ∧ b.toNat ≤ 0x8F) ∧
      (0x80 ≤ c.toNat ∧ c.toNat ≤ 0xBF) ∧ 0x80 ≤ d.toNat ∧ d.toNat ≤ 0xBF := by
  simp [fourByte, tail, inRanges, UInt8.le_iff_toNat_le]
  omega

/-- The lead byte of a sequence tells its size. -/
theorem lead_of_twoByte {bytes : List UInt8} (starts : twoByte.any (inRanges · bytes) = true) :
    ∃ a b rest, bytes = a :: b :: rest := by
  match bytes with
  | [] => cases starts
  | [a] => simp [twoByte, inRanges] at starts
  | a :: b :: rest => exact ⟨a, b, rest, rfl⟩

theorem lead_of_threeByte {bytes : List UInt8} (starts : threeByte.any (inRanges · bytes) = true) :
    ∃ a b c rest, bytes = a :: b :: c :: rest := by
  match bytes with
  | [] => cases starts
  | [a] => simp [threeByte, inRanges] at starts
  | [a, b] => simp [threeByte, inRanges] at starts
  | a :: b :: c :: rest => exact ⟨a, b, c, rest, rfl⟩

theorem lead_of_fourByte {bytes : List UInt8} (starts : fourByte.any (inRanges · bytes) = true) :
    ∃ a b c d rest, bytes = a :: b :: c :: d :: rest := by
  match bytes with
  | [] => cases starts
  | [a] => simp [fourByte, inRanges] at starts
  | [a, b] => simp [fourByte, inRanges] at starts
  | [a, b, c] => simp [fourByte, inRanges] at starts
  | a :: b :: c :: d :: rest => exact ⟨a, b, c, d, rest, rfl⟩

/-- A sequence starts with a byte that continues none. -/
theorem lead_of_sequenceSize {byte : UInt8} {bytes : List UInt8}
    (starts : sequenceSize (byte :: bytes) ≠ 0) : 0xC2 ≤ byte.toNat := by
  unfold sequenceSize at starts
  split at starts
  · next two =>
    obtain ⟨a, b, rest, same⟩ := lead_of_twoByte two
    rw [same, twoByte_iff] at two
    cases same
    exact two.1.1
  · split at starts
    · next three =>
      obtain ⟨a, b, c, rest, same⟩ := lead_of_threeByte three
      rw [same, threeByte_iff] at three
      cases same
      omega
    · split at starts
      · next four =>
        obtain ⟨a, b, c, d, rest, same⟩ := lead_of_fourByte four
        rw [same, fourByte_iff] at four
        cases same
        omega
      · exact absurd rfl starts

theorem toNat_ofNat_byte {n : Nat} (small : n < 256) : (UInt8.ofNat n).toNat = n :=
  (UInt8.toNat_ofNat' ..).trans (Nat.mod_eq_of_lt small)

theorem sequenceSize_encode {c : Char} (wide : Wide c) (rest : List UInt8) :
    sequenceSize (String.utf8EncodeChar c ++ rest) = c.utf8Size := by
  have valid : c.val.toNat < 0xd800 ∨ 0xdfff < c.val.toNat ∧ c.val.toNat < 0x110000 := c.valid
  have lead {a b : UInt8} {bytes : List UInt8} (three : 0xE0 ≤ a.toNat) :
      ¬ twoByte.any (inRanges · (a :: b :: bytes)) = true := by
    rw [twoByte_iff]
    omega
  rcases char_bytes wide with ⟨low, high, size, bytes⟩ | ⟨low, high, size, bytes⟩ | ⟨low, size, bytes⟩
  · rw [bytes, size]
    unfold sequenceSize
    refine if_pos ((twoByte_iff ..).mpr ?_)
    rw [toNat_ofNat_byte (by omega), toNat_ofNat_byte (by omega)]
    omega
  · rw [bytes, size]
    unfold sequenceSize
    refine (if_neg (lead (by rw [toNat_ofNat_byte (by omega)]; omega))).trans
      (if_pos ((threeByte_iff ..).mpr ?_))
    rw [toNat_ofNat_byte (by omega), toNat_ofNat_byte (by omega), toNat_ofNat_byte (by omega)]
    omega
  · rw [bytes, size]
    unfold sequenceSize
    refine (if_neg (lead (by rw [toNat_ofNat_byte (by omega)]; omega))).trans ((if_neg ?_).trans
      (if_pos ((fourByte_iff ..).mpr ?_)))
    · refine fun three => ?_
      have first := ((threeByte_iff ..).mp three).1
      rw [toNat_ofNat_byte (by omega)] at first
      omega
    · rw [toNat_ofNat_byte (by omega), toNat_ofNat_byte (by omega), toNat_ofNat_byte (by omega),
        toNat_ofNat_byte (by omega)]
      omega

theorem ofNat_val {v : Nat} (valid : v.isValidChar) : (Char.ofNat v).val.toNat = v := by
  unfold Char.ofNat
  rw [dif_pos valid]
  rfl

theorem wide_ofNat {v : Nat} (valid : v.isValidChar) (large : 0x80 ≤ v) : Wide (Char.ofNat v) := by
  have above : ¬ (Char.ofNat v).val ≤ 127 := by
    refine UInt32.not_le.mpr (UInt32.lt_iff_toNat_lt.mpr ?_)
    rw [ofNat_val valid]
    exact large
  have notOne : (Char.ofNat v).utf8Size ≠ 1 := fun one => above (Char.utf8Size_eq_one_iff.mp one)
  have positive := (Char.ofNat v).utf8Size_pos
  unfold Wide
  omega

/-- A byte is its number with the bits of the lead or of the tail. -/
theorem ofNat_eq_byte {n : Nat} (byte : UInt8) (same : n = byte.toNat) : UInt8.ofNat n = byte :=
  same ▸ UInt8.ofNat_toNat

theorem encode_twoByte {a b : UInt8} (lead : 0xC2 ≤ a.toNat ∧ a.toNat ≤ 0xDF)
    (next : 0x80 ≤ b.toNat ∧ b.toNat ≤ 0xBF) : ∃ c, Wide c ∧ String.utf8EncodeChar c = [a, b] := by
  have valid : ((a.toNat - 0xC0) * 64 + (b.toNat - 0x80)).isValidChar := .inl (by omega)
  refine ⟨.ofNat _, wide_ofNat valid (by omega), ?_⟩
  unfold String.utf8EncodeChar
  dsimp only
  rw [ofNat_val valid, if_neg (by omega), if_pos (by omega), ofNat_eq_byte a (by omega),
    ofNat_eq_byte b (by omega)]

theorem encode_threeByte {a b c : UInt8} (lead : a.toNat = 0xE0 ∧ 0xA0 ≤ b.toNat ∧ b.toNat ≤ 0xBF ∨
      (0xE1 ≤ a.toNat ∧ a.toNat ≤ 0xEC ∨ a.toNat = 0xEE ∨ a.toNat = 0xEF) ∧
        0x80 ≤ b.toNat ∧ b.toNat ≤ 0xBF ∨
      a.toNat = 0xED ∧ 0x80 ≤ b.toNat ∧ b.toNat ≤ 0x9F)
    (last : 0x80 ≤ c.toNat ∧ c.toNat ≤ 0xBF) :
    ∃ char, Wide char ∧ String.utf8EncodeChar char = [a, b, c] := by
  have valid : ((a.toNat - 0xE0) * 4096 + (b.toNat - 0x80) * 64 + (c.toNat - 0x80)).isValidChar := by
    unfold Nat.isValidChar
    omega
  refine ⟨.ofNat _, wide_ofNat valid (by omega), ?_⟩
  unfold String.utf8EncodeChar
  dsimp only
  rw [ofNat_val valid, if_neg (by omega), if_neg (by omega), if_pos (by omega),
    ofNat_eq_byte a (by omega), ofNat_eq_byte b (by omega), ofNat_eq_byte c (by omega)]

theorem encode_fourByte {a b c d : UInt8} (lead : a.toNat = 0xF0 ∧ 0x90 ≤ b.toNat ∧ b.toNat ≤ 0xBF ∨
      0xF1 ≤ a.toNat ∧ a.toNat ≤ 0xF3 ∧ 0x80 ≤ b.toNat ∧ b.toNat ≤ 0xBF ∨
      a.toNat = 0xF4 ∧ 0x80 ≤ b.toNat ∧ b.toNat ≤ 0x8F)
    (next : 0x80 ≤ c.toNat ∧ c.toNat ≤ 0xBF) (last : 0x80 ≤ d.toNat ∧ d.toNat ≤ 0xBF) :
    ∃ char, Wide char ∧ String.utf8EncodeChar char = [a, b, c, d] := by
  have valid : ((a.toNat - 0xF0) * 262144 + (b.toNat - 0x80) * 4096 + (c.toNat - 0x80) * 64 +
      (d.toNat - 0x80)).isValidChar := .inr (by omega)
  refine ⟨.ofNat _, wide_ofNat valid (by omega), ?_⟩
  unfold String.utf8EncodeChar
  dsimp only
  rw [ofNat_val valid, if_neg (by omega), if_neg (by omega), if_neg (by omega),
    ofNat_eq_byte a (by omega), ofNat_eq_byte b (by omega), ofNat_eq_byte c (by omega),
    ofNat_eq_byte d (by omega)]

/-- What the branches recognise are the encodings of characters. -/
theorem exists_char_of_sequenceSize {bytes : List UInt8} (starts : sequenceSize bytes ≠ 0) :
    ∃ c, Wide c ∧ String.utf8EncodeChar c <+: bytes := by
  unfold sequenceSize at starts
  split at starts
  · next two =>
    obtain ⟨a, b, rest, rfl⟩ := lead_of_twoByte two
    obtain ⟨lead, next⟩ := (twoByte_iff ..).mp two
    obtain ⟨c, wide, encodes⟩ := encode_twoByte lead next
    exact ⟨c, wide, rest, by rw [encodes]; rfl⟩
  · split at starts
    · next three =>
      obtain ⟨a, b, c, rest, rfl⟩ := lead_of_threeByte three
      obtain ⟨lead, last⟩ := (threeByte_iff ..).mp three
      obtain ⟨char, wide, encodes⟩ := encode_threeByte lead last
      exact ⟨char, wide, rest, by rw [encodes]; rfl⟩
    · split at starts
      · next four =>
        obtain ⟨a, b, c, d, rest, rfl⟩ := lead_of_fourByte four
        obtain ⟨lead, next, last⟩ := (fourByte_iff ..).mp four
        obtain ⟨char, wide, encodes⟩ := encode_fourByte lead next last
        exact ⟨char, wide, rest, by rw [encodes]; rfl⟩
      · exact absurd rfl starts

end SbFuzz.Fuzzer.TextCheck
