import SbFuzz.Encodings.Base64
import SbFuzz.Memory.Cells
import Mathlib.Data.List.Basic
import Mathlib.Data.Nat.Bitwise

/-! `to_base64` and `from_base64` of redqueen, over the memory behind their pointers. -/

set_option autoImplicit false

namespace SbFuzz.Fuzzer.RedqueenBase64

open Encodings
open Memory (Cells put put_append put_nil put_outside put_inside)

/-! ## The tables -/

def base64EncodeTable : List UInt8 :=
  "ABCDEFGHIJKLMNOPQRSTUVWXYZabcdefghijklmnopqrstuvwxyz0123456789+/".toList.map fun c =>
    .ofNat c.toNat

def base64DecodeTable : List Nat :=
  [62, 0,  0,  0,  63, 52, 53, 54, 55, 56, 57, 58, 59, 60, 61, 0,
   0,  0,  0,  0,  0,  0,  0,  1,  2,  3,  4,  5,  6,  7,  8,  9,
   10, 11, 12, 13, 14, 15, 16, 17, 18, 19, 20, 21, 22, 23, 24, 25,
   0,  0,  0,  0,  0,  0,  26, 27, 28, 29, 30, 31, 32, 33, 34, 35,
   36, 37, 38, 39, 40, 41, 42, 43, 44, 45, 46, 47, 48, 49, 50, 51]

def encodeEntry (index : Nat) : UInt8 := base64EncodeTable.getD (index &&& 0x3f) 0

/-- Nothing stands for an access outside the table. -/
def decodeEntry (c : UInt8) : Option Nat :=
  if c.toNat < 43 then none else base64DecodeTable[c.toNat - 43]?

/-! ## The functions -/

structure Encoded where
  dst : Cells
  /-- The positions of the source that are read, in this order. -/
  reads : List Nat
  len : Nat

/-- `len` of `to_base64` -/
def encodedLen (dstLen : UInt32) : UInt32 :=
  if dstLen % 3 ≠ 0 then dstLen / 3 * 4 + 4 else dstLen / 3 * 4

section

variable (src : Cells) (dstLen : Nat)

/-- `v` of a round -/
def sourceGroup (len i : Nat) : Nat :=
  let v := (src i).toNat
  let v := if i + 1 < len then v <<< 8 ||| (src (i + 1)).toNat else v <<< 8
  if i + 2 < len then v <<< 8 ||| (src (i + 2)).toNat else v <<< 8

def sourceReads (len i : Nat) : List Nat :=
  i :: (if i + 1 < len then [i + 1] else []) ++ (if i + 2 < len then [i + 2] else [])

def encodeRound (v i j : Nat) (dst : Cells) : Cells :=
  let dst := put dst j [encodeEntry (v >>> 18)]
  let dst := put dst (j + 1) [encodeEntry (v >>> 12)]
  let dst := put dst (j + 2) [if i + 1 < dstLen then encodeEntry (v >>> 6) else 0x3d]
  put dst (j + 3) [if i + 2 < dstLen then encodeEntry v else 0x3d]

def toBase64Loop (len i j : Nat) (dst : Cells) (reads : List Nat) : Encoded :=
  if j < len then
    toBase64Loop len (i + 3) (j + 4) (encodeRound dstLen (sourceGroup src len i) i j dst)
      (reads ++ sourceReads len i)
  else { dst, reads, len }
termination_by len - j

end

def toBase64 (src dst : Cells) (dstLen : UInt32) : Encoded :=
  let encoded := toBase64Loop src dstLen.toNat (encodedLen dstLen).toNat 0 0 dst []
  { encoded with dst := put encoded.dst encoded.len [0] }

def decodeGroup (src : Cells) (i : Nat) : Option Nat := do
  let v ← decodeEntry (src i)
  let v := v <<< 6 ||| (← decodeEntry (src (i + 1)))
  let v ← if src (i + 2) = 0x3d then pure (v <<< 6)
    else do pure (v <<< 6 ||| (← decodeEntry (src (i + 2))))
  if src (i + 3) = 0x3d then pure (v <<< 6) else do pure (v <<< 6 ||| (← decodeEntry (src (i + 3))))

def fromBase64Loop (src : Cells) (len i j : Nat) (dst : Cells) (ret : Nat) :
    Option (Cells × Nat) :=
  if i < len then do
    let v ← decodeGroup src i
    let (dst, ret) := (put dst j [.ofNat (v >>> 16)], ret + 1)
    let (dst, ret) :=
      if src (i + 2) ≠ 0x3d then (put dst (j + 1) [.ofNat (v >>> 8)], ret + 1) else (dst, ret)
    let (dst, ret) :=
      if src (i + 3) ≠ 0x3d then (put dst (j + 2) [.ofNat v], ret + 1) else (dst, ret)
    fromBase64Loop src len (i + 4) (j + 3) dst ret
  else some (dst, ret)
termination_by len - i

def fromBase64 (src dst : Cells) (dstLen : UInt32) : Option (Cells × Nat) :=
  fromBase64Loop src ((dstLen / 3) <<< 2).toNat 0 0 dst 0

/-! ## Tables -/

theorem encodeEntry_eq (v : Nat) : encodeEntry v = Base64.digit (v % 64) := by
  have table : base64EncodeTable = (List.range 64).map Base64.digit := by decide
  have small : v % 64 < 64 := Nat.mod_lt _ (by decide)
  have low : v &&& 0x3f = v % 64 := Nat.and_two_pow_sub_one_eq_mod v 6
  unfold encodeEntry
  rw [low, table, List.getD_eq_getElem _ _ (by simpa using small), List.getElem_map,
    List.getElem_range]

theorem decodeEntry_digit {v : Nat} (small : v < 64) : decodeEntry (Base64.digit v) = some v := by
  have all : ∀ v < 64, decodeEntry (Base64.digit v) = some v := by decide +kernel
  exact all v small

/-! ## Full rounds -/

theorem shiftLeft_or {x y n : Nat} (fits : y < 2 ^ n) : x <<< n ||| y = x * 2 ^ n + y := by
  rw [← Nat.shiftLeft_add_eq_or_of_lt fits, Nat.shiftLeft_eq]

theorem sourceGroup_eq (src : Cells) {len i : Nat} (full : i + 2 < len) :
    sourceGroup src len i = Base64.group (src i) (src (i + 1)) (src (i + 2)) := by
  have second : (src (i + 1)).toNat < 2 ^ 8 := UInt8.toNat_lt _
  have third : (src (i + 2)).toNat < 2 ^ 8 := UInt8.toNat_lt _
  have next : i + 1 < len := Nat.lt_of_succ_lt full
  unfold sourceGroup Base64.group
  rw [if_pos full, if_pos next, shiftLeft_or second, shiftLeft_or third]
  omega

def characters (group : Nat) : List UInt8 :=
  [Base64.character group 3, Base64.character group 2, Base64.character group 1,
    Base64.character group 0]

theorem encodeEntry_shiftRight (v place : Nat) :
    encodeEntry (v >>> (6 * place)) = Base64.character v place := by
  have shifted : v >>> (6 * place) % 64 = Base64.sextet v place := by
    induction place generalizing v with
    | zero => rfl
    | succ place ih =>
        rw [Base64.sextet, ← ih, Nat.mul_succ, Nat.add_comm, Nat.shiftRight_add,
          Nat.shiftRight_eq_div_pow v]
  rw [encodeEntry_eq, shifted, Base64.character]

theorem encodeRound_eq {dstLen i : Nat} (full : i + 2 < dstLen) (v j : Nat) (dst : Cells) :
    encodeRound dstLen v i j dst = put dst j (characters v) := by
  have next : i + 1 < dstLen := Nat.lt_of_succ_lt full
  have whole : encodeEntry v = Base64.character v 0 := encodeEntry_shiftRight v 0
  have two := put_append dst j [Base64.character v 3] [Base64.character v 2]
  have three := put_append dst j [Base64.character v 3, Base64.character v 2]
    [Base64.character v 1]
  have four := put_append dst j
    [Base64.character v 3, Base64.character v 2, Base64.character v 1] [Base64.character v 0]
  unfold encodeRound
  rw [if_pos next, if_pos full, whole, encodeEntry_shiftRight v 3, encodeEntry_shiftRight v 2,
    encodeEntry_shiftRight v 1]
  exact (congrArg (put · (j + 3) _) ((congrArg (put · (j + 2) _) two).trans three)).trans four

/-- What a run of rounds reads, and how it ends. -/
theorem toBase64Loop_reads (src : Cells) (dstLen : Nat) {len : Nat} (rounds b : Nat)
    (total : len = 4 * (b + rounds)) (dst : Cells) (reads : List Nat) :
    (toBase64Loop src dstLen len (3 * b) (4 * b) dst reads).reads =
        reads ++ List.range' (3 * b) (3 * rounds) ∧
      (toBase64Loop src dstLen len (3 * b) (4 * b) dst reads).len = len := by
  induction rounds generalizing b dst reads with
  | zero =>
      rw [toBase64Loop, if_neg (by omega)]
      exact ⟨(List.append_nil reads).symm, rfl⟩
  | succ rounds ih =>
      have second : 3 * b + 1 < len := by omega
      have third : 3 * b + 2 < len := by omega
      have whole : sourceReads len (3 * b) ++ List.range' (3 * (b + 1)) (3 * rounds) =
          List.range' (3 * b) (3 * (rounds + 1)) := by
        unfold sourceReads
        rw [if_pos second, if_pos third]
        rfl
      rw [toBase64Loop, if_pos (by omega)]
      obtain ⟨later, ending⟩ := ih (b + 1) (by omega) _ (reads ++ sourceReads len (3 * b))
      exact ⟨by rw [← whole, ← List.append_assoc]; exact later, ending⟩

theorem toBase64Loop_dst (src : Cells) {dstLen len : Nat} (rounds b : Nat)
    (total : len = 4 * (b + rounds)) (full : dstLen = 3 * (b + rounds)) (dst : Cells)
    (reads : List Nat) :
    (toBase64Loop src dstLen len (3 * b) (4 * b) dst reads).dst =
      put dst (4 * b) (Base64.encode ((List.range' (3 * b) (3 * rounds)).map src)) := by
  induction rounds generalizing b dst reads with
  | zero =>
      rw [toBase64Loop, if_neg (by omega)]
      exact (put_nil dst (4 * b)).symm
  | succ rounds ih =>
      rw [toBase64Loop, if_pos (by omega), encodeRound_eq (by omega)]
      refine (ih (b + 1) (by omega) (by omega) _ _).trans ?_
      rw [sourceGroup_eq src (by omega)]
      exact put_append dst (4 * b) (characters _) _

theorem decodeGroup_eq {mem : Cells} {i v : Nat} (fits : v < 16777216)
    (first : mem i = Base64.character v 3) (second : mem (i + 1) = Base64.character v 2)
    (third : mem (i + 2) = Base64.character v 1) (fourth : mem (i + 3) = Base64.character v 0) :
    decodeGroup mem i = some v := by
  have entry (place : Nat) : decodeEntry (Base64.character v place) = some (Base64.sextet v place) :=
    decodeEntry_digit (Base64.sextet_lt v place)
  have six (place : Nat) : Base64.sextet v place < 2 ^ 6 := Base64.sextet_lt v place
  have present (place : Nat) : Base64.character v place ≠ 0x3d :=
    Base64.character_ne_padding v place
  unfold decodeGroup
  rw [first, second, third, fourth]
  simp only [entry, present, if_false, Option.bind_eq_bind, Option.bind_some, Option.pure_def,
    shiftLeft_or (six _)]
  exact congrArg some (Base64.sextets fits)

theorem getD_characters (v : Nat) (rest : List UInt8) {place : Nat} (inside : place < 4) :
    (characters v ++ rest).getD place 0 = Base64.character v (3 - place) := by
  have places : place = 0 ∨ place = 1 ∨ place = 2 ∨ place = 3 := by omega
  rcases places with rfl | rfl | rfl | rfl <;> simp [characters]

theorem fromBase64Loop_eq (src : Cells) {mem : Cells} {len : Nat} (rounds b : Nat)
    (total : len = 4 * (b + rounds))
    (encoded : ∀ k < 4 * rounds,
      mem (4 * b + k) = (Base64.encode ((List.range' (3 * b) (3 * rounds)).map src)).getD k 0)
    (out : Cells) (ret : Nat) :
    fromBase64Loop mem len (4 * b) (3 * b) out ret =
      some (put out (3 * b) ((List.range' (3 * b) (3 * rounds)).map src), ret + 3 * rounds) := by
  induction rounds generalizing b out ret with
  | zero =>
      rw [fromBase64Loop, if_neg (by omega)]
      exact congrArg some (Prod.ext (put_nil out (3 * b)).symm rfl)
  | succ rounds ih =>
      let v := Base64.group (src (3 * b)) (src (3 * b + 1)) (src (3 * b + 2))
      let rest := (List.range' (3 * (b + 1)) (3 * rounds)).map src
      have text (k : Nat) (inside : k < 4 * (rounds + 1)) :
          mem (4 * b + k) = (characters v ++ Base64.encode rest).getD k 0 := encoded k inside
      have character (k : Nat) (inside : k < 4) :
          mem (4 * b + k) = Base64.character v (3 - k) :=
        (text k (by omega)).trans (getD_characters v _ inside)
      have group : decodeGroup mem (4 * b) = some v :=
        decodeGroup_eq (Base64.group_lt _ _ _) (character 0 (by decide)) (character 1 (by decide))
          (character 2 (by decide)) (character 3 (by decide))
      have third : mem (4 * b + 2) ≠ 0x3d := by
        rw [character 2 (by decide)]
        exact Base64.character_ne_padding v 1
      have fourth : mem (4 * b + 3) ≠ 0x3d := by
        rw [character 3 (by decide)]
        exact Base64.character_ne_padding v 0
      have later (k : Nat) (inside : k < 4 * rounds) :
          mem (4 * (b + 1) + k) = (Base64.encode rest).getD k 0 := by
        have position : 4 * (b + 1) + k = 4 * b + (4 + k) := by omega
        rw [position, text _ (by omega), List.getD_append_right _ _ _ _ (Nat.le_add_right 4 k)]
        exact congrArg (fun m => (Base64.encode rest).getD m 0) (Nat.add_sub_cancel_left 4 k)
      obtain ⟨high, middle, low⟩ :=
        Base64.bytes_group (src (3 * b)) (src (3 * b + 1)) (src (3 * b + 2))
      have bytes : put (put (put out (3 * b) [.ofNat (v >>> 16)]) (3 * b + 1) [.ofNat (v >>> 8)])
          (3 * b + 2) [.ofNat v] =
          put out (3 * b) [src (3 * b), src (3 * b + 1), src (3 * b + 2)] := by
        have first : UInt8.ofNat (v >>> 16) = src (3 * b) := by rwa [Nat.shiftRight_eq_div_pow]
        have second : UInt8.ofNat (v >>> 8) = src (3 * b + 1) := by rwa [Nat.shiftRight_eq_div_pow]
        have two := put_append out (3 * b) [src (3 * b)] [src (3 * b + 1)]
        have three := put_append out (3 * b) [src (3 * b), src (3 * b + 1)] [src (3 * b + 2)]
        rw [first, second, low]
        exact (congrArg (put · (3 * b + 2) _) two).trans three
      rw [fromBase64Loop, if_pos (by omega), group]
      simp only [Option.bind_eq_bind, Option.bind_some, ne_eq, third, fourth, not_false_eq_true,
        if_true]
      rw [bytes]
      refine (ih (b + 1) (by omega) later _ _).trans (congrArg some (Prod.ext ?_ ?_))
      · exact put_append out (3 * b) [src (3 * b), src (3 * b + 1), src (3 * b + 2)] rest
      · dsimp only
        omega

/-! ## Round trips -/

def given (src : Cells) (dstLen : UInt32) : List UInt8 := (List.range dstLen.toNat).map src

/-- What stands in the destination in front of the terminator. -/
def Encoded.text (encoded : Encoded) : List UInt8 := (List.range encoded.len).map encoded.dst

/-- The bytes that `from_base64` counts. -/
def decoded (src dst : Cells) (dstLen : UInt32) : Option (List UInt8) :=
  (fromBase64 src dst dstLen).map fun (dst, ret) => (List.range ret).map dst

/-- The text is the encoding of the bytes that are given, nothing behind these is read and
nothing behind the text and its terminator is written, and the bytes come back. -/
structure RoundTrip (src dst : Cells) (dstLen : UInt32) : Prop where
  text : (toBase64 src dst dstLen).text = Base64.encode (given src dstLen)
  reads : ∀ pos ∈ (toBase64 src dst dstLen).reads, pos < dstLen.toNat
  writes : ∀ pos, (Base64.encode (given src dstLen)).length < pos →
    (toBase64 src dst dstLen).dst pos = dst pos
  back : ∀ out, decoded (toBase64 src dst dstLen).dst out dstLen = some (given src dstLen)

theorem encodedLen_toNat (dstLen : UInt32) :
    (encodedLen dstLen).toNat =
      (dstLen.toNat / 3 * 4 + if 3 ∣ dstLen.toNat then 0 else 4) % 0x100000000 := by
  have remainder : dstLen % 3 ≠ 0 ↔ ¬3 ∣ dstLen.toNat := by
    rw [ne_eq, ← UInt32.toNat_inj, UInt32.toNat_mod, Nat.dvd_iff_mod_eq_zero]
    rfl
  unfold encodedLen
  by_cases full : 3 ∣ dstLen.toNat
  · rw [if_neg fun rest => remainder.mp rest full, if_pos full]
    simp
  · rw [if_pos (remainder.mpr full), if_neg full]
    simp

theorem toBase64_reads (src dst : Cells) {dstLen : UInt32} {rounds : Nat}
    (total : (encodedLen dstLen).toNat = 4 * rounds) :
    (toBase64 src dst dstLen).reads = List.range (3 * rounds) ∧
      (toBase64 src dst dstLen).len = 4 * rounds := by
  have start : (encodedLen dstLen).toNat = 4 * (0 + rounds) := by omega
  obtain ⟨reads, ending⟩ := toBase64Loop_reads src dstLen.toNat rounds 0 start dst []
  rw [List.nil_append] at reads
  exact ⟨reads.trans List.range_eq_range'.symm, ending.trans total⟩

theorem length_encode_given (src : Cells) (dstLen : UInt32) :
    (Base64.encode (given src dstLen)).length = (dstLen.toNat + 2) / 3 * 4 := by
  rw [Base64.length_encode, given, List.length_map, List.length_range]

theorem given_eq (src : Cells) {dstLen : UInt32} {rounds : Nat}
    (full : dstLen.toNat = 3 * rounds) :
    given src dstLen = (List.range' (3 * 0) (3 * rounds)).map src := by
  rw [given, full, List.range_eq_range']

theorem toBase64_dst (src dst : Cells) {dstLen : UInt32} {rounds : Nat}
    (full : dstLen.toNat = 3 * rounds) (total : (encodedLen dstLen).toNat = 4 * rounds) :
    (toBase64 src dst dstLen).dst = put dst 0 (Base64.encode (given src dstLen) ++ [0]) := by
  have start : (encodedLen dstLen).toNat = 4 * (0 + rounds) := by omega
  have text := @toBase64Loop_dst src dstLen.toNat _ rounds 0 start (by omega) dst []
  have ending := (toBase64Loop_reads src dstLen.toNat rounds 0 start dst []).2
  have length : (encodedLen dstLen).toNat = 0 + (Base64.encode (given src dstLen)).length := by
    rw [length_encode_given]
    omega
  rw [← given_eq src full] at text
  unfold toBase64
  dsimp only
  rw [text, ending, length]
  exact put_append dst 0 _ [0]

theorem fromBase64_eq (src : Cells) {mem : Cells} {dstLen : UInt32} {rounds : Nat}
    (full : dstLen.toNat = 3 * rounds) (fits : 4 * rounds < 0x100000000)
    (text : ∀ k < 4 * rounds, mem k = (Base64.encode (given src dstLen)).getD k 0)
    (out : Cells) :
    fromBase64 mem out dstLen = some (put out 0 (given src dstLen), dstLen.toNat) := by
  have total : ((dstLen / 3) <<< 2).toNat = 4 * (0 + rounds) := by
    rw [UInt32.toNat_shiftLeft, UInt32.toNat_div]
    simp only [UInt32.reduceToNat, Nat.shiftLeft_eq, Nat.reduceMod, Nat.reducePow]
    omega
  have encoded (k : Nat) (inside : k < 4 * rounds) : mem (4 * 0 + k) =
      (Base64.encode ((List.range' (3 * 0) (3 * rounds)).map src)).getD k 0 := by
    rw [← given_eq src full, Nat.mul_zero, Nat.zero_add]
    exact text k inside
  have back := fromBase64Loop_eq src rounds 0 total encoded out 0
  rw [← given_eq src full, Nat.zero_add (3 * rounds), ← full] at back
  exact back

theorem roundTrip_of_full {src dst : Cells} {dstLen : UInt32} (full : 3 ∣ dstLen.toNat)
    (fits : dstLen.toNat / 3 * 4 < 0x100000000) : RoundTrip src dst dstLen := by
  obtain ⟨rounds, count⟩ := full
  have total : (encodedLen dstLen).toNat = 4 * rounds := by
    rw [encodedLen_toNat, if_pos ⟨rounds, count⟩]
    omega
  have length : (Base64.encode (given src dstLen)).length = 4 * rounds := by
    rw [length_encode_given]
    omega
  obtain ⟨reads, ending⟩ := toBase64_reads src dst total
  have after := toBase64_dst src dst count total
  have text (k : Nat) (inside : k < 4 * rounds) :
      (toBase64 src dst dstLen).dst k = (Base64.encode (given src dstLen)).getD k 0 := by
    rw [after]
    unfold put
    rw [if_neg (Nat.not_lt_zero k), Nat.sub_zero, List.getD_append _ _ _ _ (by omega),
      List.getD_eq_getElem _ _ (by omega), List.getD_eq_getElem _ _ (by omega)]
  refine ⟨?_, ?_, ?_, fun out => ?_⟩
  · unfold Encoded.text
    rw [ending]
    refine List.ext_getElem (by simp [length]) fun k inText inside => ?_
    rw [List.getElem_map, List.getElem_range, text k (by omega), List.getD_eq_getElem _ _ inside]
  · rw [reads]
    intro pos member
    rw [count]
    exact List.mem_range.mp member
  · intro pos behind
    rw [after]
    refine put_outside dst ?_
    rw [List.length_append, List.length_singleton]
    omega
  · have written := put_inside out 0 (given src dstLen)
    unfold decoded
    rw [fromBase64_eq src count (by omega) text out]
    rw [given, List.length_map, List.length_range, ← List.range_eq_range'] at written
    exact congrArg some written

/-- The three bytes of the last round are read whether or not they are given. -/
theorem roundTrip_iff (src dst : Cells) (dstLen : UInt32) :
    RoundTrip src dst dstLen ↔ 3 ∣ dstLen.toNat ∧ dstLen.toNat / 3 * 4 < 0x100000000 := by
  constructor
  · intro trip
    have bound := dstLen.toNat_lt
    have total := encodedLen_toNat dstLen
    obtain ⟨rounds, whole⟩ : 4 ∣ (encodedLen dstLen).toNat := by
      rw [total]
      split <;> omega
    obtain ⟨reads, ending⟩ := toBase64_reads src dst whole
    have length : 4 * rounds = (dstLen.toNat + 2) / 3 * 4 := by
      have text := congrArg List.length trip.text
      rwa [length_encode_given, Encoded.text, List.length_map, List.length_range, ending] at text
    have full : 3 ∣ dstLen.toNat := by
      by_contra rest
      have last : 3 * rounds - 1 ∈ (toBase64 src dst dstLen).reads := by
        rw [reads, List.mem_range]
        omega
      have inside := trip.reads _ last
      omega
    rw [if_pos full] at total
    exact ⟨full, by omega⟩
  · rintro ⟨full, fits⟩
    exact roundTrip_of_full full fits

/-- One byte, with a `0xff` behind it. -/
theorem roundTrip_fails :
    ¬RoundTrip (fun pos => if pos = 0 then 0x41 else 0xff) (fun _ => 0) 1 := by
  intro trip
  have reads := (toBase64_reads (fun pos => if pos = 0 then 0x41 else 0xff) (fun _ => 0)
    (by decide : (encodedLen 1).toNat = 4 * 1)).1
  have inside := trip.reads 2 (by rw [reads]; decide)
  exact absurd inside (by decide)

end SbFuzz.Fuzzer.RedqueenBase64
