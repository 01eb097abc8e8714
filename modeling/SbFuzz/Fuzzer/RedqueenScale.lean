import Mathlib.Algebra.Ring.Nat
import Mathlib.Data.List.Basic
import Mathlib.Data.Nat.Log

/-! The SCALE branches of `cmp_extend_encoding` and `cmp_extend_encodingN`. -/

set_option autoImplicit false

namespace SbFuzz.Fuzzer.Redqueen

/-! ## Bytes -/

/-- The `n` low bytes of a number, the lowest first. -/
def leBytes : Nat → Nat → List UInt8
  | 0, _ => []
  | n + 1, value => .ofNat value :: leBytes n (value / 256)

/-- `memcpy` to an offset of a buffer. -/
def overwrite (buf : List UInt8) (idx : Nat) (bytes : List UInt8) : List UInt8 :=
  buf.take idx ++ bytes ++ buf.drop (idx + bytes.length)

/-! ## The branches -/

/-- The loop over `tmp_val`, which has at most 16 bytes. -/
def countBytes : Nat → Nat → Nat
  | 0, _ => 0
  | rounds + 1, tmpVal => if tmpVal ≠ 0 then countBytes rounds (tmpVal >>> 8) + 1 else 0

/-- `scale_len` behind the loop. -/
def scaleLen (repl : Nat) : Nat := if 4 ≤ countBytes 16 repl then countBytes 16 repl - 4 else 0

/-- What a comparison asks for, as far as the branches read it. -/
structure Request (Value : Type) where
  repl : Value
  changedVal : Value
  attr : UInt8
  lvl : UInt8
  cmplogEnableScale : Bool
  buf : List UInt8
  idx : Nat
  taintLen : Nat

def isFp : UInt8 := 8

def lvl3 : UInt8 := 4

section

variable {Value : Type} (request : Request Value)

/-- `its_len` -/
def Request.itsLen : Nat := min (request.buf.length - request.idx) request.taintLen

def Request.Scales : Prop :=
  request.attr < isFp ∧ (request.cmplogEnableScale ∨ lvl3 ≤ request.lvl)

instance : Decidable request.Scales := inferInstanceAs (Decidable (_ ∧ _))

end

/-- `new_val` and `ilen`; nothing stands for `do_call = 0`. -/
def scaleMode (wordSize64 : Bool) (repl changedVal : UInt64) : Option (Nat × Nat) :=
  let newVal := repl <<< 2
  if changedVal ≤ 255 then some (newVal.toNat, 1)
  else if newVal ≤ 65535 then some ((newVal + 1).toNat, 2)
  else if newVal ≤ 4294967295 then some ((newVal + 2).toNat, 4)
  else if wordSize64 then
    some ((repl.toNat <<< 8) + ((scaleLen repl.toNat <<< 2) + 3), scaleLen repl.toNat + 5)
  else if repl ≤ 0x00ffffffffffffff then
    some (((repl <<< 8) + .ofNat ((scaleLen repl.toNat <<< 2) + 3)).toNat, scaleLen repl.toNat + 5)
  else none

/-- The buffer that `cmp_extend_encoding` runs in its SCALE branch. -/
def cmpExtendEncoding (wordSize64 : Bool) (request : Request UInt64) : Option (List UInt8) :=
  if request.Scales ∧ request.repl = request.changedVal then
    (scaleMode wordSize64 request.repl request.changedVal).bind fun (newVal, ilen) =>
      if ilen ≤ request.itsLen ∧ 1 < ilen then
        some (overwrite request.buf request.idx (leBytes ilen newVal))
      else none
  else none

def scaleModeN (repl : BitVec 128) : Option (Nat × Nat) :=
  let newVal := repl <<< 2
  if newVal ≤ 255 then some (newVal.toNat, 1)
  else if newVal ≤ 65535 then some ((newVal + 1).toNat, 2)
  else if newVal ≤ 4294967295 then some ((newVal + 2).toNat, 4)
  else if repl < 1 <<< 120 then
    some (((repl <<< 8) + .ofNat 128 ((scaleLen repl.toNat <<< 2) + 3)).toNat, scaleLen repl.toNat + 5)
  else none

/-- The buffer that `cmp_extend_encodingN` runs in its SCALE branch. -/
def cmpExtendEncodingN (request : Request (BitVec 128)) : Option (List UInt8) :=
  if request.Scales ∧ request.attr < 32 then
    (scaleModeN request.repl).bind fun (newVal, ilen) =>
      if ilen ≤ request.itsLen then
        some (overwrite request.buf request.idx (leBytes ilen newVal))
      else none
  else none

/-! ## The encoding -/

/-- The bytes that a number needs. -/
def byteLen (n : Nat) : Nat := Nat.log 256 n + 1

/-- The compact encoding of SCALE: the two low bits of the first byte are the mode. -/
def compact (n : Nat) : List UInt8 :=
  if n < 2 ^ 6 then leBytes 1 (4 * n)
  else if n < 2 ^ 14 then leBytes 2 (4 * n + 1)
  else if n < 2 ^ 30 then leBytes 4 (4 * n + 2)
  else .ofNat (4 * (byteLen n - 4) + 3) :: leBytes (byteLen n) n

theorem countBytes_eq {rounds n : Nat} (fits : n < 256 ^ rounds) :
    countBytes rounds n = if n = 0 then 0 else byteLen n := by
  induction rounds generalizing n with
  | zero =>
    have zero : n = 0 := by simpa using fits
    rw [countBytes, if_pos zero]
  | succ rounds ih =>
    have quotient : n >>> 8 = n / 256 := Nat.shiftRight_eq_div_pow n 8
    unfold countBytes
    by_cases zero : n = 0
    · rw [if_neg (not_not.mpr zero), if_pos zero]
    · have smaller : n / 256 < 256 ^ rounds := Nat.div_lt_of_lt_mul (by rwa [Nat.pow_succ'] at fits)
      rw [if_pos zero, if_neg zero, quotient, ih smaller]
      unfold byteLen
      by_cases small : n < 256
      · rw [if_pos (Nat.div_eq_of_lt small), Nat.log_of_lt small]
      · have more : n / 256 ≠ 0 := by omega
        rw [if_neg more, Nat.log_of_one_lt_of_le (by decide) (Nat.le_of_not_lt small)]

theorem byteLen_ge {n : Nat} (big : 2 ^ 30 ≤ n) : 4 ≤ byteLen n := by
  have large : 256 ^ 3 ≤ n := Nat.le_trans (by decide) big
  exact Nat.succ_le_succ (Nat.le_log_of_pow_le (by decide) large)

theorem scaleLen_eq {n : Nat} (big : 2 ^ 30 ≤ n) (fits : n < 2 ^ 128) : scaleLen n = byteLen n - 4 := by
  have some' : n ≠ 0 := by omega
  have counted : countBytes 16 n = byteLen n := by
    rw [countBytes_eq (Nat.lt_of_lt_of_le fits (by decide)), if_neg some']
  unfold scaleLen
  rw [counted, if_pos (byteLen_ge big)]

theorem shiftLeft_scaleLen {n : Nat} (big : 2 ^ 30 ≤ n) (fits : n < 2 ^ 128) :
    scaleLen n <<< 2 = 4 * (byteLen n - 4) := by
  rw [scaleLen_eq big fits, Nat.shiftLeft_eq, Nat.mul_comm]

theorem byteLen_le {n k : Nat} (fits : n < 256 ^ (k + 1)) : byteLen n ≤ k + 1 := by
  by_cases zero : n = 0
  · subst zero
    exact Nat.succ_le_succ (by simp)
  · exact Nat.succ_le_of_lt (Nat.log_lt_of_lt_pow zero fits)

theorem leBytes_mode (k : Nat) {mode : Nat} (small : mode < 256) (n : Nat) :
    leBytes (k + 1) (n <<< 8 + mode) = .ofNat mode :: leBytes k n := by
  have shifted : n <<< 8 = 256 * n := by rw [Nat.shiftLeft_eq, Nat.mul_comm]
  have low : UInt8.ofNat (256 * n + mode) = .ofNat mode := by
    apply UInt8.toNat_inj.mp
    rw [UInt8.toNat_ofNat', UInt8.toNat_ofNat']
    omega
  rw [leBytes, shifted, low, Nat.mul_add_div (by decide), Nat.div_eq_of_lt small, Nat.add_zero]

/-- The big-integer mode. -/
theorem leBytes_scaleLen {n : Nat} (big : 2 ^ 30 ≤ n) (fits : n < 2 ^ 128) :
    leBytes (scaleLen n + 5) (n <<< 8 + ((scaleLen n <<< 2) + 3)) = compact n := by
  have least := byteLen_ge big
  have most : byteLen n ≤ 16 := @byteLen_le n 15 (Nat.lt_of_lt_of_le fits (by decide))
  have length : byteLen n - 4 + 5 = byteLen n + 1 := by omega
  unfold compact
  rw [shiftLeft_scaleLen big fits, scaleLen_eq big fits, length, leBytes_mode _ (by omega), if_neg (by omega),
    if_neg (by omega), if_neg (by omega)]

/-! ## The 64-bit branch -/

theorem shiftLeft_two (repl : UInt64) : (repl <<< 2).toNat = 4 * repl.toNat % 2 ^ 64 := by
  rw [UInt64.toNat_shiftLeft]
  change repl.toNat <<< 2 % 2 ^ 64 = _
  rw [Nat.shiftLeft_eq, Nat.mul_comm]

/-- The top bits that the shift loses were all that kept the number out of a mode of fixed size. -/
def Lost (repl : UInt64) : Prop := 2 ^ 62 ≤ repl.toNat ∧ repl.toNat % 2 ^ 62 < 2 ^ 30

def lostLen (repl : UInt64) : Nat := if repl.toNat % 2 ^ 62 < 2 ^ 14 then 2 else 4

theorem scaleMode_compact {wordSize64 : Bool} {repl : UInt64} (kept : ¬ Lost repl)
    {newVal ilen : Nat} (mode : scaleMode wordSize64 repl repl = some (newVal, ilen))
    (long : 1 < ilen) : leBytes ilen newVal = compact repl.toNat := by
  have bound := repl.toNat_lt
  have shifted := shiftLeft_two repl
  unfold Lost at kept
  unfold scaleMode at mode
  dsimp only at mode
  split at mode
  · cases mode
    exact absurd long (Nat.lt_irrefl 1)
  · next large =>
    have above : 255 < repl.toNat := Nat.lt_of_not_le large
    split at mode
    · next two =>
      have small : (repl <<< 2).toNat ≤ 65535 := two
      have word : (repl <<< 2 + 1).toNat = 4 * repl.toNat + 1 := by
        rw [UInt64.toNat_add, UInt64.toNat_one]
        omega
      cases mode
      rw [word, compact, if_neg (by omega), if_pos (by omega)]
    · next notTwo =>
      have least : 65535 < (repl <<< 2).toNat := Nat.lt_of_not_le notTwo
      split at mode
      · next four =>
        have small : (repl <<< 2).toNat ≤ 4294967295 := four
        have two : (2 : UInt64).toNat = 2 := rfl
        have word : (repl <<< 2 + 2).toNat = 4 * repl.toNat + 2 := by
          rw [UInt64.toNat_add, two]
          omega
        cases mode
        rw [word, compact, if_neg (by omega), if_neg (by omega), if_pos (by omega)]
      · next notFour =>
        have big : 4294967295 < (repl <<< 2).toNat := Nat.lt_of_not_le notFour
        have big' : 2 ^ 30 ≤ repl.toNat := by omega
        split at mode
        · cases mode
          exact leBytes_scaleLen big' (by omega)
        · split at mode
          · next fits =>
            have short : repl.toNat < 2 ^ 56 := Nat.lt_succ_of_le fits
            have most : byteLen repl.toNat ≤ 7 := @byteLen_le _ 6 short
            have eight : (8 : UInt64).toNat % 64 = 8 := rfl
            have word : (repl <<< 8 + .ofNat ((scaleLen repl.toNat <<< 2) + 3)).toNat =
                repl.toNat <<< 8 + ((scaleLen repl.toNat <<< 2) + 3) := by
              rw [shiftLeft_scaleLen big' (by omega), UInt64.toNat_add, UInt64.toNat_shiftLeft, eight,
                UInt64.toNat_ofNat', Nat.shiftLeft_eq]
              omega
            cases mode
            rw [word]
            exact leBytes_scaleLen big' (by omega)
          · cases mode

theorem scaleMode_lost (wordSize64 : Bool) {repl : UInt64} (lost : Lost repl) :
    ∃ newVal, scaleMode wordSize64 repl repl = some (newVal, lostLen repl) ∧ newVal % 4 ≠ 3 := by
  have bound := repl.toNat_lt
  have shifted := shiftLeft_two repl
  obtain ⟨high, low⟩ := lost
  have large : ¬ repl ≤ 255 := fun small => by
    have above : repl.toNat ≤ 255 := small
    omega
  unfold scaleMode lostLen
  dsimp only
  rw [if_neg large]
  by_cases two : repl.toNat % 2 ^ 62 < 2 ^ 14
  · have small : repl <<< 2 ≤ 65535 := by
      change (repl <<< 2).toNat ≤ 65535
      omega
    refine ⟨_, by rw [if_pos small, if_pos two], ?_⟩
    rw [UInt64.toNat_add, UInt64.toNat_one]
    omega
  · have notSmall : ¬ repl <<< 2 ≤ 65535 := fun small => by
      have fits : (repl <<< 2).toNat ≤ 65535 := small
      omega
    have small : repl <<< 2 ≤ 4294967295 := by
      change (repl <<< 2).toNat ≤ 4294967295
      omega
    have two' : (2 : UInt64).toNat = 2 := rfl
    refine ⟨_, by rw [if_neg notSmall, if_pos small, if_neg two], ?_⟩
    rw [UInt64.toNat_add, two']
    omega

theorem overwrite_getElem? {buf : List UInt8} {idx : Nat} (inside : idx ≤ buf.length) (byte : UInt8)
    (bytes : List UInt8) : (overwrite buf idx (byte :: bytes))[idx]? = some byte := by
  have length : (buf.take idx).length = idx := by rw [List.length_take, Nat.min_eq_left inside]
  unfold overwrite
  rw [List.append_assoc, List.getElem?_append_right (Nat.le_of_eq length), length, Nat.sub_self]
  rfl

/-- A mode of fixed size does not look like a big integer. -/
theorem overwrite_ne_compact {buf : List UInt8} {idx n value k : Nat} (inside : idx ≤ buf.length)
    (big : 2 ^ 30 ≤ n) (mode : value % 4 ≠ 3) :
    overwrite buf idx (leBytes (k + 1) value) ≠ overwrite buf idx (compact n) := by
  intro same
  have here := congrArg (fun bytes => bytes[idx]?) same
  unfold compact at here
  rw [if_neg (by omega), if_neg (by omega), if_neg (by omega), leBytes] at here
  rw [overwrite_getElem? inside, overwrite_getElem? inside] at here
  have bits := congrArg UInt8.toNat (Option.some.inj here)
  rw [UInt8.toNat_ofNat', UInt8.toNat_ofNat'] at bits
  omega

/-! ## The 128-bit branch -/

theorem scaleModeN_compact {repl : BitVec 128} (small : repl.toNat < 2 ^ 126) {newVal ilen : Nat}
    (mode : scaleModeN repl = some (newVal, ilen)) : leBytes ilen newVal = compact repl.toNat := by
  have shifted : (repl <<< 2).toNat = 4 * repl.toNat := by
    rw [BitVec.toNat_shiftLeft, Nat.shiftLeft_eq]
    omega
  have one : (1 : BitVec 128).toNat = 1 := rfl
  have two : (2 : BitVec 128).toNat = 2 := rfl
  unfold scaleModeN at mode
  dsimp only at mode
  split at mode
  · next single =>
    have fits : (repl <<< 2).toNat ≤ 255 := single
    cases mode
    rw [shifted, compact, if_pos (by omega)]
  · next notSingle =>
    have least : 255 < (repl <<< 2).toNat := Nat.lt_of_not_le notSingle
    split at mode
    · next double =>
      have fits : (repl <<< 2).toNat ≤ 65535 := double
      have word : (repl <<< 2 + 1).toNat = 4 * repl.toNat + 1 := by
        rw [BitVec.toNat_add, one]
        omega
      cases mode
      rw [word, compact, if_neg (by omega), if_pos (by omega)]
    · next notDouble =>
      have least' : 65535 < (repl <<< 2).toNat := Nat.lt_of_not_le notDouble
      split at mode
      · next four =>
        have fits : (repl <<< 2).toNat ≤ 4294967295 := four
        have word : (repl <<< 2 + 2).toNat = 4 * repl.toNat + 2 := by
          rw [BitVec.toNat_add, two]
          omega
        cases mode
        rw [word, compact, if_neg (by omega), if_neg (by omega), if_pos (by omega)]
      · next notFour =>
        have big : 4294967295 < (repl <<< 2).toNat := Nat.lt_of_not_le notFour
        have big' : 2 ^ 30 ≤ repl.toNat := by omega
        split at mode
        · next fits =>
          have short : repl.toNat < 2 ^ 120 := fits
          have most : byteLen repl.toNat ≤ 15 := @byteLen_le _ 14 short
          have word : (repl <<< 8 + .ofNat 128 ((scaleLen repl.toNat <<< 2) + 3)).toNat =
              repl.toNat <<< 8 + ((scaleLen repl.toNat <<< 2) + 3) := by
            rw [shiftLeft_scaleLen big' (by omega), BitVec.toNat_add, BitVec.toNat_shiftLeft,
              BitVec.toNat_ofNat, Nat.shiftLeft_eq]
            omega
          cases mode
          rw [word]
          exact leBytes_scaleLen big' (by omega)
        · cases mode

theorem cmpExtendEncodingN_compact {request : Request (BitVec 128)}
    (small : request.repl.toNat < 2 ^ 126) {tried : List UInt8}
    (ran : cmpExtendEncodingN request = some tried) :
    tried = overwrite request.buf request.idx (compact request.repl.toNat) := by
  unfold cmpExtendEncodingN at ran
  split at ran
  · obtain ⟨⟨newVal, ilen⟩, mode, ran⟩ := Option.bind_eq_some_iff.mp ran
    dsimp only at ran
    split at ran
    · cases ran
      rw [scaleModeN_compact small mode]
    · cases ran
  · cases ran

/-! ## Both branches -/

/-- The request with values of 128 bits. -/
def Request.wide (request : Request UInt64) : Request (BitVec 128) :=
  { request with
    repl := .ofNat 128 request.repl.toNat
    changedVal := .ofNat 128 request.changedVal.toNat }

theorem Request.wide_repl (request : Request UInt64) :
    request.wide.repl.toNat = request.repl.toNat := by
  have bound := request.repl.toNat_lt
  exact (BitVec.toNat_ofNat ..).trans (Nat.mod_eq_of_lt (by omega))

/-- The branch for 64 bits runs the compact encoding unless it loses the top bits of a value that
is then taken for a small one, and that finds room. The branch for 128 bits always does. -/
theorem cmpExtendEncoding_compact_iff (wordSize64 : Bool) (request : Request UInt64) :
    (∀ tried, cmpExtendEncoding wordSize64 request = some tried →
        tried = overwrite request.buf request.idx (compact request.repl.toNat)) ∧
      (∀ tried, cmpExtendEncodingN request.wide = some tried →
        tried = overwrite request.buf request.idx (compact request.repl.toNat)) ↔
      ¬ (request.Scales ∧ request.repl = request.changedVal ∧ Lost request.repl ∧
        lostLen request.repl ≤ request.itsLen) := by
  have bound := request.repl.toNat_lt
  have wide : ∀ tried, cmpExtendEncodingN request.wide = some tried →
      tried = overwrite request.buf request.idx (compact request.repl.toNat) := by
    intro tried ran
    have compacted := cmpExtendEncodingN_compact (by rw [Request.wide_repl]; omega) ran
    rwa [Request.wide_repl] at compacted
  rw [and_iff_left wide]
  constructor
  · intro exact' ⟨scales, same, lost, room⟩
    obtain ⟨newVal, mode, small⟩ := scaleMode_lost wordSize64 lost
    have long : 1 < lostLen request.repl := by
      unfold lostLen
      split <;> decide
    have inside : request.idx ≤ request.buf.length := by
      unfold Request.itsLen at room
      omega
    have ran : cmpExtendEncoding wordSize64 request =
        some (overwrite request.buf request.idx (leBytes (lostLen request.repl) newVal)) := by
      unfold cmpExtendEncoding
      rw [if_pos ⟨scales, same⟩, ← same, mode, Option.bind_some]
      exact if_pos ⟨room, long⟩
    have compacted := exact' _ ran
    obtain ⟨k, length⟩ := Nat.exists_eq_succ_of_ne_zero (Nat.ne_of_gt (Nat.lt_of_succ_lt long))
    rw [length] at compacted
    have big : 2 ^ 30 ≤ request.repl.toNat := Nat.le_trans (by decide) lost.1
    exact overwrite_ne_compact inside big small compacted
  · intro kept tried ran
    unfold cmpExtendEncoding at ran
    split at ran
    · next admitted =>
      obtain ⟨⟨newVal, ilen⟩, mode, ran⟩ := Option.bind_eq_some_iff.mp ran
      rw [← admitted.2] at mode
      dsimp only at ran
      split at ran
      · next room =>
        cases ran
        by_cases lost : Lost request.repl
        · obtain ⟨lostVal, mode', _⟩ := scaleMode_lost wordSize64 lost
          rw [mode'] at mode
          cases mode
          exact absurd ⟨admitted.1, admitted.2, lost, room.1⟩ kept
        · rw [scaleMode_compact lost mode room.2]
      · cases ran
    · cases ran

/-- The value 2 ^ 62 in a comparison of eight bytes. -/
def topBit : Request UInt64 where
  repl := 0x4000000000000000
  changedVal := 0x4000000000000000
  attr := 1
  lvl := 4
  cmplogEnableScale := true
  buf := List.replicate 16 7
  idx := 0
  taintLen := 16

/-- It is run as the number 0 in two bytes. -/
theorem cmpExtendEncoding_topBit :
    cmpExtendEncoding true topBit = some (overwrite topBit.buf 0 [0x01, 0x00]) ∧
      overwrite topBit.buf 0 [0x01, 0x00] ≠ overwrite topBit.buf 0 (compact topBit.repl.toNat) := by
  refine ⟨rfl, ?_⟩
  exact @overwrite_ne_compact topBit.buf 0 topBit.repl.toNat 1 1 (by decide) (by decide) (by decide)

end SbFuzz.Fuzzer.Redqueen
