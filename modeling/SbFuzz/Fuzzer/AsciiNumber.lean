import SbFuzz.Fuzzer.Splicing
import Mathlib.Data.Nat.Digits.Defs
import Mathlib.Tactic.Ring

/-! The mutation `MUT_ASCIINUM` of a number in a test case, in the havoc stage of
`fuzz_one_original` and in `afl_mutate`. -/

set_option autoImplicit false

namespace SbFuzz.Fuzzer.AsciiNumber

open Splicing (randBelow)

/-! ## The run of digits -/

def isDigit (byte : UInt8) : Bool := 0x30 ≤ byte && byte ≤ 0x39

/-- A loop over the bytes that pass a test, in front of a position. -/
def skip (test : UInt8 → Bool) (buf : List UInt8) (stop : Nat) : Nat → Nat → Nat
  | 0, pos => pos
  | rounds + 1, pos =>
    if pos < stop ∧ buf[pos]?.any test then skip test buf stop rounds (pos + 1) else pos

/-- The first digit from an offset on; none found, the search wraps. -/
def locate (buf : List UInt8) (off : Nat) : Option Nat :=
  let found := skip (!isDigit ·) buf buf.length buf.length off
  if found = buf.length then
    let wrapped := skip (!isDigit ·) buf off off 0
    if wrapped = off then none else some wrapped
  else some found

/-- `off2`, behind the last digit. -/
def runEnd (buf : List UInt8) (off : Nat) : Nat := skip isDigit buf buf.length buf.length (off + 1)

def run (buf : List UInt8) (off off2 : Nat) : List UInt8 := (buf.drop off).take (off2 - off)

/-! ## The value -/

/-- An `s64`. -/
def wrap (value : Int) : Int := value.bmod (2 ^ 64)

def parseLoop : List UInt8 → Int → Int
  | [], val => val
  | byte :: bytes, val => parseLoop bytes (wrap (wrap (wrap (val * 10) + byte.toNat) - 0x30))

def parse : List UInt8 → Int
  | [] => 0
  | byte :: bytes => parseLoop bytes (byte.toNat - 0x30)

def signed (buf : List UInt8) (off off2 : Nat) : Int :=
  let val := parse (run buf off off2)
  if off ≠ 0 ∧ buf[off - 1]? = some 0x2D then wrap (-val) else val

/-- The switch over `strat`; the last random number is for its draws. -/
def change (strat : Nat) (random : Nat) (val : Int) : Int :=
  match strat with
  | 0 => wrap (val + 1)
  | 1 => wrap (val - 1)
  | 2 => wrap (val * 2)
  | 3 => val.tdiv 2
  | 4 =>
    if val ≠ 0 ∧ val % 2 ^ 64 < 0x19999999 then random % 2 ^ 64 % (val * 10)
    else randBelow 256 random
  | 5 => wrap (val + randBelow 256 random)
  | 6 => wrap (val - randBelow 256 random)
  | _ => -val - 1

/-! ## The replacement -/

/-- What `PRId64` prints. -/
def decimal (val : Int) : List UInt8 :=
  (if val < 0 then [0x2D] else []) ++ (Nat.toDigits 10 val.natAbs).map fun c => .ofNat c.toNat

/-- `snprintf` into a buffer of some size, up to the terminating zero. -/
def snprintf (size : Nat) (text : List UInt8) : List UInt8 := text.take (size - 1)

inductive Outcome where
  | kept
  | retry
  | replaced (buf : List UInt8)

structure Randoms where
  off : Nat
  strat : Nat
  value : Nat

def replace (buf : List UInt8) (off off2 : Nat) (numbuf : List UInt8) : List UInt8 :=
  let oldLen := off2 - off
  let newLen := numbuf.length
  if oldLen = newLen then buf.take off ++ numbuf ++ buf.drop (off + newLen)
  else buf.take off ++ numbuf ++ (buf.drop off2).take (buf.length - off2)

/-- The mutation, with a scratch buffer of some size. -/
def asciiNum (size : Nat) (buf : List UInt8) (randoms : Randoms) : Outcome :=
  if buf.length < 4 then .kept
  else
    match locate buf (randBelow buf.length randoms.off) with
    | none => if buf.length < 8 then .kept else .retry
    | some off =>
      let off2 := runEnd buf off
      let val := change (randBelow 8 randoms.strat) randoms.value (signed buf off off2)
      .replaced (replace buf off off2 (snprintf size (decimal val)))

/-- `char buf[20]` -/
def fuzzOneOriginal (buf : List UInt8) (randoms : Randoms) : Outcome := asciiNum 20 buf randoms

/-- The size is `sizeof(buf)`, of a pointer and not of the scratch buffer. -/
def aflMutate (buf : List UInt8) (randoms : Randoms) : Outcome := asciiNum 8 buf randoms

/-! ## The number that is meant -/

/-- The number that digits are written for. -/
def digitsValue (bytes : List UInt8) : Nat :=
  Nat.ofDigits 10 (bytes.reverse.map fun byte => byte.toNat - 0x30)

/-- The number in front of the mutation, with its sign, as far as 64 bits hold it. -/
def numberAt (buf : List UInt8) (off off2 : Nat) : Int :=
  let value : Int := digitsValue (run buf off off2)
  wrap (if off ≠ 0 ∧ buf[off - 1]? = some 0x2D then -value else value)

/-- The new number. -/
def newNumber (buf : List UInt8) (off off2 : Nat) (randoms : Randoms) : Int :=
  change (randBelow 8 randoms.strat) randoms.value (numberAt buf off off2)

/-! ## Loops -/

theorem skip_spec {test : UInt8 → Bool} {buf : List UInt8} {stop rounds pos : Nat}
    (before : pos ≤ stop) (enough : stop - pos ≤ rounds) :
    pos ≤ skip test buf stop rounds pos ∧ skip test buf stop rounds pos ≤ stop ∧
      (∀ k, pos ≤ k → k < skip test buf stop rounds pos → buf[k]?.any test = true) ∧
      (skip test buf stop rounds pos < stop → buf[skip test buf stop rounds pos]?.any test = false) := by
  induction rounds generalizing pos with
  | zero => exact ⟨Nat.le_refl _, before, fun k above below => by rw [skip] at below; omega,
      fun below => by rw [skip] at below; omega⟩
  | succ rounds ih =>
    unfold skip
    split
    · next passes =>
      obtain ⟨above, inside, all, stops⟩ := ih (by omega : pos + 1 ≤ stop) (by omega)
      refine ⟨by omega, inside, fun k after below => ?_, stops⟩
      rcases Nat.eq_or_lt_of_le after with rfl | later
      · exact passes.2
      · exact all k later below
    · next stops =>
      exact ⟨Nat.le_refl _, before, fun k above below => by omega, fun below =>
        Bool.eq_false_iff.mpr fun passes => stops ⟨below, passes⟩⟩

/-- What is located is a digit. -/
theorem isDigit_of_locate {buf : List UInt8} {off found : Nat} (inside : off < buf.length)
    (located : locate buf off = some found) :
    found < buf.length ∧ buf[found]?.any isDigit = true := by
  have digit {pos : Nat} (bound : pos < buf.length) (stops : buf[pos]?.any (!isDigit ·) = false) :
      buf[pos]?.any isDigit = true := by
    rw [List.getElem?_eq_getElem bound, Option.any_some] at stops ⊢
    exact Bool.not_eq_false' .. ▸ stops
  obtain ⟨_, bound, _, stops⟩ := @skip_spec (!isDigit ·) buf buf.length buf.length off
    (Nat.le_of_lt inside) (Nat.sub_le _ _)
  obtain ⟨_, bound', _, stops'⟩ := @skip_spec (!isDigit ·) buf off off 0 (Nat.zero_le _) (Nat.le_refl _)
  unfold locate at located
  dsimp only at located
  split at located
  · split at located
    · cases located
    · next some' =>
      cases located
      exact ⟨by omega, digit (by omega) (stops' (by omega))⟩
  · next some' =>
    cases located
    exact ⟨by omega, digit (by omega) (stops (by omega))⟩

/-- The run is made of digits, and no digit follows it. -/
theorem run_digits {buf : List UInt8} {off : Nat} (inside : off < buf.length)
    (digit : buf[off]?.any isDigit = true) :
    off < runEnd buf off ∧ runEnd buf off ≤ buf.length ∧
      (∀ byte ∈ run buf off (runEnd buf off), isDigit byte = true) ∧
      buf[runEnd buf off]?.any isDigit = false := by
  obtain ⟨above, bound, all, stops⟩ := @skip_spec isDigit buf buf.length buf.length (off + 1)
    inside (Nat.sub_le _ _)
  refine ⟨above, bound, fun byte member => ?_, ?_⟩
  · obtain ⟨k, here⟩ := List.mem_iff_getElem?.mp member
    unfold run at here
    obtain ⟨short, _⟩ := List.getElem?_eq_some_iff.mp here
    rw [List.length_take] at short
    rw [List.getElem?_take_of_lt (by omega), List.getElem?_drop] at here
    have passes : buf[off + k]?.any isDigit = true := by
      rcases Nat.eq_zero_or_pos k with rfl | positive
      · exact digit
      · unfold runEnd at short
        exact all _ (by omega) (by omega)
    rwa [here] at passes
  · rcases Nat.lt_or_eq_of_le bound with below | last
    · exact stops below
    · unfold runEnd
      rw [last, List.getElem?_eq_none (Nat.le_refl _)]
      rfl

/-! ## Numbers -/

theorem wrap_step (val next : Int) (factor : Int) :
    wrap (wrap val * factor + next) = wrap (val * factor + next) := by
  unfold wrap
  rw [← Int.bmod_add_bmod, Int.bmod_mul_bmod, Int.bmod_add_bmod]

theorem digitsValue_cons (byte : UInt8) (bytes : List UInt8) :
    digitsValue (byte :: bytes) = digitsValue bytes + 10 ^ bytes.length * (byte.toNat - 0x30) := by
  unfold digitsValue
  rw [List.reverse_cons, List.map_append, Nat.ofDigits_append, List.length_map, List.length_reverse,
    List.map_singleton, Nat.ofDigits_singleton]

theorem toNat_of_isDigit {byte : UInt8} (digit : isDigit byte = true) :
    0x30 ≤ byte.toNat ∧ byte.toNat ≤ 0x39 := by
  obtain ⟨low, high⟩ := Bool.and_eq_true_iff.mp digit
  exact ⟨UInt8.le_iff_toNat_le.mp (of_decide_eq_true low),
    UInt8.le_iff_toNat_le.mp (of_decide_eq_true high)⟩

theorem parseLoop_eq {bytes : List UInt8} (digits : ∀ byte ∈ bytes, isDigit byte = true) {val : Int}
    (held : wrap val = val) :
    parseLoop bytes val = wrap (val * 10 ^ bytes.length + digitsValue bytes) := by
  induction bytes generalizing val with
  | nil =>
    have none' : digitsValue [] = 0 := rfl
    rw [parseLoop, List.length_nil, pow_zero, mul_one, none', Nat.cast_zero, add_zero, held]
  | cons byte bytes ih =>
    have value := (toNat_of_isDigit (digits byte List.mem_cons_self)).1
    have digit : ((byte.toNat - 0x30 : Nat) : Int) = (byte.toNat : Int) - 0x30 := by omega
    have inner : wrap (wrap (wrap (val * 10) + byte.toNat) - 0x30) =
        wrap (val * 10 + ((byte.toNat - 0x30 : Nat) : Int)) := by
      unfold wrap
      rw [Int.bmod_sub_bmod, Int.sub_eq_add_neg, Int.add_assoc, Int.bmod_add_bmod, digit,
        ← Int.sub_eq_add_neg]
    have fixed (n : Int) : wrap (wrap n) = wrap n := Int.bmod_bmod
    rw [parseLoop, ih (fun other member => digits other (List.mem_cons_of_mem _ member)) (fixed _),
      inner, wrap_step, digitsValue_cons, List.length_cons]
    refine congrArg wrap ?_
    push_cast
    ring

theorem parse_eq {bytes : List UInt8} (digits : ∀ byte ∈ bytes, isDigit byte = true) :
    parse bytes = wrap (digitsValue bytes) := by
  cases bytes with
  | nil => rfl
  | cons byte bytes =>
    have value := toNat_of_isDigit (digits byte List.mem_cons_self)
    have digit : ((byte.toNat - 0x30 : Nat) : Int) = (byte.toNat : Int) - 0x30 := by omega
    have held : wrap ((byte.toNat : Int) - 0x30) = (byte.toNat : Int) - 0x30 :=
      Int.bmod_eq_of_le (by omega) (by omega)
    rw [parse, parseLoop_eq (fun other member => digits other (List.mem_cons_of_mem _ member)) held,
      digitsValue_cons]
    refine congrArg wrap ?_
    rw [← digit]
    push_cast
    ring

theorem signed_eq {buf : List UInt8} {off off2 : Nat}
    (digits : ∀ byte ∈ run buf off off2, isDigit byte = true) :
    signed buf off off2 = numberAt buf off off2 := by
  unfold signed numberAt
  dsimp only
  rw [parse_eq digits]
  split
  · unfold wrap
    exact Int.bmod_neg_bmod
  · rfl

theorem wrap_range (val : Int) : -2 ^ 63 ≤ wrap val ∧ wrap val < 2 ^ 63 :=
  ⟨Int.le_bmod (by decide), Int.bmod_lt (by decide)⟩

theorem randBelow_256 (random : Nat) : randBelow 256 random < 256 :=
  Splicing.randBelow_lt (by decide) random

theorem change_range {val : Int} (held : -2 ^ 63 ≤ val ∧ val < 2 ^ 63) (strat random : Nat) :
    -2 ^ 63 ≤ change strat random val ∧ change strat random val < 2 ^ 63 := by
  have drawn := randBelow_256 random
  unfold change
  split
  · exact wrap_range _
  · exact wrap_range _
  · exact wrap_range _
  · -- The quotient is rounded towards 0.
    rcases Int.le_total 0 val with above | below
    · rw [Int.tdiv_eq_ediv_of_nonneg above]
      omega
    · have opposite := Int.neg_tdiv val 2
      rw [Int.tdiv_eq_ediv_of_nonneg (by omega)] at opposite
      omega
  · split
    · next small =>
      have positive : 0 < val * 10 := by omega
      have low := Int.emod_nonneg ((random : Int) % 2 ^ 64) (Int.ne_of_gt positive)
      have high := Int.emod_lt_of_pos ((random : Int) % 2 ^ 64) positive
      omega
    · omega
  · exact wrap_range _
  · exact wrap_range _
  · omega

theorem decimal_length_le (val : Int) {k : Nat} (positive : 0 < k) :
    (decimal val).length ≤ k + 1 ↔ -10 ^ k < val ∧ val < 10 ^ (k + 1) := by
  unfold decimal
  rw [List.length_append, List.length_map]
  by_cases negative : val < 0
  · rw [if_pos negative, List.length_singleton, Nat.add_comm 1, Nat.add_le_add_iff_right,
      Nat.length_toDigits_le_iff (by decide) positive]
    have power : ((10 ^ k : Nat) : Int) = 10 ^ k := by push_cast; rfl
    have power' : (0 : Int) < 10 ^ (k + 1) := by positivity
    omega
  · rw [if_neg negative, List.length_nil, Nat.zero_add,
      Nat.length_toDigits_le_iff (by decide) (Nat.succ_pos k)]
    have power : ((10 ^ (k + 1) : Nat) : Int) = 10 ^ (k + 1) := by push_cast; rfl
    have power' : (0 : Int) < 10 ^ k := by positivity
    omega

/-! ## The mutation -/

theorem replace_eq {buf : List UInt8} {off off2 : Nat} (ordered : off ≤ off2) (numbuf : List UInt8) :
    replace buf off off2 numbuf = buf.take off ++ numbuf ++ buf.drop off2 := by
  unfold replace
  dsimp only
  split
  · next same =>
    have sum : off + numbuf.length = off2 := by omega
    rw [sum]
  · rw [List.take_of_length_le (Nat.le_of_eq (List.length_drop ..))]

theorem Outcome.replaced_inj {left right : List UInt8} :
    Outcome.replaced left = .replaced right ↔ left = right :=
  ⟨fun same => Outcome.replaced.inj same, congrArg _⟩

/-- The run is replaced by the whole number exactly when this fits in the scratch buffer. -/
theorem asciiNum_iff (size : Nat) {buf : List UInt8} {randoms : Randoms} {off : Nat}
    (long : 4 ≤ buf.length) (located : locate buf (randBelow buf.length randoms.off) = some off) :
    asciiNum size buf randoms = .replaced (buf.take off ++
        decimal (newNumber buf off (runEnd buf off) randoms) ++ buf.drop (runEnd buf off)) ↔
      (decimal (newNumber buf off (runEnd buf off) randoms)).length ≤ size - 1 := by
  obtain ⟨inside, digit⟩ :=
    isDigit_of_locate (Splicing.randBelow_lt (by omega) randoms.off) located
  obtain ⟨ordered, _, digits, _⟩ := run_digits inside digit
  have mutates : asciiNum size buf randoms = .replaced (buf.take off ++
      snprintf size (decimal (newNumber buf off (runEnd buf off) randoms)) ++
      buf.drop (runEnd buf off)) := by
    unfold asciiNum newNumber
    rw [if_neg (by omega), located, ← signed_eq digits]
    exact congrArg Outcome.replaced (replace_eq (Nat.le_of_lt ordered) _)
  rw [mutates, Outcome.replaced_inj]
  unfold snprintf
  constructor
  · intro same
    have lengths := congrArg List.length same
    simp only [List.length_append, List.length_take] at lengths
    omega
  · intro fits
    rw [List.take_of_length_le fits]

/-- In both copies the run that is replaced is one of digits; the number that takes its place is
complete in the havoc stage unless it has 20 characters, and in `afl_mutate` up to 7. -/
theorem asciiNum_complete_iff {buf : List UInt8} {randoms : Randoms} {off : Nat}
    (long : 4 ≤ buf.length) (located : locate buf (randBelow buf.length randoms.off) = some off) :
    ((∀ byte ∈ run buf off (runEnd buf off), isDigit byte = true) ∧
        fuzzOneOriginal buf randoms = .replaced (buf.take off ++
          decimal (newNumber buf off (runEnd buf off) randoms) ++ buf.drop (runEnd buf off)) ↔
      -10 ^ 18 < newNumber buf off (runEnd buf off) randoms) ∧
    ((∀ byte ∈ run buf off (runEnd buf off), isDigit byte = true) ∧
        aflMutate buf randoms = .replaced (buf.take off ++
          decimal (newNumber buf off (runEnd buf off) randoms) ++ buf.drop (runEnd buf off)) ↔
      -10 ^ 6 < newNumber buf off (runEnd buf off) randoms ∧
        newNumber buf off (runEnd buf off) randoms < 10 ^ 7) := by
  obtain ⟨inside, digit⟩ :=
    isDigit_of_locate (Splicing.randBelow_lt (by omega) randoms.off) located
  obtain ⟨_, _, digits, _⟩ := run_digits inside digit
  have held : -2 ^ 63 ≤ newNumber buf off (runEnd buf off) randoms ∧
      newNumber buf off (runEnd buf off) randoms < 2 ^ 63 := change_range (wrap_range _) _ _
  rw [and_iff_right digits, and_iff_right digits]
  constructor
  · refine (asciiNum_iff 20 long located).trans ?_
    rw [decimal_length_le _ (by decide)]
    exact and_iff_left (Int.lt_of_lt_of_le held.2 (by decide))
  · refine (asciiNum_iff 8 long located).trans ?_
    exact decimal_length_le _ (by decide)

/-- The number 41 in a text is incremented. -/
theorem asciiNum_complete_iff_increment :
    (∀ byte ∈ run [0x78, 0x3D, 0x34, 0x31] 2 4, isDigit byte = true) ∧
      fuzzOneOriginal [0x78, 0x3D, 0x34, 0x31] ⟨0, 0, 0⟩ =
        .replaced ([0x78, 0x3D] ++ decimal 42 ++ []) :=
  (@asciiNum_complete_iff [0x78, 0x3D, 0x34, 0x31] ⟨0, 0, 0⟩ 2 (by decide) rfl).1.mpr (by decide)

set_option maxRecDepth 4000 in
/-- In `afl_mutate` the number 12345678 loses its last digit, and in the havoc stage the number
-1000000000000000001 does. -/
theorem asciiNum_truncates :
    aflMutate [0x31, 0x32, 0x33, 0x34, 0x35, 0x36, 0x37, 0x37] ⟨0, 0, 0⟩ =
        .replaced [0x31, 0x32, 0x33, 0x34, 0x35, 0x36, 0x37] ∧
      decimal (newNumber [0x31, 0x32, 0x33, 0x34, 0x35, 0x36, 0x37, 0x37] 0 8 ⟨0, 0, 0⟩) =
        [0x31, 0x32, 0x33, 0x34, 0x35, 0x36, 0x37, 0x38] ∧
      fuzzOneOriginal (0x31 :: List.replicate 18 0x30) ⟨0, 7, 0⟩ =
        .replaced (0x2D :: 0x31 :: List.replicate 17 0x30) ∧
      decimal (newNumber (0x31 :: List.replicate 18 0x30) 0 19 ⟨0, 7, 0⟩) =
        0x2D :: 0x31 :: List.replicate 17 0x30 ++ [0x31] := by
  refine ⟨rfl, by decide, rfl, by decide⟩

end SbFuzz.Fuzzer.AsciiNumber
