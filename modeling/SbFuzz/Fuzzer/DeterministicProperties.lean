import Mathlib.Data.Nat.Factorization.Basic
import SbFuzz.Fuzzer.Deterministic

/-! What the deterministic stages leave out as covered is run by others, unless the
bits that change lie across the border of two bytes. -/

set_option autoImplicit false

namespace SbFuzz.Fuzzer.Deterministic

open Memory

/-! ## Patterns -/

/-- What is taken for a flip of bits that begin at bit `sh`. -/
def Pattern (p sh : Nat) : Prop :=
  p = 1 ∨ p = 3 ∨ p = 15 ∨ sh % 8 = 0 ∧ (p = 0xff ∨ p = 0xffff ∨ p = 0xffffffff)

instance (p sh : Nat) : Decidable (Pattern p sh) :=
  inferInstanceAs (Decidable (_ ∨ _ ∨ _ ∨ _ ∧ (_ ∨ _ ∨ _)))

theorem Pattern.odd {p sh : Nat} (pattern : Pattern p sh) : p % 2 = 1 := by
  unfold Pattern at pattern
  omega

theorem shiftOut_shiftLeft {p : Nat} (odd : p % 2 = 1) (sh k : Nat) :
    shiftOut sh (p <<< k) = (sh + k, p) := by
  induction k generalizing sh with
  | zero =>
      rw [Nat.shiftLeft_zero, shiftOut, if_pos (.inr odd)]
      rfl
  | succ k ih =>
      have half : (p <<< (k + 1)) / 2 = p <<< k := by
        rw [Nat.shiftLeft_succ]
        omega
      have positive : p <<< k ≠ 0 := by
        rw [Nat.shiftLeft_eq]
        exact Nat.mul_ne_zero (by omega) (Nat.ne_of_gt (Nat.two_pow_pos k))
      have low : ¬ (p <<< (k + 1) = 0 ∨ p <<< (k + 1) % 2 = 1) := by
        rw [Nat.shiftLeft_succ]
        omega
      rw [shiftOut, if_neg low, half, ih, Nat.add_assoc, Nat.add_comm 1 k]

theorem couldBeBitflip_shiftLeft {p : Nat} (odd : p % 2 = 1) (k : Nat) :
    couldBeBitflip (p <<< k) = decide (Pattern p k) := by
  have positive : p <<< k ≠ 0 := by
    rw [Nat.shiftLeft_eq]
    exact Nat.mul_ne_zero (by omega) (Nat.ne_of_gt (Nat.two_pow_pos k))
  unfold couldBeBitflip
  rw [if_neg positive, shiftOut_shiftLeft odd, Nat.zero_add]
  dsimp only
  rw [Bool.eq_iff_iff, decide_eq_true_iff]
  unfold Pattern
  split
  · next anywhere =>
    refine iff_of_true rfl ?_
    omega
  · next other =>
    split
    · next unaligned =>
      refine iff_of_false Bool.false_ne_true ?_
      omega
    · next aligned =>
      rw [decide_eq_true_iff]
      omega

theorem exists_odd_shiftLeft {x : Nat} (positive : x ≠ 0) : ∃ p k, p % 2 = 1 ∧ x = p <<< k := by
  obtain ⟨k, p, odd, rfl⟩ := Nat.exists_eq_two_pow_mul_odd positive
  exact ⟨p, k, Nat.odd_iff.mp odd, by rw [Nat.shiftLeft_eq, Nat.mul_comm]⟩

theorem couldBeBitflip_zero : couldBeBitflip 0 = true := rfl

theorem couldBeBitflip_cases {x : Nat} (flip : couldBeBitflip x = true) :
    x = 0 ∨ ∃ p sh, Pattern p sh ∧ x = p <<< sh := by
  by_cases zero : x = 0
  · exact .inl zero
  · obtain ⟨p, k, odd, rfl⟩ := exists_odd_shiftLeft zero
    rw [couldBeBitflip_shiftLeft odd, decide_eq_true_iff] at flip
    exact .inr ⟨p, k, flip, rfl⟩

theorem couldBeBitflip_bytes (x q : Nat) : couldBeBitflip (x <<< (8 * q)) = couldBeBitflip x := by
  by_cases zero : x = 0
  · rw [zero, Nat.zero_shiftLeft]
  · obtain ⟨p, k, odd, rfl⟩ := exists_odd_shiftLeft zero
    have same : Pattern p (k + 8 * q) ↔ Pattern p k := by
      unfold Pattern
      omega
    rw [← Nat.shiftLeft_add, couldBeBitflip_shiftLeft odd, couldBeBitflip_shiftLeft odd,
      decide_eq_decide.mpr same]

/-! ## Runs of bits across the border of two bytes -/

/-- Two or four bits, the highest of one byte and the lowest of the next. -/
def crossings : List Nat := [0x180, 0x1e0, 0x3c0, 0x780]

def AcrossBytes (mask : Nat) : Prop := ∃ k, ∃ m ∈ crossings, mask = m <<< (8 * k)

theorem crossings_spec : ∀ m ∈ crossings, m % 256 ≠ 0 ∧ 256 < m ∧ m < 2 ^ 11 ∧ ∃ p k,
    (p = 3 ∨ p = 15) ∧ m = p <<< k := by
  intro m member
  have finite : ∀ m ∈ crossings, m % 256 ≠ 0 ∧ 256 < m ∧ m < 2 ^ 11 := by decide
  obtain ⟨low, large, small⟩ := finite m member
  refine ⟨low, large, small, ?_⟩
  simp only [crossings, List.mem_cons, List.not_mem_nil, or_false] at member
  rcases member with rfl | rfl | rfl | rfl
  · exact ⟨3, 7, .inl rfl, rfl⟩
  · exact ⟨15, 5, .inr rfl, rfl⟩
  · exact ⟨15, 6, .inr rfl, rfl⟩
  · exact ⟨15, 7, .inr rfl, rfl⟩

theorem AcrossBytes.couldBeBitflip {mask : Nat} (across : AcrossBytes mask) :
    couldBeBitflip mask = true := by
  obtain ⟨k, m, member, rfl⟩ := across
  obtain ⟨-, -, -, p, sh, pattern, rfl⟩ := crossings_spec m member
  rw [couldBeBitflip_bytes, couldBeBitflip_shiftLeft (by omega), decide_eq_true_iff]
  unfold Pattern
  omega

theorem le_of_shiftLeft_bytes {x y i k : Nat} (low : x % 256 ≠ 0)
    (same : x <<< (8 * i) = y <<< (8 * k)) : k ≤ i := by
  by_contra apart
  obtain ⟨d, rfl⟩ := Nat.exists_eq_add_of_lt (Nat.lt_of_not_le apart)
  have exponent : 8 * (i + d + 1) = 8 * i + (8 + 8 * d) := by omega
  rw [exponent, Nat.shiftLeft_eq, Nat.shiftLeft_eq, Nat.pow_add, ← Nat.mul_assoc,
    Nat.mul_right_comm] at same
  have cancelled := Nat.eq_of_mul_eq_mul_right (Nat.two_pow_pos _) same
  rw [Nat.pow_add] at cancelled
  refine low ?_
  rw [cancelled, Nat.mul_left_comm]
  exact Nat.mul_mod_right _ _

theorem shiftLeft_bytes_inj {x y i k : Nat} (lowX : x % 256 ≠ 0) (lowY : y % 256 ≠ 0)
    (same : x <<< (8 * i) = y <<< (8 * k)) : x = y ∧ i = k := by
  have equal : i = k :=
    Nat.le_antisymm (le_of_shiftLeft_bytes lowY same.symm) (le_of_shiftLeft_bytes lowX same)
  subst equal
  rw [Nat.shiftLeft_eq, Nat.shiftLeft_eq] at same
  exact ⟨Nat.eq_of_mul_eq_mul_right (Nat.two_pow_pos _) same, rfl⟩

/-! ## Flips -/

section

variable {input : List UInt8}

theorem xorWord_differs {n i mask : Nat} (inside : i + n ≤ input.length)
    (fits : mask < 2 ^ (8 * n)) :
    Differs input (store n input i (load n input i ^^^ mask)) (mask <<< (8 * i)) := by
  have differs := Differs.store inside (Nat.xor_lt_two_pow (load_lt n input i) fits)
  rwa [← Nat.xor_assoc, Nat.xor_self, Nat.zero_xor] at differs

def bitMask (b : Nat) : Nat := (128 >>> (b % 8)) <<< (8 * (b / 8))

def bitsMask (count b : Nat) : Nat :=
  (List.range count).foldl (fun mask k => mask ^^^ bitMask (b + k)) 0

theorem flipBit_differs {b : Nat} (inside : b < 8 * input.length) :
    Differs input (flipBit input b) (bitMask b) := by
  refine xorWord_differs (by omega) ?_
  have all : ∀ s < 8, 128 >>> s < 2 ^ (8 * 1) := by decide
  exact all (b % 8) (Nat.mod_lt b (by decide))

theorem flipBits_differs {count b : Nat} (inside : b + count ≤ 8 * input.length) :
    Differs input (flipBits count input b) (bitsMask count b) := by
  induction count with
  | zero => exact .refl input
  | succ count ih =>
      have before := ih (by omega)
      unfold flipBits bitsMask at before ⊢
      rw [List.range_succ, List.foldl_append, List.foldl_append]
      refine before.trans (flipBit_differs ?_)
      rw [before.length]
      omega

theorem flipBits_flipBits {count b : Nat} (inside : b + count ≤ 8 * input.length) :
    flipBits count (flipBits count input b) b = input := by
  have once := flipBits_differs inside
  have twice := once.trans (flipBits_differs (once.length.symm ▸ inside))
  rw [Nat.xor_self] at twice
  exact twice.unique (.refl input)

theorem flipWord_differs {n i : Nat} (inside : i + n ≤ input.length) :
    Differs input (flipWord n input i) ((2 ^ (8 * n) - 1) <<< (8 * i)) :=
  xorWord_differs inside (Nat.sub_lt (Nat.two_pow_pos _) Nat.one_pos)

theorem flipWord_flipWord {n i : Nat} (inside : i + n ≤ input.length) :
    flipWord n (flipWord n input i) i = input := by
  have once := flipWord_differs inside
  have twice := once.trans (flipWord_differs (once.length.symm ▸ inside))
  rw [Nat.xor_self] at twice
  exact twice.unique (.refl input)

/-! ## Stages put back what they overwrite -/

theorem foldl_attempts {step : State → Nat → State} {made : Nat → List Attempt}
    {positions : List Nat}
    (each : ∀ i ∈ positions, ∀ s : State, s.outBuf = input →
      step s i = ⟨input, s.attempts ++ made i⟩)
    {s : State} (intact : s.outBuf = input) :
    positions.foldl step s = ⟨input, s.attempts ++ positions.flatMap made⟩ := by
  induction positions generalizing s with
  | nil =>
      subst intact
      rw [List.foldl_nil, List.flatMap_nil, List.append_nil]
  | cons i positions ih =>
      rw [List.foldl_cons, each i List.mem_cons_self s intact,
        ih (fun i member => each i (List.mem_cons_of_mem _ member)) rfl, List.flatMap_cons,
        List.append_assoc]

def walkedBits (count : Nat) (input : List UInt8) : List Attempt :=
  (List.range (8 * input.length - (count - 1))).flatMap fun b =>
    [.executed (flipBits count input b)]

def walkedBytes (n : Nat) (input : List UInt8) : List Attempt :=
  (List.range (input.length + 1 - n)).flatMap fun i => [.executed (flipWord n input i)]

/-- What becomes of a candidate. -/
def Try.made (n : Nat) (input : List UInt8) (i : Nat) (candidate : Try) : Attempt :=
  if candidate.covered then .skipped (store n input i candidate.value)
  else .executed (store n input i candidate.value)

def replaced (n : Nat) (tries : Nat → List Try) (input : List UInt8) : List Attempt :=
  (List.range (input.length + 1 - n)).flatMap fun i =>
    (tries (load n input i)).map (Try.made n input i)

theorem walkingBits_spec {count : Nat} (positive : 0 < count) {s : State}
    (intact : s.outBuf = input) :
    walkingBits count s = ⟨input, s.attempts ++ walkedBits count input⟩ := by
  unfold walkingBits
  rw [intact]
  refine foldl_attempts (fun b member s same => ?_) intact
  have inside : b + count ≤ 8 * input.length := by
    have below := List.mem_range.mp member
    omega
  unfold commonFuzzStuff
  dsimp only
  rw [same, flipBits_flipBits inside]

theorem walkingBytes_spec {n : Nat} {s : State} (intact : s.outBuf = input) :
    walkingBytes n s = ⟨input, s.attempts ++ walkedBytes n input⟩ := by
  unfold walkingBytes
  rw [intact]
  refine foldl_attempts (fun i member s same => ?_) intact
  have inside : i + n ≤ input.length := by
    have below := List.mem_range.mp member
    omega
  unfold commonFuzzStuff
  dsimp only
  rw [same, flipWord_flipWord inside]

/-- However many candidates are tried, only the word has been overwritten. -/
theorem foldl_attempt {n i : Nat} (inside : i + n ≤ input.length) (candidates : List Try)
    {s : State} {v : Nat} (intact : s.outBuf = store n input i v) :
    ∃ w, candidates.foldl (attempt n i) s =
      ⟨store n input i w, s.attempts ++ candidates.map (Try.made n input i)⟩ := by
  induction candidates generalizing s v with
  | nil => exact ⟨v, by rw [List.foldl_nil, List.map_nil, List.append_nil, ← intact]⟩
  | cons candidate candidates ih =>
      have one : ∃ w, attempt n i s candidate =
          ⟨store n input i w, s.attempts ++ [candidate.made n input i]⟩ := by
        unfold attempt Try.made commonFuzzStuff
        rw [intact]
        dsimp only
        rw [store_store inside]
        split
        · exact ⟨v, rfl⟩
        · exact ⟨candidate.value, rfl⟩
      obtain ⟨w, one⟩ := one
      obtain ⟨last, rest⟩ := @ih ⟨store n input i w, _⟩ w rfl
      refine ⟨last, ?_⟩
      rw [List.foldl_cons, one, rest, List.map_cons, List.append_assoc]
      rfl

theorem replaceWords_spec {n : Nat} {tries : Nat → List Try} {s : State}
    (intact : s.outBuf = input) :
    replaceWords n tries s = ⟨input, s.attempts ++ replaced n tries input⟩ := by
  unfold replaceWords
  rw [intact]
  refine foldl_attempts (fun i member s same => ?_) intact
  have inside : i + n ≤ input.length := by
    have below := List.mem_range.mp member
    omega
  have start : s.outBuf = store n input i (load n input i) := by rw [same, store_load inside]
  obtain ⟨w, tried⟩ := foldl_attempt inside (tries (load n input i)) start
  rw [same, tried]
  dsimp only
  rw [store_restore inside]

def flips (input : List UInt8) : List Attempt :=
  .executed input :: (walkedBits 1 input ++ walkedBits 2 input ++ walkedBits 4 input ++
    walkedBytes 1 input ++ walkedBytes 2 input ++ walkedBytes 4 input)

theorem attempts_eq (noArith : Bool) (input : List UInt8) : attempts noArith input =
    flips input ++
      (if noArith then []
        else replaced 1 arith8 input ++ replaced 2 arith16 input ++ replaced 4 arith32 input) ++
      replaced 1 int8 input ++
      (if noArith then [] else replaced 2 int16 input ++ replaced 4 int32 input) := by
  have flipped : simpleBitflip ⟨input, []⟩ = ⟨input, flips input⟩ := by
    unfold simpleBitflip
    rw [walkingBits_spec Nat.one_pos rfl, walkingBits_spec Nat.two_pos rfl,
      walkingBits_spec (by decide) rfl, walkingBytes_spec rfl, walkingBytes_spec rfl,
      walkingBytes_spec rfl]
    simp only [commonFuzzStuff, flips, List.nil_append, List.append_assoc, List.cons_append]
  unfold attempts arithmeticIncDec interestingValues
  rw [flipped]
  cases noArith with
  | true => simp [replaceWords_spec]
  | false => simp [replaceWords_spec]

/-! ## What is run -/

/-- A buffer that differs in the mask is run. -/
def Runs (noArith : Bool) (input : List UInt8) (mask : Nat) : Prop :=
  ∃ c, .executed c ∈ attempts noArith input ∧ Differs input c mask

theorem mem_flips {noArith : Bool} {a : Attempt} (member : a ∈ flips input) :
    a ∈ attempts noArith input := by
  rw [attempts_eq]
  exact List.mem_append_left _ (List.mem_append_left _ (List.mem_append_left _ member))

theorem runs_walkedBits {noArith : Bool} {count b : Nat} (inside : b + count ≤ 8 * input.length)
    (positive : 0 < count) (stage : ∀ a ∈ walkedBits count input, a ∈ flips input) :
    Runs noArith input (bitsMask count b) := by
  refine ⟨_, mem_flips (stage _ ?_), flipBits_differs inside⟩
  exact List.mem_flatMap.mpr ⟨b, List.mem_range.mpr (by omega), List.mem_singleton.mpr rfl⟩

theorem runs_walkedBytes {noArith : Bool} {n i : Nat} (inside : i + n ≤ input.length)
    (stage : ∀ a ∈ walkedBytes n input, a ∈ flips input) :
    Runs noArith input ((2 ^ (8 * n) - 1) <<< (8 * i)) := by
  refine ⟨_, mem_flips (stage _ ?_), flipWord_differs inside⟩
  exact List.mem_flatMap.mpr ⟨i, List.mem_range.mpr (by omega), List.mem_singleton.mpr rfl⟩

theorem runs_zero {noArith : Bool} : Runs noArith input 0 :=
  ⟨input, mem_flips List.mem_cons_self, .refl input⟩

/-- The bits from `b` on, within the byte at `k` and the next. -/
theorem bitsMask_eq (count s k : Nat) :
    bitsMask count (8 * k + s) = bitsMask count s <<< (8 * k) := by
  induction count with
  | zero => exact (Nat.zero_shiftLeft _).symm
  | succ count ih =>
      unfold bitsMask at ih ⊢
      have one : bitMask (8 * k + s + count) = bitMask (s + count) <<< (8 * k) := by
        have low : (8 * k + s + count) % 8 = (s + count) % 8 := by omega
        have high : 8 * ((8 * k + s + count) / 8) = 8 * ((s + count) / 8) + 8 * k := by omega
        rw [bitMask, bitMask, low, high, Nat.shiftLeft_add]
      rw [List.range_succ, List.foldl_append, List.foldl_append, List.foldl_cons, List.foldl_cons,
        List.foldl_nil, List.foldl_nil, ih, one, Nat.shiftLeft_xor_distrib]

theorem Pattern.width {p sh : Nat} (pattern : Pattern p sh) :
    ∃ m, p = 2 ^ m - 1 ∧ (m ∈ [1, 2, 4] ∨ sh % 8 = 0 ∧ m ∈ [8, 16, 32]) := by
  rcases pattern with rfl | rfl | rfl | ⟨aligned, rfl | rfl | rfl⟩
  · exact ⟨1, rfl, .inl (by decide)⟩
  · exact ⟨2, rfl, .inl (by decide)⟩
  · exact ⟨4, rfl, .inl (by decide)⟩
  · exact ⟨8, rfl, .inr ⟨aligned, by decide⟩⟩
  · exact ⟨16, rfl, .inr ⟨aligned, by decide⟩⟩
  · exact ⟨32, rfl, .inr ⟨aligned, by decide⟩⟩

theorem add_width_le {m sh bits : Nat} (positive : 0 < m) (fits : (2 ^ m - 1) <<< sh < 2 ^ bits) :
    sh + m ≤ bits := by
  by_contra beyond
  obtain ⟨m, rfl⟩ := Nat.exists_eq_add_of_lt positive
  have half : 2 ^ m ≤ 2 ^ (0 + m + 1) - 1 := by
    have grows := Nat.two_pow_pos m
    rw [Nat.zero_add, Nat.pow_succ]
    omega
  have large : 2 ^ bits ≤ 2 ^ (m + sh) := Nat.pow_le_pow_right (by decide) (by omega)
  rw [Nat.shiftLeft_eq] at fits
  rw [Nat.pow_add] at large
  exact absurd fits (Nat.not_lt.mpr (Nat.le_trans large (Nat.mul_le_mul_right _ half)))

/-- Walking bits begin with the highest one of a byte. -/
theorem bitsMask_within : ∀ m ∈ [1, 2, 4], ∀ r < 8, r + m ≤ 8 →
    bitsMask m (8 - m - r) = (2 ^ m - 1) <<< r := by decide

theorem pattern_across : ∀ m ∈ [1, 2, 4], ∀ r < 8, 8 < r + m →
    (2 ^ m - 1) <<< r ∈ crossings := by decide

theorem walkedBits_flips : ∀ m ∈ [1, 2, 4], ∀ a ∈ walkedBits m input, a ∈ flips input := by
  intro m width a member
  simp only [List.mem_cons, List.not_mem_nil, or_false] at width
  unfold flips
  rcases width with rfl | rfl | rfl <;> simp [member]

/-- What is taken for a flip is run as one, or lies across two bytes. -/
theorem runs_of_bitflip {noArith : Bool} {n q x : Nat} (inside : q + n ≤ input.length)
    (fits : x < 2 ^ (8 * n)) (flip : couldBeBitflip x = true) :
    Runs noArith input (x <<< (8 * q)) ∨ AcrossBytes (x <<< (8 * q)) := by
  rcases couldBeBitflip_cases flip with rfl | ⟨p, sh, pattern, rfl⟩
  · rw [Nat.zero_shiftLeft]
    exact .inl runs_zero
  · obtain ⟨m, rfl, width⟩ := pattern.width
    have small : sh % 8 < 8 := Nat.mod_lt sh (by decide)
    have position : sh + 8 * q = sh % 8 + 8 * (q + sh / 8) := by omega
    have positive : 0 < m := by
      simp only [List.mem_cons, List.not_mem_nil, or_false] at width
      omega
    have room := add_width_le positive fits
    rw [← Nat.shiftLeft_add, position, Nat.shiftLeft_add]
    rcases width with bits | ⟨aligned, bytes⟩
    · by_cases within : sh % 8 + m ≤ 8
      · rw [← bitsMask_within m bits _ small within, ← bitsMask_eq]
        exact .inl (runs_walkedBits (by omega) positive (walkedBits_flips m bits))
      · exact .inr ⟨_, _, pattern_across m bits _ small (Nat.lt_of_not_le within), rfl⟩
    · rw [aligned, Nat.shiftLeft_zero]
      simp only [List.mem_cons, List.not_mem_nil, or_false] at bytes
      have stages : ∀ k ∈ [1, 2, 4], ∀ a ∈ walkedBytes k input, a ∈ flips input := by
        intro k width a member
        simp only [List.mem_cons, List.not_mem_nil, or_false] at width
        unfold flips
        rcases width with rfl | rfl | rfl <;> simp [member]
      rcases bytes with rfl | rfl | rfl
      · exact .inl (@runs_walkedBytes _ _ 1 _ (by omega) (stages 1 (by decide)))
      · exact .inl (@runs_walkedBytes _ _ 2 _ (by omega) (stages 2 (by decide)))
      · exact .inl (@runs_walkedBytes _ _ 4 _ (by omega) (stages 4 (by decide)))

/-! ## What is not run -/

/-- The masks of the flips, from the byte on in which they begin. -/
def flipMasks : List Nat :=
  ([1, 2, 4].flatMap fun m => (List.range 8).map fun s => bitsMask m s) ++
    [2 ^ 8 - 1, 2 ^ 16 - 1, 2 ^ 32 - 1]

theorem flipMasks_spec : ∀ y ∈ flipMasks, y % 256 ≠ 0 ∧ y ∉ crossings := by decide

theorem walkedBits_mask {count : Nat} (width : count ∈ [1, 2, 4]) {c : List UInt8} {mask : Nat}
    (member : .executed c ∈ walkedBits count input) (differs : Differs input c mask) :
    ∃ y ∈ flipMasks, ∃ k, mask = y <<< (8 * k) := by
  obtain ⟨b, below, made⟩ := List.mem_flatMap.mp member
  cases List.mem_singleton.mp made
  have positive : 0 < count := by
    simp only [List.mem_cons, List.not_mem_nil, or_false] at width
    omega
  have inside : b + count ≤ 8 * input.length := by
    have bound := List.mem_range.mp below
    omega
  have position : 8 * (b / 8) + b % 8 = b := Nat.div_add_mod b 8
  refine ⟨bitsMask count (b % 8), ?_, b / 8, ?_⟩
  · refine List.mem_append_left _ (List.mem_flatMap.mpr ⟨count, width, ?_⟩)
    exact List.mem_map.mpr ⟨b % 8, List.mem_range.mpr (Nat.mod_lt b (by decide)), rfl⟩
  · rw [← bitsMask_eq, position]
    exact differs.mask_eq (flipBits_differs inside)

theorem walkedBytes_mask {n : Nat} (width : 2 ^ (8 * n) - 1 ∈ flipMasks) {c : List UInt8} {mask : Nat}
    (member : .executed c ∈ walkedBytes n input) (differs : Differs input c mask) :
    ∃ y ∈ flipMasks, ∃ k, mask = y <<< (8 * k) := by
  obtain ⟨i, below, made⟩ := List.mem_flatMap.mp member
  cases List.mem_singleton.mp made
  have inside : i + n ≤ input.length ∨ input.length + 1 ≤ n := by
    have bound := List.mem_range.mp below
    omega
  rcases inside with inside | short
  · exact ⟨_, width, i, differs.mask_eq (flipWord_differs inside)⟩
  · rw [Nat.sub_eq_zero_of_le short] at below
    exact absurd below List.not_mem_nil

theorem flips_mask {c : List UInt8} {mask : Nat} (member : .executed c ∈ flips input)
    (differs : Differs input c mask) : mask = 0 ∨ ∃ y ∈ flipMasks, ∃ k, mask = y <<< (8 * k) := by
  unfold flips at member
  simp only [List.mem_cons, List.mem_append, or_assoc] at member
  rcases member with same | one | two | four | byte | word | dword
  · cases same
    exact .inl (differs.mask_eq (.refl input))
  · exact .inr (walkedBits_mask (by decide) one differs)
  · exact .inr (walkedBits_mask (by decide) two differs)
  · exact .inr (walkedBits_mask (by decide) four differs)
  · exact .inr (walkedBytes_mask (by decide) byte differs)
  · exact .inr (walkedBytes_mask (by decide) word differs)
  · exact .inr (walkedBytes_mask (by decide) dword differs)

/-- Values fit the word, and what is run could not be a flip. -/
structure Tries (n : Nat) (tries : Nat → List Try) : Prop where
  fits : ∀ orig < 2 ^ (8 * n), ∀ candidate ∈ tries orig, candidate.value < 2 ^ (8 * n)
  flips : ∀ orig, ∀ candidate ∈ tries orig, candidate.covered = false →
    couldBeBitflip (orig ^^^ candidate.value) = false

theorem mem_replaced {n : Nat} {tries : Nat → List Try} {a : Attempt} :
    a ∈ replaced n tries input ↔ ∃ i, i + n ≤ input.length ∧
      ∃ candidate ∈ tries (load n input i), a = candidate.made n input i := by
  unfold replaced
  simp only [List.mem_flatMap, List.mem_range, List.mem_map]
  constructor
  · rintro ⟨i, below, candidate, member, rfl⟩
    exact ⟨i, by omega, candidate, member, rfl⟩
  · rintro ⟨i, inside, candidate, member, rfl⟩
    exact ⟨i, by omega, candidate, member, rfl⟩

/-- What a stage runs, it runs in place of a word. -/
theorem mem_replaced_executed {n : Nat} {tries : Nat → List Try} (sound : Tries n tries)
    {c : List UInt8} {mask : Nat} (member : .executed c ∈ replaced n tries input)
    (differs : Differs input c mask) :
    ∃ i, i + n ≤ input.length ∧ ∃ candidate ∈ tries (load n input i), candidate.covered = false ∧
      mask = (load n input i ^^^ candidate.value) <<< (8 * i) := by
  obtain ⟨i, inside, candidate, tried, made⟩ := mem_replaced.mp member
  unfold Try.made at made
  split at made
  · cases made
  · next free =>
    cases made
    refine ⟨i, inside, candidate, tried, Bool.eq_false_iff.mpr free, ?_⟩
    exact differs.mask_eq (.store inside (sound.fits _ (load_lt n input i) candidate tried))

theorem mem_replaced_skipped {n : Nat} {tries : Nat → List Try} (sound : Tries n tries)
    {c : List UInt8} (member : .skipped c ∈ replaced n tries input) :
    ∃ i, i + n ≤ input.length ∧ ∃ candidate ∈ tries (load n input i), candidate.covered = true ∧
      Differs input c ((load n input i ^^^ candidate.value) <<< (8 * i)) := by
  obtain ⟨i, inside, candidate, tried, made⟩ := mem_replaced.mp member
  unfold Try.made at made
  split at made
  · next covered =>
    cases made
    exact ⟨i, inside, candidate, tried, covered,
      .store inside (sound.fits _ (load_lt n input i) candidate tried)⟩
  · cases made

theorem mem_arithTry {orig value : Nat} {affects : Bool} {candidate : Try} :
    candidate ∈ arithTry orig affects value ↔
      affects = true ∧ candidate = ⟨value, couldBeBitflip (orig ^^^ value)⟩ := by
  unfold arithTry
  split
  · next yes => simp [yes]
  · next no => simp [no]

theorem swap16_lt (x : Nat) : swap16 x < 2 ^ 16 := Nat.mod_lt _ (by decide)

theorem swap32_lt (x : Nat) : swap32 x < 2 ^ 32 := Nat.mod_lt _ (by decide)

theorem unsigned_lt (bits : Nat) (v : Int) : unsigned bits v < 2 ^ bits := by
  have positive : (0 : Int) < 2 ^ bits := Int.pow_pos (by decide)
  have nonneg := Int.emod_nonneg v positive.ne'
  have below := Int.emod_lt_of_pos v positive
  unfold unsigned
  rw [Int.toNat_lt nonneg]
  push_cast
  exact below

/-- Candidates that fit the word and are left out only as flips. -/
def FlipTries (n : Nat) (tries : Nat → List Try) : Prop :=
  ∀ orig, ∀ candidate ∈ tries orig, ∃ value < 2 ^ (8 * n),
    candidate = ⟨value, couldBeBitflip (orig ^^^ value)⟩

theorem FlipTries.covered {n : Nat} {tries : Nat → List Try} (flips : FlipTries n tries)
    {orig : Nat} {candidate : Try} (member : candidate ∈ tries orig) :
    candidate.covered = couldBeBitflip (orig ^^^ candidate.value) := by
  obtain ⟨value, -, rfl⟩ := flips orig candidate member
  rfl

theorem FlipTries.tries {n : Nat} {tries : Nat → List Try} (flips : FlipTries n tries) :
    Tries n tries where
  fits orig _ candidate member := by
    obtain ⟨value, fits, rfl⟩ := flips orig candidate member
    exact fits
  flips _ _ member free := (flips.covered member).symm.trans free

theorem flipTries_arith8 : FlipTries 1 arith8 := by
  intro orig candidate member
  simp only [arith8, List.mem_flatMap, List.mem_append, mem_arithTry] at member
  obtain ⟨j, -, ⟨-, rfl⟩ | ⟨-, rfl⟩⟩ := member
  all_goals exact ⟨_, Nat.mod_lt _ (by decide), rfl⟩

theorem flipTries_arith16 : FlipTries 2 arith16 := by
  intro orig candidate member
  simp only [arith16, List.mem_flatMap, List.mem_append, mem_arithTry, or_assoc] at member
  obtain ⟨j, -, ⟨-, rfl⟩ | ⟨-, rfl⟩ | ⟨-, rfl⟩ | ⟨-, rfl⟩⟩ := member
  all_goals exact ⟨_, Nat.mod_lt _ (by decide), rfl⟩

theorem flipTries_arith32 : FlipTries 4 arith32 := by
  intro orig candidate member
  simp only [arith32, List.mem_flatMap, List.mem_append, mem_arithTry, or_assoc] at member
  obtain ⟨j, -, ⟨-, rfl⟩ | ⟨-, rfl⟩ | ⟨-, rfl⟩ | ⟨-, rfl⟩⟩ := member
  all_goals exact ⟨_, Nat.mod_lt _ (by decide), rfl⟩

theorem tries_arith8 : Tries 1 arith8 := flipTries_arith8.tries

theorem tries_arith16 : Tries 2 arith16 := flipTries_arith16.tries

theorem tries_arith32 : Tries 4 arith32 := flipTries_arith32.tries

theorem tries_int8 : Tries 1 int8 where
  fits orig below candidate member := by
    obtain ⟨v, -, rfl⟩ := List.mem_map.mp member
    exact unsigned_lt 8 v
  flips orig candidate member free := by
    obtain ⟨v, -, rfl⟩ := List.mem_map.mp member
    exact (Bool.or_eq_false_iff.mp free).1

theorem interestTry_flip {orig blen value : Nat} {checkLe : Bool}
    (free : (interestTry orig blen checkLe value).covered = false) :
    couldBeBitflip (orig ^^^ value) = false :=
  (Bool.or_eq_false_iff.mp (Bool.or_eq_false_iff.mp free).1).1

/-- The candidates for one word are an interesting value in one of the byte orders. -/
theorem mem_int16 {orig : Nat} {candidate : Try} : candidate ∈ int16 orig ↔
    ∃ v ∈ interesting16, candidate = interestTry orig 2 false (unsigned 16 v) ∨
      unsigned 16 v ≠ swap16 (unsigned 16 v) ∧
        candidate = interestTry orig 2 true (swap16 (unsigned 16 v)) := by
  simp only [int16, List.mem_flatMap, List.mem_cons]
  refine exists_congr fun v => and_congr_right fun _ => or_congr_right ?_
  split
  · next other => simp [other]
  · next same => simp [same]

theorem mem_int32 {orig : Nat} {candidate : Try} : candidate ∈ int32 orig ↔
    ∃ v ∈ interesting32, candidate = interestTry orig 4 false (unsigned 32 v) ∨
      unsigned 32 v ≠ swap32 (unsigned 32 v) ∧
        candidate = interestTry orig 4 true (swap32 (unsigned 32 v)) := by
  simp only [int32, List.mem_flatMap, List.mem_cons]
  refine exists_congr fun v => and_congr_right fun _ => or_congr_right ?_
  split
  · next other => simp [other]
  · next same => simp [same]

theorem tries_int16 : Tries 2 int16 where
  fits orig below candidate member := by
    obtain ⟨v, -, rfl | ⟨-, rfl⟩⟩ := mem_int16.mp member
    · exact unsigned_lt 16 v
    · exact swap16_lt _
  flips orig candidate member free := by
    obtain ⟨v, -, rfl | ⟨-, rfl⟩⟩ := mem_int16.mp member
    all_goals exact interestTry_flip free

theorem tries_int32 : Tries 4 int32 where
  fits orig below candidate member := by
    obtain ⟨v, -, rfl | ⟨-, rfl⟩⟩ := mem_int32.mp member
    · exact unsigned_lt 32 v
    · exact swap32_lt _
  flips orig candidate member free := by
    obtain ⟨v, -, rfl | ⟨-, rfl⟩⟩ := mem_int32.mp member
    all_goals exact interestTry_flip free

/-- No stage changes a run of bits across the border of two bytes. -/
theorem runs_not_across {noArith : Bool} {mask : Nat} (runs : Runs noArith input mask) :
    ¬ AcrossBytes mask := by
  intro across
  obtain ⟨c, member, differs⟩ := runs
  have flipped : .executed c ∉ flips input := by
    intro member
    obtain ⟨k, m, crossing, equal⟩ := across
    have spec := crossings_spec m crossing
    rcases flips_mask member differs with rfl | ⟨y, isFlip, i, rfl⟩
    · rw [Nat.shiftLeft_eq] at equal
      have positive := Nat.mul_pos (Nat.lt_trans (by decide) spec.2.1) (Nat.two_pow_pos (8 * k))
      exact absurd equal (Nat.ne_of_lt positive)
    · have normal := flipMasks_spec y isFlip
      exact normal.2 ((shiftLeft_bytes_inj normal.1 spec.1 equal).1 ▸ crossing)
  have tried : ∀ {n : Nat} {tries : Nat → List Try}, Tries n tries →
      .executed c ∉ replaced n tries input := by
    intro n tries sound member
    obtain ⟨i, -, candidate, isTry, free, rfl⟩ := mem_replaced_executed sound member differs
    have flip := across.couldBeBitflip
    rw [couldBeBitflip_bytes, sound.flips _ candidate isTry free] at flip
    exact Bool.false_ne_true flip
  rw [attempts_eq] at member
  cases noArith with
  | true =>
      simp only [if_true, List.append_nil, List.mem_append] at member
      rcases member with flip | byte
      · exact flipped flip
      · exact tried tries_int8 byte
  | false =>
      simp only [Bool.false_eq_true, if_false, List.mem_append, or_assoc] at member
      rcases member with flip | byte | word | dword | byte | word | dword
      · exact flipped flip
      · exact tried tries_arith8 byte
      · exact tried tries_arith16 word
      · exact tried tries_arith32 dword
      · exact tried tries_int8 byte
      · exact tried tries_int16 word
      · exact tried tries_int32 dword

end

end SbFuzz.Fuzzer.Deterministic
