import SbFuzz.Fuzzer.DeterministicReached

/-! The masks across two bytes, which the deterministic stages leave out and never run, and the
inputs on which no stage comes to one. -/

set_option autoImplicit false

namespace SbFuzz.Fuzzer.Deterministic

open Memory

/-! ## Masks across two bytes -/

theorem AcrossBytes.shift {x : Nat} (across : AcrossBytes x) (q : Nat) :
    AcrossBytes (x <<< (8 * q)) := by
  obtain ⟨k, m, member, rfl⟩ := across
  refine ⟨k + q, m, member, ?_⟩
  rw [← Nat.shiftLeft_add, Nat.mul_add]

theorem AcrossBytes.of_shift {x q : Nat} (across : AcrossBytes (x <<< (8 * q))) : AcrossBytes x := by
  obtain ⟨k, m, member, same⟩ := across
  obtain ⟨low, -, -, -⟩ := crossings_spec m member
  have order := le_of_shiftLeft_bytes low same.symm
  obtain ⟨d, rfl⟩ := Nat.exists_eq_add_of_le order
  refine ⟨d, m, member, ?_⟩
  have exponent : 8 * (q + d) = 8 * d + 8 * q := by omega
  rw [exponent, Nat.shiftLeft_add, Nat.shiftLeft_eq _ (8 * q), Nat.shiftLeft_eq _ (8 * q)] at same
  exact Nat.eq_of_mul_eq_mul_right (Nat.two_pow_pos _) same

theorem not_across_byte {x : Nat} (small : x < 2 ^ 8) : ¬ AcrossBytes x := by
  intro ⟨k, m, member, same⟩
  obtain ⟨-, large, -, -⟩ := crossings_spec m member
  have grows : m ≤ m <<< (8 * k) := by
    rw [Nat.shiftLeft_eq]
    exact Nat.le_mul_of_pos_right m (Nat.two_pow_pos _)
  omega

/-- In a word such bits begin in the low byte. -/
theorem AcrossBytes.word {x : Nat} (across : AcrossBytes x) (small : x < 2 ^ 16) :
    x ∈ crossings := by
  obtain ⟨k, m, member, rfl⟩ := across
  obtain ⟨-, large, -, -⟩ := crossings_spec m member
  cases k with
  | zero => exact member
  | succ k =>
    rw [Nat.mul_succ, Nat.shiftLeft_add, Nat.shiftLeft_eq _ 8] at small
    have grows : m ≤ m <<< (8 * k) := by
      rw [Nat.shiftLeft_eq]
      exact Nat.le_mul_of_pos_right m (Nat.two_pow_pos _)
    omega

/-- They are never all bits of a byte. -/
theorem AcrossBytes.unit_ne {x : Nat} (across : AcrossBytes x) (p : Nat) : unit 8 p x ≠ 255 := by
  intro full
  obtain ⟨k, m, member, rfl⟩ := across
  have small := (crossings_spec m member).2.2.1
  have bits : ∀ s < 8, (m <<< (8 * k)).testBit (8 * p + s) = true := by
    intro s below
    have ones : (255 : Nat).testBit s = decide (s < 8) := Nat.testBit_two_pow_sub_one 8 s
    rw [← testBit_unit below, full, ones, decide_eq_true below]
  simp only [Nat.testBit_shiftLeft, Bool.and_eq_true, decide_eq_true_eq] at bits
  have begins := (bits 0 (by decide)).1
  obtain ⟨e, rfl⟩ := Nat.exists_eq_add_of_le (show k ≤ p by omega)
  have position : ∀ s, 8 * (k + e) + s - 8 * k = 8 * e + s := by omega
  simp only [position] at bits
  cases e with
  | zero =>
    have even : ∀ m ∈ crossings, Nat.testBit m 0 = false := by decide
    exact absurd ((bits 0 (by decide)).2.symm.trans (even m member)) Bool.false_ne_true.symm
  | succ e =>
    have large : 2 ^ 11 ≤ 2 ^ (8 * (e + 1) + 4) := Nat.pow_le_pow_right (by decide) (by omega)
    have zero := Nat.testBit_lt_two_pow (Nat.lt_of_lt_of_le small large)
    exact absurd ((bits 4 (by decide)).2.symm.trans zero) Bool.false_ne_true.symm

/-! ## Carries -/

/-- An arithmetic on a byte goes on in the next and flips four bits that lie across both. -/
def Carries (low high : Nat) : Prop := 0xe0 ≤ low ∧ high % 2 = 0 ∨ low < 0x20 ∧ high % 2 = 1

/-- The low bytes of the masks across two bytes. -/
def crossingLows : List Nat := [0x80, 0xc0, 0xe0]

theorem crossings_low : ∀ m ∈ crossings, m % 2 ^ 8 ∈ crossingLows ∧
    (m % 2 ^ 8 = 0xe0 → m / 2 ^ 8 = 1) := by decide

theorem carry_flips : ∀ b < 35, ∀ j < 36, 35 ≤ b + j →
    (b + 221) ^^^ (b + j - 35) ∈ crossingLows → (b + 221) ^^^ (b + j - 35) = 0xe0 := by decide

theorem carry_high : ∀ b < 35, ∀ j < 36, 35 ≤ b + j →
    (b + 221) ^^^ (b + j - 35) = 0xe0 → 3 ≤ b := by decide

theorem borrow_flips : ∀ b < 35, ∀ j < 36, b < j →
    b ^^^ (b + 256 - j) ∈ crossingLows → b ^^^ (b + 256 - j) = 0xe0 := by decide

theorem borrow_low : ∀ b < 35, ∀ j < 36, b < j →
    b ^^^ (b + 256 - j) = 0xe0 → b < 0x20 := by decide

set_option maxRecDepth 4000 in
theorem next_byte : ∀ c < 256, (c ^^^ (c + 1) % 256 = 1 → c % 2 = 0) ∧
    c ^^^ (c + 1) % 256 ∉ crossingLows := by decide

set_option maxRecDepth 4000 in
theorem previous_byte : ∀ c < 256, (c ^^^ (c + 255) % 256 = 1 → c % 2 = 1) ∧
    c ^^^ (c + 255) % 256 ∉ crossingLows := by decide

theorem carry_next {w j : Nat} (small : j < 36) (carry : 256 ≤ w % 2 ^ 8 + j) :
    (w + j) % 2 ^ 16 / 2 ^ 8 = (w / 2 ^ 8 + 1) % 256 := by omega

theorem borrow_previous {w j : Nat} (fits : w < 2 ^ 16) (small : j < 36) (borrow : w % 2 ^ 8 < j) :
    (w + 2 ^ 16 - j) % 2 ^ 16 / 2 ^ 8 = (w / 2 ^ 8 + 255) % 256 := by omega

/-- The four bits are the three highest of a byte and the lowest of the next. -/
theorem carries_of_add {w j : Nat} (fits : w < 2 ^ 16) (small : j < 36)
    (carry : 256 ≤ w % 2 ^ 8 + j) (across : w ^^^ (w + j) % 2 ^ 16 ∈ crossings) :
    Carries (w % 2 ^ 8) (w / 2 ^ 8) := by
  obtain ⟨b, low⟩ : ∃ b, w % 2 ^ 8 = b + 221 := ⟨w % 2 ^ 8 - 221, by omega⟩
  obtain ⟨lows, one⟩ := crossings_low _ across
  rw [Nat.xor_mod_two_pow] at lows one
  rw [Nat.xor_div_two_pow] at one
  have lowV : (w + j) % 2 ^ 16 % 2 ^ 8 = b + j - 35 := by omega
  rw [low, lowV] at lows one
  rw [carry_next small carry] at one
  have flips := carry_flips b (by omega) j small (by omega) lows
  have high := carry_high b (by omega) j small (by omega) flips
  exact .inl ⟨by omega, (next_byte _ (by omega)).1 (one flips)⟩

theorem carries_of_sub {w j : Nat} (fits : w < 2 ^ 16) (small : j < 36)
    (borrow : w % 2 ^ 8 < j) (across : w ^^^ (w + 2 ^ 16 - j) % 2 ^ 16 ∈ crossings) :
    Carries (w % 2 ^ 8) (w / 2 ^ 8) := by
  obtain ⟨lows, one⟩ := crossings_low _ across
  rw [Nat.xor_mod_two_pow] at lows one
  rw [Nat.xor_div_two_pow] at one
  have lowV : (w + 2 ^ 16 - j) % 2 ^ 16 % 2 ^ 8 = w % 2 ^ 8 + 256 - j := by omega
  rw [lowV] at lows one
  rw [borrow_previous fits small borrow] at one
  have flips := borrow_flips (w % 2 ^ 8) (by omega) j small borrow lows
  have low := borrow_low (w % 2 ^ 8) (by omega) j small borrow flips
  exact .inr ⟨low, (previous_byte _ (by omega)).1 (one flips)⟩

/-- In the other byte order the lower byte goes up or down by one. -/
theorem not_crossing_of_swapped {w x : Nat}
    (low : swap16 x % 2 ^ 8 = (w % 2 ^ 8 + 1) % 256 ∨ swap16 x % 2 ^ 8 = (w % 2 ^ 8 + 255) % 256) :
    w ^^^ swap16 x ∉ crossings := by
  intro across
  obtain ⟨lows, -⟩ := crossings_low _ across
  rw [Nat.xor_mod_two_pow] at lows
  cases low with
  | inl up =>
    rw [up] at lows
    exact (next_byte _ (by omega)).2 lows
  | inr down =>
    rw [down] at lows
    exact (previous_byte _ (by omega)).2 lows

theorem arith16_carries {w : Nat} (fits : w < 2 ^ 16) {candidate : Try}
    (member : candidate ∈ arith16 w) (across : w ^^^ candidate.value ∈ crossings) :
    Carries (w % 2 ^ 8) (w / 2 ^ 8) := by
  have byte : w &&& 0xff = w % 2 ^ 8 := Nat.and_two_pow_sub_one_eq_mod _ 8
  have upper : w >>> 8 = w / 2 ^ 8 := Nat.shiftRight_eq_div_pow _ 8
  have lowS := swap16_low fits
  have highS := swap16_high w
  have below := swap16_lt w
  simp only [arith16, List.mem_flatMap, List.mem_append, mem_arithTry, decide_eq_true_eq,
    or_assoc, List.mem_range'_1, arithMax] at member
  obtain ⟨j, small, ⟨carry, rfl⟩ | ⟨borrow, rfl⟩ | ⟨carry, rfl⟩ | ⟨borrow, rfl⟩⟩ := member
  · exact carries_of_add fits (by omega) (by omega) across
  · exact carries_of_sub fits (by omega) (by omega) across
  · have swapped : swap16 (swap16 w + j) % 2 ^ 8 = (w % 2 ^ 8 + 1) % 256 := by
      rw [← swap16_mod, swap16_low (Nat.mod_lt _ (by decide)), ← highS]
      exact carry_next (by omega) (by omega)
    exact absurd across (not_crossing_of_swapped (.inl swapped))
  · have swapped : swap16 (swap16 w + 2 ^ 16 - j) % 2 ^ 8 = (w % 2 ^ 8 + 255) % 256 := by
      rw [← swap16_mod, swap16_low (Nat.mod_lt _ (by decide)), ← highS]
      exact borrow_previous below (by omega) (by omega)
    exact absurd across (not_crossing_of_swapped (.inr swapped))

theorem unit_xor (bits i w v : Nat) : unit bits i (w ^^^ v) = unit bits i w ^^^ unit bits i v := by
  unfold unit
  rw [Nat.shiftRight_xor_distrib, Nat.xor_mod_two_pow]

theorem unit_one (x : Nat) : unit 8 1 x = x / 2 ^ 8 % 2 ^ 8 := by
  unfold unit
  rw [Nat.mul_one, Nat.shiftRight_eq_div_pow]

theorem unit_swap32 (x : Nat) : unit 8 2 (swap32 x) = unit 8 1 x := by
  refine eq_of_testBit_below (unit_lt _ _ _) (unit_lt _ _ _) fun s below => ?_
  have position : 8 * (3 - (8 * 2 + s) / 8) + (8 * 2 + s) % 8 = 8 * 1 + s := by omega
  rw [testBit_unit below, testBit_unit below, testBit_swap32 (by omega), position]

/-- A carry out of a word goes through the higher of its bytes. -/
theorem carry_through {w j : Nat} (small : j < 36) (carry : 0xffff < w % 2 ^ 16 + j) :
    unit 8 1 (w ^^^ (w + j) % 2 ^ 32) = 255 := by
  have before : w / 2 ^ 8 % 2 ^ 8 = 255 := by omega
  have after : (w + j) % 2 ^ 32 / 2 ^ 8 % 2 ^ 8 = 0 := by omega
  rw [unit_xor, unit_one, unit_one, before, after, Nat.xor_zero]

theorem borrow_through {w j : Nat} (fits : w < 2 ^ 32) (small : j < 36) (borrow : w % 2 ^ 16 < j) :
    unit 8 1 (w ^^^ (w + 2 ^ 32 - j) % 2 ^ 32) = 255 := by
  have before : w / 2 ^ 8 % 2 ^ 8 = 0 := by omega
  have after : (w + 2 ^ 32 - j) % 2 ^ 32 / 2 ^ 8 % 2 ^ 8 = 255 := by omega
  rw [unit_xor, unit_one, unit_one, before, after, Nat.zero_xor]

theorem arith32_not_across {w : Nat} (fits : w < 2 ^ 32) {candidate : Try}
    (member : candidate ∈ arith32 w) : ¬ AcrossBytes (w ^^^ candidate.value) := by
  intro across
  have swapped : ∀ y, unit 8 2 (w ^^^ swap32 y) = unit 8 1 (swap32 w ^^^ y % 2 ^ 32) := by
    intro y
    have back := unit_swap32 (swap32 w)
    rw [swap32_swap32 fits] at back
    rw [unit_xor, unit_xor, back, ← swap32_mod y, unit_swap32]
  have word : ∀ x, x &&& 0xffff = x % 2 ^ 16 := fun x => Nat.and_two_pow_sub_one_eq_mod x 16
  simp only [arith32, List.mem_flatMap, List.mem_append, mem_arithTry, decide_eq_true_eq,
    or_assoc, List.mem_range'_1, arithMax, word] at member
  obtain ⟨j, small, ⟨carry, rfl⟩ | ⟨borrow, rfl⟩ | ⟨carry, rfl⟩ | ⟨borrow, rfl⟩⟩ := member
  · exact across.unit_ne 1 (carry_through (by omega) carry)
  · exact across.unit_ne 1 (borrow_through fits (by omega) borrow)
  · exact across.unit_ne 2 ((swapped _).trans (carry_through (by omega) carry))
  · exact across.unit_ne 2 ((swapped _).trans (borrow_through (swap32_lt w) (by omega) borrow))

/-! ## What no stage runs -/

section

variable {input : List UInt8}

/-- No arithmetic and no interesting value changes exactly the bits of a run of two or four across
the border of two bytes. -/
structure Clear (input : List UInt8) : Prop where
  bytes : ∀ i, i + 2 ≤ input.length → ¬ Carries (load 1 input i) (load 1 input (i + 1))
  words : ∀ i, i + 2 ≤ input.length → ∀ x ∈ interesting16,
    ¬ AcrossBytes (load 2 input i ^^^ unsigned 16 x) ∧
      ¬ AcrossBytes (load 2 input i ^^^ swap16 (unsigned 16 x))
  dwords : ∀ i, i + 4 ≤ input.length → ∀ x ∈ interesting32,
    ¬ AcrossBytes (load 4 input i ^^^ unsigned 32 x) ∧
      ¬ AcrossBytes (load 4 input i ^^^ swap32 (unsigned 32 x))

theorem word_halves (i : Nat) : load 2 input i % 2 ^ 8 = load 1 input i ∧
    load 2 input i / 2 ^ 8 = load 1 input (i + 1) :=
  ⟨load_low 1 1 input i, load_high 1 1 input i⟩

/-- A candidate of a stage whose mask is not across two bytes. -/
theorem executed_of_skipped {n : Nat} {tries : Nat → List Try} (sound : Tries n tries)
    {noArith : Bool}
    (reached : ∀ i, i + n ≤ input.length → ∀ candidate ∈ tries (load n input i),
      candidate.covered = true →
        Reached noArith input ((load n input i ^^^ candidate.value) <<< (8 * i)))
    (clear : ∀ i, i + n ≤ input.length → ∀ candidate ∈ tries (load n input i),
      ¬ AcrossBytes (load n input i ^^^ candidate.value))
    {buf : List UInt8} (skipped : .skipped buf ∈ replaced n tries input) :
    .executed buf ∈ attempts noArith input := by
  obtain ⟨i, inside, candidate, member, covered, differs⟩ := mem_replaced_skipped sound skipped
  cases reached i inside candidate member covered with
  | inl runs =>
    obtain ⟨same, executed, again⟩ := runs
    rwa [differs.unique again]
  | inr across => exact absurd across.of_shift (clear i inside candidate member)

/-- A mask across two bytes is left out, and no stage runs it. -/
theorem lost_of_across {n i : Nat} {tries : Nat → List Try} {noArith : Bool}
    (stage : ∀ a ∈ replaced n tries input, a ∈ attempts noArith input)
    (inside : i + n ≤ input.length) {candidate : Try} (member : candidate ∈ tries (load n input i))
    (fits : candidate.value < 2 ^ (8 * n)) (covered : candidate.covered = true)
    (across : AcrossBytes (load n input i ^^^ candidate.value)) :
    ∃ buf, .skipped buf ∈ attempts noArith input ∧ .executed buf ∉ attempts noArith input := by
  refine ⟨store n input i candidate.value, stage _ ?_, fun executed => ?_⟩
  · refine mem_replaced.mpr ⟨i, inside, candidate, member, ?_⟩
    rw [Try.made, if_pos covered]
  · exact runs_not_across ⟨_, executed, .store inside fits⟩ (across.shift i)

/-- A stage that leaves out what could be a flip. -/
theorem executed_of_flips {n : Nat} {tries : Nat → List Try} (flips : FlipTries n tries)
    {noArith : Bool}
    (clear : ∀ i, i + n ≤ input.length → ∀ candidate ∈ tries (load n input i),
      ¬ AcrossBytes (load n input i ^^^ candidate.value))
    {buf : List UInt8} (skipped : .skipped buf ∈ replaced n tries input) :
    .executed buf ∈ attempts noArith input := by
  refine executed_of_skipped flips.tries (fun i inside candidate member covered => ?_) clear skipped
  have word := load_lt n input i
  have small := Nat.xor_lt_two_pow word (flips.tries.fits _ word candidate member)
  exact runs_of_bitflip inside small ((flips.covered member).symm.trans covered)

theorem executed_of_arith16 (clear : Clear input) {buf : List UInt8}
    (skipped : .skipped buf ∈ replaced 2 arith16 input) : .executed buf ∈ attempts false input := by
  refine executed_of_flips flipTries_arith16 (fun i inside candidate member across => ?_) skipped
  have fits : load 2 input i < 2 ^ 16 := load_lt 2 input i
  have small := Nat.xor_lt_two_pow fits (tries_arith16.fits _ fits candidate member)
  have carries := arith16_carries fits member (across.word small)
  obtain ⟨low, high⟩ := @word_halves input i
  rw [low, high] at carries
  exact clear.bytes i inside carries

theorem executed_of_int8 {buf : List UInt8} (skipped : .skipped buf ∈ replaced 1 int8 input) :
    .executed buf ∈ attempts false input := by
  refine executed_of_skipped tries_int8 (fun i inside candidate member _ => ?_)
    (fun i _ candidate member => ?_) skipped
  · obtain ⟨x, interesting, rfl⟩ := List.mem_map.mp member
    exact int8_reached inside interesting
  · have word : load 1 input i < 2 ^ 8 := load_lt 1 input i
    exact not_across_byte (Nat.xor_lt_two_pow word (tries_int8.fits _ word candidate member))

theorem executed_of_int16 (clear : Clear input) {buf : List UInt8}
    (skipped : .skipped buf ∈ replaced 2 int16 input) : .executed buf ∈ attempts false input := by
  refine executed_of_skipped tries_int16 (fun i inside candidate member _ => ?_)
    (fun i inside candidate member => ?_) skipped
  · obtain ⟨x, interesting, rfl | ⟨-, rfl⟩⟩ := mem_int16.mp member
    · exact int16_reached inside interesting
    · exact int16_swapped_reached inside interesting
  · obtain ⟨x, interesting, rfl | ⟨-, rfl⟩⟩ := mem_int16.mp member
    · exact (clear.words i inside x interesting).1
    · exact (clear.words i inside x interesting).2

theorem executed_of_int32 (clear : Clear input) {buf : List UInt8}
    (skipped : .skipped buf ∈ replaced 4 int32 input) : .executed buf ∈ attempts false input := by
  refine executed_of_skipped tries_int32 (fun i inside candidate member _ => ?_)
    (fun i inside candidate member => ?_) skipped
  · obtain ⟨x, interesting, rfl | ⟨-, rfl⟩⟩ := mem_int32.mp member
    · exact int32_reached inside interesting
    · exact int32_swapped_reached inside interesting
  · obtain ⟨x, interesting, rfl | ⟨-, rfl⟩⟩ := mem_int32.mp member
    · exact (clear.dwords i inside x interesting).1
    · exact (clear.dwords i inside x interesting).2

theorem not_skipped_flips {buf : List UInt8} : .skipped buf ∉ flips input := by
  intro member
  simp [Deterministic.flips, walkedBits, walkedBytes] at member

theorem executed_of_clear (clear : Clear input) {buf : List UInt8}
    (skipped : .skipped buf ∈ attempts false input) : .executed buf ∈ attempts false input := by
  rw [attempts_eq] at skipped
  simp only [Bool.false_eq_true, if_false, List.mem_append, or_assoc] at skipped
  rcases skipped with flip | byte | word | dword | byte | word | dword
  · exact absurd flip not_skipped_flips
  · refine executed_of_flips flipTries_arith8 (fun i _ candidate member => ?_) byte
    have fits : load 1 input i < 2 ^ 8 := load_lt 1 input i
    exact not_across_byte (Nat.xor_lt_two_pow fits (tries_arith8.fits _ fits candidate member))
  · exact executed_of_arith16 clear word
  · exact executed_of_flips flipTries_arith32
      (fun i _ candidate member => arith32_not_across (load_lt 4 input i) member) dword
  · exact executed_of_int8 byte
  · exact executed_of_int16 clear word
  · exact executed_of_int32 clear dword

/-! ## What is lost -/

theorem nine_bits : ∀ b < 32, (b + 224) ^^^ (b + 256) = 0x1e0 ∧ (b + 256) ^^^ (b + 224) = 0x1e0 := by
  decide

theorem mask_of_carry {w : Nat} (large : 0xe0 ≤ w % 2 ^ 8) (even : w / 2 ^ 8 % 2 = 0) :
    w ^^^ (w + 32) = 0x1e0 := by
  have low : w % 2 ^ 9 = w % 2 ^ 8 - 224 + 224 := by omega
  have lowV : (w + 32) % 2 ^ 9 = w % 2 ^ 8 - 224 + 256 := by omega
  have high : w / 2 ^ 9 = (w + 32) / 2 ^ 9 := by omega
  rw [xor_low high, low, lowV]
  exact (nine_bits _ (by omega)).1

theorem mask_of_borrow {w : Nat} (small : w % 2 ^ 8 < 0x20) (odd : w / 2 ^ 8 % 2 = 1) :
    w ^^^ (w - 32) = 0x1e0 := by
  have low : w % 2 ^ 9 = w % 2 ^ 8 + 256 := by omega
  have lowV : (w - 32) % 2 ^ 9 = w % 2 ^ 8 + 224 := by omega
  have high : w / 2 ^ 9 = (w - 32) / 2 ^ 9 := by omega
  rw [xor_low high, low, lowV]
  exact (nine_bits _ small).2

theorem lost_of_arith16 {i v : Nat} (inside : i + 2 ≤ input.length)
    (member : ⟨v, couldBeBitflip (load 2 input i ^^^ v)⟩ ∈ arith16 (load 2 input i))
    (mask : load 2 input i ^^^ v = 0x1e0) :
    ∃ buf, .skipped buf ∈ attempts false input ∧ .executed buf ∉ attempts false input := by
  have across : AcrossBytes (load 2 input i ^^^ v) := ⟨0, 0x1e0, by decide, mask⟩
  exact lost_of_across arith16_stage inside member
    (tries_arith16.fits _ (load_lt 2 input i) _ member) across.couldBeBitflip across

/-- Where an arithmetic carries, adding or subtracting 32 is lost. -/
theorem lost_of_carries {i : Nat} (inside : i + 2 ≤ input.length)
    (carries : Carries (load 1 input i) (load 1 input (i + 1))) :
    ∃ buf, .skipped buf ∈ attempts false input ∧ .executed buf ∉ attempts false input := by
  obtain ⟨low, high⟩ := @word_halves input i
  rw [← low, ← high] at carries
  have fits : load 2 input i < 2 ^ 16 := load_lt 2 input i
  have byte : load 2 input i &&& 0xff = load 2 input i % 2 ^ 8 := Nat.and_two_pow_sub_one_eq_mod _ 8
  have small : 32 ∈ List.range' 1 arithMax := by decide
  cases carries with
  | inl up =>
    have whole : (load 2 input i + 32) % 2 ^ 16 = load 2 input i + 32 := by omega
    refine lost_of_arith16 inside (mem_arith16 small (.inl (mem_arithTry.mpr ⟨?_, rfl⟩))) ?_
    · exact decide_eq_true (by omega)
    · rw [whole]
      exact mask_of_carry up.1 up.2
  | inr down =>
    have whole : (load 2 input i + 2 ^ 16 - 32) % 2 ^ 16 = load 2 input i - 32 := by omega
    refine lost_of_arith16 inside (mem_arith16 small (.inr (.inl (mem_arithTry.mpr ⟨?_, rfl⟩)))) ?_
    · exact decide_eq_true (by omega)
    · rw [whole]
      exact mask_of_borrow down.1 down.2

/-- A value that could be a flip, as any mask across two bytes. -/
theorem lost_of_interest {n i value : Nat} {checkLe : Bool} {tries : Nat → List Try}
    (sound : Tries n tries) (stage : ∀ a ∈ replaced n tries input, a ∈ attempts false input)
    (inside : i + n ≤ input.length)
    (member : interestTry (load n input i) n checkLe value ∈ tries (load n input i))
    (across : AcrossBytes (load n input i ^^^ value)) :
    ∃ buf, .skipped buf ∈ attempts false input ∧ .executed buf ∉ attempts false input := by
  refine lost_of_across stage inside member (sound.fits _ (load_lt n input i) _ member) ?_ across
  unfold interestTry
  rw [across.couldBeBitflip, Bool.true_or, Bool.true_or]

theorem clear_of_executed
    (kept : ∀ buf, .skipped buf ∈ attempts false input → .executed buf ∈ attempts false input) :
    Clear input := by
  have none : ¬ ∃ buf, .skipped buf ∈ attempts false input ∧
      .executed buf ∉ attempts false input := by
    intro ⟨buf, skipped, lost⟩
    exact lost (kept buf skipped)
  constructor
  · intro i inside carries
    exact none (lost_of_carries inside carries)
  · intro i inside x interesting
    have little : ¬ AcrossBytes (load 2 input i ^^^ unsigned 16 x) := fun across =>
      none (lost_of_interest tries_int16 int16_stage inside
        (mem_int16.mpr ⟨x, interesting, .inl rfl⟩) across)
    refine ⟨little, fun across => ?_⟩
    by_cases same : unsigned 16 x = swap16 (unsigned 16 x)
    · exact little (same ▸ across)
    · exact none (lost_of_interest tries_int16 int16_stage inside
        (mem_int16.mpr ⟨x, interesting, .inr ⟨same, rfl⟩⟩) across)
  · intro i inside x interesting
    have little : ¬ AcrossBytes (load 4 input i ^^^ unsigned 32 x) := fun across =>
      none (lost_of_interest tries_int32 int32_stage inside
        (mem_int32.mpr ⟨x, interesting, .inl rfl⟩) across)
    refine ⟨little, fun across => ?_⟩
    by_cases same : unsigned 32 x = swap32 (unsigned 32 x)
    · exact little (same ▸ across)
    · exact none (lost_of_interest tries_int32 int32_stage inside
        (mem_int32.mpr ⟨x, interesting, .inr ⟨same, rfl⟩⟩) across)

/-! ## Without arithmetics -/

/-- Every interesting byte that could be an arithmetic could be a flip. -/
def FlipsOnly (input : List UInt8) : Prop :=
  ∀ i, i + 1 ≤ input.length → ∀ x ∈ interesting8,
    couldBeArith (load 1 input i) (unsigned 8 x) 1 = true →
      couldBeBitflip (load 1 input i ^^^ unsigned 8 x) = true

theorem int8_mask_lt {orig : Nat} (fits : orig < 2 ^ 8) {candidate : Try}
    (member : candidate ∈ int8 orig) : orig ^^^ candidate.value < 2 ^ 8 :=
  Nat.xor_lt_two_pow fits (tries_int8.fits _ fits candidate member)

theorem executed_of_flipsOnly (only : FlipsOnly input) {buf : List UInt8}
    (skipped : .skipped buf ∈ attempts true input) : .executed buf ∈ attempts true input := by
  rw [attempts_eq] at skipped
  simp only [if_true, List.append_nil, List.mem_append] at skipped
  rcases skipped with flip | byte
  · exact absurd flip not_skipped_flips
  · refine executed_of_skipped tries_int8 (fun i inside candidate member covered => ?_)
      (fun i _ candidate member => not_across_byte (int8_mask_lt (load_lt 1 input i) member)) byte
    have small := int8_mask_lt (load_lt 1 input i) member
    obtain ⟨x, interesting, rfl⟩ := List.mem_map.mp member
    refine runs_of_bitflip inside small ?_
    rcases Bool.or_eq_true_iff.mp covered with flip | arith
    · exact flip
    · exact only i inside x interesting arith

theorem flipMasks_byte : ∀ y ∈ flipMasks, y < 256 →
    ∃ p ∈ [1, 3, 15, 255], ∃ k ∈ List.range 8, Pattern p k ∧ y = p <<< k := by decide

theorem couldBeBitflip_of_flipMask {y : Nat} (member : y ∈ flipMasks) (small : y < 256) :
    couldBeBitflip y = true := by
  obtain ⟨p, -, k, -, pattern, rfl⟩ := flipMasks_byte y member small
  rw [couldBeBitflip_shiftLeft pattern.odd, decide_eq_true pattern]

theorem mod_ne_of_not_flip {x : Nat} (small : x < 256) (flip : couldBeBitflip x = false) :
    x % 256 ≠ 0 := by
  intro zero
  rw [Nat.mod_eq_of_lt small] at zero
  rw [zero, couldBeBitflip_zero] at flip
  cases flip

/-- A byte that is no flip is not run by the bit flips. -/
theorem not_flipped {x i : Nat} {c : List UInt8} (small : x < 256)
    (flip : couldBeBitflip x = false) (differs : Differs input c (x <<< (8 * i))) :
    .executed c ∉ flips input := by
  intro member
  have low := mod_ne_of_not_flip small flip
  rcases flips_mask member differs with none | ⟨y, isFlip, k, same⟩
  · rw [Nat.shiftLeft_eq] at none
    have nonzero : x ≠ 0 := by
      intro empty
      rw [empty] at low
      exact low rfl
    have positive := Nat.mul_pos (Nat.pos_of_ne_zero nonzero) (Nat.two_pow_pos (8 * i))
    exact absurd none (Nat.ne_of_gt positive)
  · obtain ⟨rfl, -⟩ := shiftLeft_bytes_inj low (flipMasks_spec y isFlip).1 same
    rw [couldBeBitflip_of_flipMask isFlip small] at flip
    cases flip

theorem flipsOnly_of_executed
    (kept : ∀ buf, .skipped buf ∈ attempts true input → .executed buf ∈ attempts true input) :
    FlipsOnly input := by
  intro i inside x interesting arith
  by_contra other
  have flip := Bool.eq_false_iff.mpr other
  have word : load 1 input i < 2 ^ 8 := load_lt 1 input i
  have member : ⟨unsigned 8 x, _⟩ ∈ int8 (load 1 input i) := List.mem_map.mpr ⟨x, interesting, rfl⟩
  have small := int8_mask_lt word member
  have differs := Differs.store inside (unsigned_lt 8 x)
  have skipped : .skipped (store 1 input i (unsigned 8 x)) ∈ attempts true input := by
    refine int8_stage _ (mem_replaced.mpr ⟨i, inside, _, member, ?_⟩)
    rw [Try.made, if_pos]
    exact Bool.or_eq_true_iff.mpr (.inr arith)
  have executed := kept _ skipped
  rw [attempts_eq] at executed
  simp only [if_true, List.append_nil, List.mem_append] at executed
  rcases executed with flipped | byte
  · exact not_flipped small flip differs flipped
  · obtain ⟨k, -, candidate, tried, free, mask⟩ := mem_replaced_executed tries_int8 byte differs
    have smallK := int8_mask_lt (load_lt 1 input k) tried
    have flipK := tries_int8.flips _ candidate tried free
    obtain ⟨same, rfl⟩ := shiftLeft_bytes_inj (mod_ne_of_not_flip small flip)
      (mod_ne_of_not_flip smallK flipK) mask
    have value : unsigned 8 x = candidate.value := Nat.xor_right_injective same
    obtain ⟨y, -, rfl⟩ := List.mem_map.mp tried
    have free := (Bool.or_eq_false_iff.mp free).2
    dsimp only at value
    rw [← value, arith] at free
    cases free

end

/-- What is left out is run exactly for these inputs. -/
theorem skipped_executed_iff (noArith : Bool) (input : List UInt8) :
    (∀ buf, .skipped buf ∈ attempts noArith input → .executed buf ∈ attempts noArith input) ↔
      if noArith then FlipsOnly input else Clear input := by
  cases noArith with
  | true => exact ⟨flipsOnly_of_executed, fun only buf => executed_of_flipsOnly only⟩
  | false => exact ⟨clear_of_executed, fun clear buf => executed_of_clear clear⟩

theorem arith16_lost : ∃ buf, .skipped buf ∈ attempts false [0xe0, 0x00] ∧
    .executed buf ∉ attempts false [0xe0, 0x00] :=
  @lost_of_carries [0xe0, 0x00] 0 (by decide) (.inl (by decide))

end SbFuzz.Fuzzer.Deterministic
