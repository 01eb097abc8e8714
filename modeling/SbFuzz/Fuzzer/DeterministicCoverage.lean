import SbFuzz.Fuzzer.DeterministicProperties

/-! When the duplicate avoidance of the deterministic stages loses no candidate:
what is taken for a flip, an arithmetic or an interesting value is run, but for
runs of bits across two bytes. -/

set_option autoImplicit false

namespace SbFuzz.Fuzzer.Deterministic

open Memory

/-! ## Halves of words -/

theorem xor_high {k w v : Nat} (low : w % 2 ^ k = v % 2 ^ k) :
    w ^^^ v = (w / 2 ^ k ^^^ v / 2 ^ k) <<< k := by
  have parts := Nat.div_add_mod (w ^^^ v) (2 ^ k)
  rw [Nat.xor_div_two_pow, Nat.xor_mod_two_pow, low, Nat.xor_self, Nat.add_zero] at parts
  rw [Nat.shiftLeft_eq, Nat.mul_comm, parts]

theorem xor_low {k w v : Nat} (high : w / 2 ^ k = v / 2 ^ k) :
    w ^^^ v = w % 2 ^ k ^^^ v % 2 ^ k := by
  have parts := Nat.div_add_mod (w ^^^ v) (2 ^ k)
  rw [Nat.xor_div_two_pow, Nat.xor_mod_two_pow, high, Nat.xor_self, Nat.mul_zero,
    Nat.zero_add] at parts
  exact parts.symm

theorem testBit_swap16 {x i : Nat} (below : i < 16) :
    (swap16 x).testBit i = x.testBit (8 * (1 - i / 8) + i % 8) := by
  unfold swap16
  rw [Nat.testBit_mod_two_pow, Nat.testBit_or, Nat.testBit_shiftLeft, Nat.testBit_shiftRight,
    Nat.testBit_mod_two_pow, Nat.testBit_mod_two_pow, decide_eq_true below, Bool.true_and]
  by_cases high : 8 ≤ i
  · have position : 8 * (1 - i / 8) + i % 8 = i - 8 := by omega
    rw [position, decide_eq_true high, decide_eq_true (by omega : i - 8 < 16),
      decide_eq_false (by omega : ¬ 8 + i < 16)]
    simp
  · have position : 8 * (1 - i / 8) + i % 8 = 8 + i := by omega
    rw [position, decide_eq_false high, decide_eq_true (by omega : 8 + i < 16)]
    simp

theorem testBit_swap32 {x i : Nat} (below : i < 32) :
    (swap32 x).testBit i = x.testBit (8 * (3 - i / 8) + i % 8) := by
  have second : ∀ t, Nat.testBit 0x00ff0000 t = (decide (16 ≤ t) && decide (t - 16 < 8)) := by
    intro t
    have mask : 0x00ff0000 = (2 ^ 8 - 1) <<< 16 := rfl
    rw [mask, Nat.testBit_shiftLeft, Nat.testBit_two_pow_sub_one]
  have first : ∀ t, Nat.testBit 0x0000ff00 t = (decide (8 ≤ t) && decide (t - 8 < 8)) := by
    intro t
    have mask : 0x0000ff00 = (2 ^ 8 - 1) <<< 8 := rfl
    rw [mask, Nat.testBit_shiftLeft, Nat.testBit_two_pow_sub_one]
  unfold swap32
  simp only [Nat.testBit_mod_two_pow, Nat.testBit_or, Nat.testBit_and, Nat.testBit_shiftLeft,
    Nat.testBit_shiftRight, first, second, decide_eq_true below, Bool.true_and]
  have byte : i < 8 ∨ 8 ≤ i ∧ i < 16 ∨ 16 ≤ i ∧ i < 24 ∨ 24 ≤ i := by omega
  rcases byte with lowest | next | third | highest
  · have position : 8 * (3 - i / 8) + i % 8 = 24 + i := by omega
    rw [position]
    simp (disch := omega) [decide_eq_true, decide_eq_false]
  · have position : 8 * (3 - i / 8) + i % 8 = 8 + i := by omega
    rw [position]
    simp (disch := omega) [decide_eq_true, decide_eq_false]
  · have position : 8 * (3 - i / 8) + i % 8 = i - 8 := by omega
    rw [position]
    simp (disch := omega) [decide_eq_true, decide_eq_false]
  · have position : 8 * (3 - i / 8) + i % 8 = i - 24 := by omega
    rw [position]
    simp (disch := omega) [decide_eq_true, decide_eq_false]

theorem swap16_swap16 {x : Nat} (fits : x < 2 ^ 16) : swap16 (swap16 x) = x := by
  refine eq_of_testBit_below (swap16_lt _) fits fun i below => ?_
  have position : 8 * (1 - (8 * (1 - i / 8) + i % 8) / 8) + (8 * (1 - i / 8) + i % 8) % 8 = i := by
    omega
  rw [testBit_swap16 below, testBit_swap16 (by omega), position]

theorem swap32_swap32 {x : Nat} (fits : x < 2 ^ 32) : swap32 (swap32 x) = x := by
  refine eq_of_testBit_below (swap32_lt _) fits fun i below => ?_
  have position : 8 * (3 - (8 * (3 - i / 8) + i % 8) / 8) + (8 * (3 - i / 8) + i % 8) % 8 = i := by
    omega
  rw [testBit_swap32 below, testBit_swap32 (by omega), position]

theorem swap16_low {x : Nat} (fits : x < 2 ^ 16) : swap16 x % 2 ^ 8 = x / 2 ^ 8 := by
  refine eq_of_testBit_below (Nat.mod_lt _ (by decide)) (by omega) fun i below => ?_
  have position : 8 * (1 - i / 8) + i % 8 = i + 8 := by omega
  rw [Nat.testBit_mod_two_pow, decide_eq_true below, Bool.true_and, testBit_swap16 (by omega),
    Nat.testBit_div_two_pow, position]

theorem swap16_high (x : Nat) : swap16 x / 2 ^ 8 = x % 2 ^ 8 := by
  have fits := swap16_lt x
  refine eq_of_testBit_below (by omega) (Nat.mod_lt _ (by decide)) fun i below => ?_
  have position : 8 * (1 - (i + 8) / 8) + (i + 8) % 8 = i := by omega
  rw [Nat.testBit_mod_two_pow, decide_eq_true below, Bool.true_and, Nat.testBit_div_two_pow,
    testBit_swap16 (by omega), position]

theorem swap32_low (x : Nat) : swap32 x % 2 ^ 16 = swap16 (x / 2 ^ 16) := by
  refine eq_of_testBit_below (Nat.mod_lt _ (by decide)) (swap16_lt _) fun i below => ?_
  have position : 8 * (3 - i / 8) + i % 8 = 8 * (1 - i / 8) + i % 8 + 16 := by omega
  rw [Nat.testBit_mod_two_pow, decide_eq_true below, Bool.true_and, testBit_swap32 (by omega),
    testBit_swap16 below, Nat.testBit_div_two_pow, position]

theorem swap32_high (x : Nat) : swap32 x / 2 ^ 16 = swap16 (x % 2 ^ 16) := by
  have fits := swap32_lt x
  refine eq_of_testBit_below (by omega) (swap16_lt _) fun i below => ?_
  have position : 8 * (3 - (i + 16) / 8) + (i + 16) % 8 = 8 * (1 - i / 8) + i % 8 := by omega
  rw [testBit_swap16 below, Nat.testBit_div_two_pow, testBit_swap32 (by omega), position,
    Nat.testBit_mod_two_pow, decide_eq_true (by omega), Bool.true_and]

/-! ## Arithmetics -/

/-- One word is another plus or minus some number. -/
def Step (bits w v : Nat) : Prop :=
  ∃ j ∈ List.range' 1 arithMax, v = (w + j) % 2 ^ bits ∨ v = (w + 2 ^ bits - j) % 2 ^ bits

theorem near_cases {bits ov nv : Nat} (fitsOv : ov < 2 ^ bits) (fitsNv : nv < 2 ^ bits)
    (isNear : near bits ov nv = true) : ov = nv ∨ Step bits ov nv := by
  unfold near arithMax at isNear
  simp only [Bool.or_eq_true, decide_eq_true_eq] at isNear
  simp only [Step, List.mem_range'_1, arithMax]
  by_cases same : ov = nv
  · exact .inl same
  · right
    rcases isNear with below | above
    · by_cases wraps : ov < nv
      · rw [Nat.mod_eq_of_lt (by omega)] at below
        refine ⟨ov + 2 ^ bits - nv, by omega, .inr ?_⟩
        rw [Nat.mod_eq_of_lt (by omega)]
        omega
      · have difference : ov + 2 ^ bits - nv = ov - nv + 2 ^ bits := by omega
        rw [difference, Nat.add_mod_right, Nat.mod_eq_of_lt (by omega)] at below
        refine ⟨ov - nv, by omega, .inr ?_⟩
        have result : ov + 2 ^ bits - (ov - nv) = nv + 2 ^ bits := by omega
        rw [result, Nat.add_mod_right, Nat.mod_eq_of_lt fitsNv]
    · by_cases wraps : nv < ov
      · rw [Nat.mod_eq_of_lt (by omega)] at above
        refine ⟨nv + 2 ^ bits - ov, by omega, .inl ?_⟩
        have result : ov + (nv + 2 ^ bits - ov) = nv + 2 ^ bits := by omega
        rw [result, Nat.add_mod_right, Nat.mod_eq_of_lt fitsNv]
      · have difference : nv + 2 ^ bits - ov = nv - ov + 2 ^ bits := by omega
        rw [difference, Nat.add_mod_right, Nat.mod_eq_of_lt (by omega)] at above
        refine ⟨nv - ov, by omega, .inl ?_⟩
        have result : ov + (nv - ov) = nv := by omega
        rw [result, Nat.mod_eq_of_lt fitsNv]

section

variable {input : List UInt8}

/-- A buffer that differs in the mask is run, or never is. -/
def Reached (noArith : Bool) (input : List UInt8) (mask : Nat) : Prop :=
  Runs noArith input mask ∨ AcrossBytes mask

/-- A stage runs its candidates, but for those that others are said to cover. -/
theorem reached_try {noArith : Bool} {n i : Nat} {tries : Nat → List Try} (sound : Tries n tries)
    (stage : ∀ a ∈ replaced n tries input, a ∈ attempts noArith input)
    (inside : i + n ≤ input.length) {candidate : Try} (member : candidate ∈ tries (load n input i))
    (covered : candidate.covered = true →
      Reached noArith input ((load n input i ^^^ candidate.value) <<< (8 * i))) :
    Reached noArith input ((load n input i ^^^ candidate.value) <<< (8 * i)) := by
  cases free : candidate.covered with
  | true => exact covered free
  | false =>
      refine .inl ⟨store n input i candidate.value, stage _ ?_, ?_⟩
      · refine mem_replaced.mpr ⟨i, inside, candidate, member, ?_⟩
        rw [Try.made, free]
        rfl
      · exact .store inside (sound.fits _ (load_lt n input i) candidate member)

/-- A candidate of the arithmetics, which only bit flips are said to cover. -/
theorem reached_arithTry {n i value : Nat} {tries : Nat → List Try} (sound : Tries n tries)
    (stage : ∀ a ∈ replaced n tries input, a ∈ attempts false input)
    (inside : i + n ≤ input.length) (fits : value < 2 ^ (8 * n))
    (member : ⟨value, couldBeBitflip (load n input i ^^^ value)⟩ ∈ tries (load n input i)) :
    Reached false input ((load n input i ^^^ value) <<< (8 * i)) :=
  reached_try sound stage inside member fun covered =>
    runs_of_bitflip inside (Nat.xor_lt_two_pow (load_lt n input i) fits) covered

theorem arith8_stage : ∀ a ∈ replaced 1 arith8 input, a ∈ attempts false input := by
  intro a member
  rw [attempts_eq]
  simp [member]

theorem arith16_stage : ∀ a ∈ replaced 2 arith16 input, a ∈ attempts false input := by
  intro a member
  rw [attempts_eq]
  simp [member]

theorem arith32_stage : ∀ a ∈ replaced 4 arith32 input, a ∈ attempts false input := by
  intro a member
  rw [attempts_eq]
  simp [member]

theorem reached_zero {noArith : Bool} {q x : Nat} : Reached noArith input ((x ^^^ x) <<< q) := by
  rw [Nat.xor_self, Nat.zero_shiftLeft]
  exact .inl runs_zero

theorem byte_step {q v : Nat} (inside : q + 1 ≤ input.length) (step : Step 8 (load 1 input q) v) :
    Reached false input ((load 1 input q ^^^ v) <<< (8 * q)) := by
  obtain ⟨j, small, rfl | rfl⟩ := step
  · refine reached_arithTry tries_arith8 arith8_stage inside (Nat.mod_lt _ (by decide)) ?_
    exact List.mem_flatMap.mpr ⟨j, small, List.mem_append_left _ (mem_arithTry.mpr ⟨rfl, rfl⟩)⟩
  · refine reached_arithTry tries_arith8 arith8_stage inside (Nat.mod_lt _ (by decide)) ?_
    exact List.mem_flatMap.mpr ⟨j, small, List.mem_append_right _ (mem_arithTry.mpr ⟨rfl, rfl⟩)⟩

/-- A change of the low byte only. -/
theorem low_byte {q v : Nat} (inside : q + 2 ≤ input.length)
    (high : v / 2 ^ 8 = load 2 input q / 2 ^ 8) (step : Step 8 (load 2 input q % 2 ^ 8) (v % 2 ^ 8)) :
    Reached false input ((load 2 input q ^^^ v) <<< (8 * q)) := by
  have low : load 2 input q % 2 ^ 8 = load 1 input q := load_low 1 1 input q
  rw [xor_low high.symm]
  rw [low] at step ⊢
  exact byte_step (by omega) step

/-- A change of the high byte only. -/
theorem high_byte {q v : Nat} (inside : q + 2 ≤ input.length)
    (low : v % 2 ^ 8 = load 2 input q % 2 ^ 8) (step : Step 8 (load 2 input q / 2 ^ 8) (v / 2 ^ 8)) :
    Reached false input ((load 2 input q ^^^ v) <<< (8 * q)) := by
  have high : load 2 input q / 2 ^ 8 = load 1 input (q + 1) := load_high 1 1 input q
  have position : 8 + 8 * q = 8 * (q + 1) := by omega
  rw [xor_high low.symm, ← Nat.shiftLeft_add, position]
  rw [high] at step ⊢
  exact byte_step (by omega) step

theorem mem_arith16 {orig j : Nat} (small : j ∈ List.range' 1 arithMax) {candidate : Try}
    (member : candidate ∈ arithTry orig (decide ((orig &&& 0xff) + j > 0xff)) ((orig + j) % 2 ^ 16) ∨
      candidate ∈ arithTry orig (decide ((orig &&& 0xff) < j)) ((orig + 2 ^ 16 - j) % 2 ^ 16) ∨
      candidate ∈ arithTry orig (decide ((orig >>> 8) + j > 0xff)) (swap16 (swap16 orig + j)) ∨
      candidate ∈ arithTry orig (decide ((orig >>> 8) < j)) (swap16 (swap16 orig + 2 ^ 16 - j))) :
    candidate ∈ arith16 orig := by
  refine List.mem_flatMap.mpr ⟨j, small, ?_⟩
  simpa only [List.mem_append, or_assoc] using member

theorem word_step {q v : Nat} (inside : q + 2 ≤ input.length) (step : Step 16 (load 2 input q) v) :
    Reached false input ((load 2 input q ^^^ v) <<< (8 * q)) := by
  have fits : load 2 input q < 2 ^ 16 := load_lt 2 input q
  have byte : load 2 input q &&& 0xff = load 2 input q % 2 ^ 8 := Nat.and_two_pow_sub_one_eq_mod _ 8
  obtain ⟨j, small, rfl | rfl⟩ := step
  · by_cases carries : (load 2 input q &&& 0xff) + j > 0xff
    · refine reached_arithTry tries_arith16 arith16_stage inside (Nat.mod_lt _ (by decide)) ?_
      exact mem_arith16 small (.inl (mem_arithTry.mpr ⟨decide_eq_true carries, rfl⟩))
    · rw [byte] at carries
      refine low_byte inside (by omega) ⟨j, small, .inl (by omega)⟩
  · by_cases borrows : (load 2 input q &&& 0xff) < j
    · refine reached_arithTry tries_arith16 arith16_stage inside (Nat.mod_lt _ (by decide)) ?_
      exact mem_arith16 small (.inr (.inl (mem_arithTry.mpr ⟨decide_eq_true borrows, rfl⟩)))
    · rw [byte] at borrows
      refine low_byte inside (by omega) ⟨j, small, .inr (by omega)⟩

theorem swap16_mod (x : Nat) : swap16 (x % 2 ^ 16) = swap16 x := by
  unfold swap16
  rw [Nat.mod_mod]

theorem swap32_mod (x : Nat) : swap32 (x % 2 ^ 32) = swap32 x := by
  unfold swap32
  rw [Nat.mod_mod]

/-- The same in the other byte order, whose low byte is the high one. -/
theorem word_swap_step {q v : Nat} (inside : q + 2 ≤ input.length) (fits : v < 2 ^ 16)
    (step : Step 16 (swap16 (load 2 input q)) (swap16 v)) :
    Reached false input ((load 2 input q ^^^ v) <<< (8 * q)) := by
  have word : load 2 input q < 2 ^ 16 := load_lt 2 input q
  have byte : load 2 input q >>> 8 = load 2 input q / 2 ^ 8 := Nat.shiftRight_eq_div_pow _ 8
  have lowW := swap16_low word
  have highW := swap16_high (load 2 input q)
  have lowV := swap16_low fits
  have highV := swap16_high v
  have back := swap16_swap16 fits
  have swapped := swap16_lt (load 2 input q)
  obtain ⟨j, small, result | result⟩ := step
  · by_cases carries : (load 2 input q >>> 8) + j > 0xff
    · refine reached_arithTry tries_arith16 arith16_stage inside fits ?_
      rw [← back, result, swap16_mod]
      exact mem_arith16 small (.inr (.inr (.inl (mem_arithTry.mpr ⟨decide_eq_true carries, rfl⟩))))
    · rw [byte] at carries
      have whole : swap16 (load 2 input q) + j < 2 ^ 16 := by omega
      rw [Nat.mod_eq_of_lt whole] at result
      refine high_byte inside (by omega) ⟨j, small, .inl (by omega)⟩
  · by_cases borrows : (load 2 input q >>> 8) < j
    · refine reached_arithTry tries_arith16 arith16_stage inside fits ?_
      rw [← back, result, swap16_mod]
      exact mem_arith16 small (.inr (.inr (.inr (mem_arithTry.mpr ⟨decide_eq_true borrows, rfl⟩))))
    · rw [byte] at borrows
      have whole : swap16 (load 2 input q) + 2 ^ 16 - j = swap16 (load 2 input q) - j + 2 ^ 16 := by
        omega
      rw [whole, Nat.add_mod_right, Nat.mod_eq_of_lt (by omega)] at result
      refine high_byte inside (by omega) ⟨j, small, .inr (by omega)⟩

theorem mem_arith32 {orig j : Nat} (small : j ∈ List.range' 1 arithMax) {candidate : Try}
    (member :
      candidate ∈ arithTry orig (decide ((orig &&& 0xffff) + j > 0xffff)) ((orig + j) % 2 ^ 32) ∨
      candidate ∈ arithTry orig (decide ((orig &&& 0xffff) < j)) ((orig + 2 ^ 32 - j) % 2 ^ 32) ∨
      candidate ∈ arithTry orig (decide ((swap32 orig &&& 0xffff) + j > 0xffff))
        (swap32 (swap32 orig + j)) ∨
      candidate ∈ arithTry orig (decide ((swap32 orig &&& 0xffff) < j))
        (swap32 (swap32 orig + 2 ^ 32 - j))) : candidate ∈ arith32 orig := by
  refine List.mem_flatMap.mpr ⟨j, small, ?_⟩
  simpa only [List.mem_append, or_assoc] using member

/-- A change of the low word only. -/
theorem low_word {q v : Nat} (inside : q + 4 ≤ input.length)
    (high : v / 2 ^ 16 = load 4 input q / 2 ^ 16)
    (step : Step 16 (load 4 input q % 2 ^ 16) (v % 2 ^ 16)) :
    Reached false input ((load 4 input q ^^^ v) <<< (8 * q)) := by
  have low : load 4 input q % 2 ^ 16 = load 2 input q := load_low 2 2 input q
  rw [xor_low high.symm]
  rw [low] at step ⊢
  exact word_step (by omega) step

theorem dword_step {q v : Nat} (inside : q + 4 ≤ input.length) (step : Step 32 (load 4 input q) v) :
    Reached false input ((load 4 input q ^^^ v) <<< (8 * q)) := by
  have fits : load 4 input q < 2 ^ 32 := load_lt 4 input q
  have word : load 4 input q &&& 0xffff = load 4 input q % 2 ^ 16 :=
    Nat.and_two_pow_sub_one_eq_mod _ 16
  obtain ⟨j, small, rfl | rfl⟩ := step
  · by_cases carries : (load 4 input q &&& 0xffff) + j > 0xffff
    · refine reached_arithTry tries_arith32 arith32_stage inside (Nat.mod_lt _ (by decide)) ?_
      exact mem_arith32 small (.inl (mem_arithTry.mpr ⟨decide_eq_true carries, rfl⟩))
    · rw [word] at carries
      refine low_word inside (by omega) ⟨j, small, .inl (by omega)⟩
  · by_cases borrows : (load 4 input q &&& 0xffff) < j
    · refine reached_arithTry tries_arith32 arith32_stage inside (Nat.mod_lt _ (by decide)) ?_
      exact mem_arith32 small (.inr (.inl (mem_arithTry.mpr ⟨decide_eq_true borrows, rfl⟩)))
    · rw [word] at borrows
      refine low_word inside (by omega) ⟨j, small, .inr (by omega)⟩

/-- A change of the high word only, in the other byte order. -/
theorem high_word {q v : Nat} (inside : q + 4 ≤ input.length) (fits : v < 2 ^ 32)
    (high : swap32 v / 2 ^ 16 = swap32 (load 4 input q) / 2 ^ 16)
    (step : Step 16 (swap32 (load 4 input q) % 2 ^ 16) (swap32 v % 2 ^ 16)) :
    Reached false input ((load 4 input q ^^^ v) <<< (8 * q)) := by
  have upper : load 4 input q / 2 ^ 16 = load 2 input (q + 2) := load_high 2 2 input q
  have position : 16 + 8 * q = 8 * (q + 2) := by omega
  have low : load 4 input q % 2 ^ 16 = v % 2 ^ 16 := by
    rw [swap32_high, swap32_high] at high
    rw [← swap16_swap16 (Nat.mod_lt (load 4 input q) (by decide)), ← high,
      swap16_swap16 (Nat.mod_lt v (by decide))]
  rw [xor_high low, ← Nat.shiftLeft_add, position]
  rw [swap32_low, swap32_low, upper] at step
  rw [upper]
  exact word_swap_step (by omega) (by omega) step

theorem dword_swap_step {q v : Nat} (inside : q + 4 ≤ input.length) (fits : v < 2 ^ 32)
    (step : Step 32 (swap32 (load 4 input q)) (swap32 v)) :
    Reached false input ((load 4 input q ^^^ v) <<< (8 * q)) := by
  have back := swap32_swap32 fits
  have swapped := swap32_lt (load 4 input q)
  have word : swap32 (load 4 input q) &&& 0xffff = swap32 (load 4 input q) % 2 ^ 16 :=
    Nat.and_two_pow_sub_one_eq_mod _ 16
  obtain ⟨j, small, result | result⟩ := step
  · by_cases carries : (swap32 (load 4 input q) &&& 0xffff) + j > 0xffff
    · refine reached_arithTry tries_arith32 arith32_stage inside fits ?_
      rw [← back, result, swap32_mod]
      exact mem_arith32 small (.inr (.inr (.inl (mem_arithTry.mpr ⟨decide_eq_true carries, rfl⟩))))
    · rw [word] at carries
      refine high_word inside fits (by omega) ⟨j, small, .inl (by omega)⟩
  · by_cases borrows : (swap32 (load 4 input q) &&& 0xffff) < j
    · refine reached_arithTry tries_arith32 arith32_stage inside fits ?_
      rw [← back, result, swap32_mod]
      exact mem_arith32 small (.inr (.inr (.inr (mem_arithTry.mpr ⟨decide_eq_true borrows, rfl⟩))))
    · rw [word] at borrows
      refine high_word inside fits (by omega) ⟨j, small, .inr (by omega)⟩

end

end SbFuzz.Fuzzer.Deterministic
