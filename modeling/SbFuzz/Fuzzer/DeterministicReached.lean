import SbFuzz.Fuzzer.DeterministicCoverage

/-! What the deterministic stages take for an arithmetic or an interesting value is run by
one of them, but for masks across two bytes. -/

set_option autoImplicit false

namespace SbFuzz.Fuzzer.Deterministic

open Memory

/-! ## Parts of words -/

theorem unit_lt (bits i value : Nat) : unit bits i value < 2 ^ bits :=
  Nat.mod_lt _ (Nat.two_pow_pos bits)

theorem testBit_unit {bits i value s : Nat} (below : s < bits) :
    (unit bits i value).testBit s = value.testBit (bits * i + s) := by
  rw [unit, Nat.testBit_mod_two_pow, decide_eq_true below, Bool.true_and, Nat.testBit_shiftRight]

theorem unit_load {m n i : Nat} (buf : List UInt8) (q : Nat) (inside : m * i + m ≤ n) :
    unit (8 * m) i (load n buf q) = load m buf (q + m * i) := by
  refine eq_of_testBit_below (unit_lt _ _ _) (load_lt _ _ _) fun s below => ?_
  have position : 8 * (q + m * i) + s = 8 * q + (8 * m * i + s) := by
    rw [Nat.mul_add, Nat.mul_assoc, Nat.add_assoc]
  have within : 8 * m * i + s < 8 * n := by
    rw [Nat.mul_assoc]
    omega
  rw [testBit_unit below, testBit_load, testBit_load, decide_eq_true below,
    decide_eq_true within, position]

/-- Bits outside of a unit that is the only one to differ. -/
theorem testBit_eq_of_unit {bits count i w v t : Nat} (fitsW : w < 2 ^ (bits * count))
    (fitsV : v < 2 ^ (bits * count)) (same : ∀ k < count, k ≠ i → unit bits k w = unit bits k v)
    (outside : ¬ (bits * i ≤ t ∧ t - bits * i < bits)) : w.testBit t = v.testBit t := by
  by_cases inside : t < bits * count
  · have positive : 0 < bits := Nat.pos_of_lt_mul_right inside
    have parts := Nat.div_add_mod t bits
    have low := Nat.mod_lt t positive
    have other : t / bits ≠ i := by
      intro here
      rw [here] at parts
      omega
    have equal := same (t / bits) (Nat.div_lt_of_lt_mul inside) other
    have bit := congrArg (Nat.testBit · (t % bits)) equal
    rwa [testBit_unit low, testBit_unit low, parts] at bit
  · have large : 2 ^ (bits * count) ≤ 2 ^ t :=
      Nat.pow_le_pow_right (by decide) (Nat.le_of_not_lt inside)
    rw [Nat.testBit_lt_two_pow (Nat.lt_of_lt_of_le fitsW large),
      Nat.testBit_lt_two_pow (Nat.lt_of_lt_of_le fitsV large)]

theorem xor_of_unit {bits count i w v : Nat} (fitsW : w < 2 ^ (bits * count))
    (fitsV : v < 2 ^ (bits * count))
    (same : ∀ k < count, k ≠ i → unit bits k w = unit bits k v) :
    w ^^^ v = (unit bits i w ^^^ unit bits i v) <<< (bits * i) := by
  refine Nat.eq_of_testBit_eq fun t => ?_
  rw [Nat.testBit_xor, Nat.testBit_shiftLeft, Nat.testBit_xor]
  by_cases inside : bits * i ≤ t ∧ t - bits * i < bits
  · have position : bits * i + (t - bits * i) = t := by omega
    rw [testBit_unit inside.2, testBit_unit inside.2, position, decide_eq_true inside.1,
      Bool.true_and]
  · rw [testBit_eq_of_unit fitsW fitsV same inside, Bool.xor_self]
    by_cases above : bits * i ≤ t
    · have high : 2 ^ bits ≤ 2 ^ (t - bits * i) := Nat.pow_le_pow_right (by decide) (by omega)
      rw [Nat.testBit_lt_two_pow (Nat.lt_of_lt_of_le (unit_lt _ _ _) high),
        Nat.testBit_lt_two_pow (Nat.lt_of_lt_of_le (unit_lt _ _ _) high), Bool.xor_self,
        Bool.and_false]
    · rw [decide_eq_false above, Bool.false_and]

theorem differing_single {bits count w v ov nv : Nat}
    (single : differing bits count w v = [(ov, nv)]) :
    ∃ i < count, ov = unit bits i w ∧ nv = unit bits i v ∧
      ∀ k < count, k ≠ i → unit bits k w = unit bits k v := by
  unfold differing at single
  rw [List.filter_map] at single
  obtain ⟨i, only, pair⟩ := List.map_eq_singleton_iff.mp single
  have listed : ∀ k, k ∈ [i] ↔ k < count ∧ unit bits k w ≠ unit bits k v := by
    intro k
    rw [← only, List.mem_filter, List.mem_range]
    exact and_congr_right fun _ => decide_eq_true_iff
  have here := (listed i).mp (List.mem_singleton_self i)
  obtain ⟨rfl, rfl⟩ := Prod.mk.inj pair
  refine ⟨i, here.1, rfl, rfl, fun k below other => ?_⟩
  by_contra differ
  exact other (List.mem_singleton.mp ((listed k).mpr ⟨below, differ⟩))

/-! ## What could be an arithmetic -/

section

variable {input : List UInt8}

theorem byte_near {q v : Nat} (inside : q + 1 ≤ input.length) (fits : v < 2 ^ 8)
    (isNear : near 8 (load 1 input q) v = true) :
    Reached false input ((load 1 input q ^^^ v) <<< (8 * q)) := by
  rcases near_cases (load_lt 1 input q) fits isNear with rfl | step
  · exact reached_zero
  · exact byte_step inside step

theorem word_near {q v : Nat} (inside : q + 2 ≤ input.length) (fits : v < 2 ^ 16)
    (isNear : near 16 (load 2 input q) v = true ∨
      near 16 (swap16 (load 2 input q)) (swap16 v) = true) :
    Reached false input ((load 2 input q ^^^ v) <<< (8 * q)) := by
  cases isNear with
  | inl little =>
    rcases near_cases (load_lt 2 input q) fits little with rfl | step
    · exact reached_zero
    · exact word_step inside step
  | inr big =>
    rcases near_cases (swap16_lt _) (swap16_lt _) big with same | step
    · have equal : load 2 input q = v := by
        rw [← swap16_swap16 (load_lt 2 input q), same, swap16_swap16 fits]
      rw [equal]
      exact reached_zero
    · exact word_swap_step inside fits step

theorem dword_near {q v : Nat} (inside : q + 4 ≤ input.length) (fits : v < 2 ^ 32)
    (isNear : near 32 (load 4 input q) v = true ∨
      near 32 (swap32 (load 4 input q)) (swap32 v) = true) :
    Reached false input ((load 4 input q ^^^ v) <<< (8 * q)) := by
  cases isNear with
  | inl little =>
    rcases near_cases (load_lt 4 input q) fits little with rfl | step
    · exact reached_zero
    · exact dword_step inside step
  | inr big =>
    rcases near_cases (swap32_lt _) (swap32_lt _) big with same | step
    · have equal : load 4 input q = v := by
        rw [← swap32_swap32 (load_lt 4 input q), same, swap32_swap32 fits]
      rw [equal]
      exact reached_zero
    · exact dword_swap_step inside fits step

/-- Where one unit of a word differs, the stage for the unit decides. -/
theorem reached_unit {m blen count q v ov nv : Nat} (width : blen = m * count)
    (fits : v < 2 ^ (8 * blen)) (single : differing (8 * m) count (load blen input q) v = [(ov, nv)])
    (stage : ∀ i < count, ov = load m input (q + m * i) → nv < 2 ^ (8 * m) →
      Reached false input ((ov ^^^ nv) <<< (8 * (q + m * i)))) :
    Reached false input ((load blen input q ^^^ v) <<< (8 * q)) := by
  subst width
  obtain ⟨i, below, rfl, rfl, same⟩ := differing_single single
  have whole : 8 * m * count = 8 * (m * count) := Nat.mul_assoc _ _ _
  have last : m * i + m ≤ m * count := by
    rw [← Nat.mul_succ]
    exact Nat.mul_le_mul_left m below
  have position : 8 * m * i + 8 * q = 8 * (q + m * i) := by
    rw [Nat.mul_add, Nat.mul_assoc, Nat.add_comm]
  rw [xor_of_unit (whole.symm ▸ load_lt _ input q) (whole.symm ▸ fits) same, ← Nat.shiftLeft_add,
    position]
  exact stage i below (unit_load input q last) (unit_lt _ _ _)

theorem couldBeArith_cases {w v blen : Nat} (arith : couldBeArith w v blen = true) :
    w = v ∨ (∃ ov nv, differing 8 blen w v = [(ov, nv)] ∧ near 8 ov nv = true) ∨
      (blen ≠ 1 ∧ ∃ ov nv, differing 16 (blen / 2) w v = [(ov, nv)] ∧
        (near 16 ov nv = true ∨ near 16 (swap16 ov) (swap16 nv) = true)) ∨
      blen = 4 ∧ (near 32 w v = true ∨ near 32 (swap32 w) (swap32 v) = true) := by
  unfold couldBeArith at arith
  rw [Bool.or_eq_true, Bool.or_eq_true, beq_iff_eq] at arith
  rcases arith with (same | byte) | longer
  · exact .inl same
  · split at byte
    · next ov nv single => exact .inr (.inl ⟨ov, nv, single, byte⟩)
    · cases byte
  · rw [Bool.and_eq_true, bne_iff_ne, Bool.or_eq_true] at longer
    obtain ⟨several, word | dword⟩ := longer
    · split at word
      · next ov nv single =>
        exact .inr (.inr (.inl ⟨several, ov, nv, single, Bool.or_eq_true_iff.mp word⟩))
      · cases word
    · rw [Bool.and_eq_true, beq_iff_eq, Bool.or_eq_true] at dword
      exact .inr (.inr (.inr dword))

/-- What is taken for an arithmetic is run by a stage, or lies across two bytes. -/
theorem couldBeArith_reached {blen q v : Nat} (width : blen = 1 ∨ blen = 2 ∨ blen = 4)
    (inside : q + blen ≤ input.length) (fits : v < 2 ^ (8 * blen))
    (arith : couldBeArith (load blen input q) v blen = true) :
    Reached false input ((load blen input q ^^^ v) <<< (8 * q)) := by
  rcases couldBeArith_cases arith with same | ⟨ov, nv, single, isNear⟩ |
    ⟨several, ov, nv, single, isNear⟩ | ⟨rfl, isNear⟩
  · rw [same]
    exact reached_zero
  · refine reached_unit (Nat.one_mul blen).symm fits single fun i below word small => ?_
    rw [Nat.one_mul] at word ⊢
    subst word
    exact byte_near (by omega) small isNear
  · have halves : blen = 2 * (blen / 2) := by omega
    refine reached_unit halves fits single fun i below word small => ?_
    subst word
    exact word_near (by omega) small isNear
  · exact dword_near inside fits isNear

/-! ## What could be an interesting value -/

theorem couldBeInterest_cases {w v blen : Nat} {checkLe : Bool}
    (interest : couldBeInterest w v blen checkLe = true) :
    w = v ∨ (∃ i < blen, ∃ x ∈ interesting8, v = insertion 1 w i (unsigned 8 x)) ∨
      ((blen = 2 → checkLe = true) ∧ ∃ i < blen - 1, ∃ x ∈ interesting16,
        v = insertion 2 w i (unsigned 16 x) ∨
          2 < blen ∧ v = insertion 2 w i (swap16 (unsigned 16 x))) ∨
      blen = 4 ∧ checkLe = true ∧ ∃ x ∈ interesting32, v = unsigned 32 x := by
  unfold couldBeInterest at interest
  simp only [Bool.or_eq_true, Bool.and_eq_true, Bool.not_eq_true', Bool.and_eq_false_imp,
    List.any_eq_true, List.mem_range, beq_iff_eq, decide_eq_true_eq, Bool.not_eq_false'] at interest
  rcases interest with (same | byte) | ⟨asked, word | ⟨⟨four, le⟩, dword⟩⟩
  · exact .inl same
  · exact .inr (.inl byte)
  · exact .inr (.inr (.inl ⟨asked, word⟩))
  · exact .inr (.inr (.inr ⟨four, le, dword⟩))

theorem testBit_insertion {n w i x t : Nat} (room : i + n ≤ 4) (fits : x < 2 ^ (8 * n)) :
    (insertion n w i x).testBit t =
      if 8 * i ≤ t ∧ t - 8 * i < 8 * n then x.testBit (t - 8 * i)
      else w.testBit t && decide (t < 32) := by
  unfold insertion
  rw [Nat.testBit_or, Nat.testBit_and, Nat.testBit_xor, Nat.testBit_shiftLeft, Nat.testBit_shiftLeft,
    Nat.testBit_two_pow_sub_one, Nat.testBit_two_pow_sub_one]
  by_cases above : 8 * i ≤ t
  · by_cases inside : t - 8 * i < 8 * n
    · have word : t < 32 := by omega
      simp [above, inside, word]
    · have high : 2 ^ (8 * n) ≤ 2 ^ (t - 8 * i) := Nat.pow_le_pow_right (by decide) (by omega)
      rw [Nat.testBit_lt_two_pow (Nat.lt_of_lt_of_le fits high)]
      simp [inside]
  · simp [above]

/-- A value in the place of a part of a word. -/
theorem insertion_eq {n blen i q x : Nat} (short : blen ≤ 4) (room : i + n ≤ blen)
    (fits : x < 2 ^ (8 * n)) :
    (load blen input q ^^^ insertion n (load blen input q) i x) <<< (8 * q) =
      (load n input (q + i) ^^^ x) <<< (8 * (q + i)) := by
  have part : load blen input q ^^^ insertion n (load blen input q) i x =
      (load n input (q + i) ^^^ x) <<< (8 * i) := by
    refine Nat.eq_of_testBit_eq fun t => ?_
    rw [Nat.testBit_xor, testBit_insertion (Nat.le_trans room short) fits, Nat.testBit_shiftLeft, Nat.testBit_xor,
      testBit_load, testBit_load]
    by_cases above : 8 * i ≤ t
    · by_cases inside : t - 8 * i < 8 * n
      · have position : 8 * (q + i) + (t - 8 * i) = 8 * q + t := by omega
        have within : t < 8 * blen := by omega
        simp [above, inside, position, within]
      · have high : 2 ^ (8 * n) ≤ 2 ^ (t - 8 * i) := Nat.pow_le_pow_right (by decide) (by omega)
        rw [Nat.testBit_lt_two_pow (Nat.lt_of_lt_of_le fits high)]
        by_cases within : t < 8 * blen
        · have word : t < 32 := by omega
          simp [inside, within, word]
        · simp [inside, within]
    · by_cases within : t < 8 * blen
      · have word : t < 32 := by omega
        simp [above, within, word]
      · simp [above, within]
  have position : 8 * i + 8 * q = 8 * (q + i) := by omega
  rw [part, ← Nat.shiftLeft_add, position]

theorem int8_stage {noArith : Bool} : ∀ a ∈ replaced 1 int8 input, a ∈ attempts noArith input := by
  intro a member
  rw [attempts_eq]
  simp [member]

theorem int16_stage : ∀ a ∈ replaced 2 int16 input, a ∈ attempts false input := by
  intro a member
  rw [attempts_eq]
  simp [member]

theorem int32_stage : ∀ a ∈ replaced 4 int32 input, a ∈ attempts false input := by
  intro a member
  rw [attempts_eq]
  simp [member]

theorem int8_reached {q : Nat} {x : Int} (inside : q + 1 ≤ input.length)
    (interesting : x ∈ interesting8) :
    Reached false input ((load 1 input q ^^^ unsigned 8 x) <<< (8 * q)) := by
  have fits : unsigned 8 x < 2 ^ (8 * 1) := unsigned_lt 8 x
  have member : _ ∈ int8 (load 1 input q) := List.mem_map.mpr ⟨x, interesting, rfl⟩
  refine reached_try tries_int8 int8_stage inside member fun covered => ?_
  rcases Bool.or_eq_true_iff.mp covered with flip | arith
  · exact runs_of_bitflip inside (Nat.xor_lt_two_pow (load_lt 1 input q) fits) flip
  · exact couldBeArith_reached (.inl rfl) inside fits arith

/-- A value that is left out only for a flip, an arithmetic, or an insertion that is reached. -/
theorem interestTry_reached {blen q value : Nat} {checkLe : Bool} {tries : Nat → List Try}
    (sound : Tries blen tries) (stage : ∀ a ∈ replaced blen tries input, a ∈ attempts false input)
    (width : blen = 1 ∨ blen = 2 ∨ blen = 4) (inside : q + blen ≤ input.length)
    (member : interestTry (load blen input q) blen checkLe value ∈ tries (load blen input q))
    (insertions : couldBeInterest (load blen input q) value blen checkLe = true →
      Reached false input ((load blen input q ^^^ value) <<< (8 * q))) :
    Reached false input ((load blen input q ^^^ value) <<< (8 * q)) := by
  have fits : value < 2 ^ (8 * blen) := sound.fits _ (load_lt blen input q) _ member
  refine reached_try sound stage inside member fun covered => ?_
  rcases Bool.or_eq_true_iff.mp covered with either | interest
  · rcases Bool.or_eq_true_iff.mp either with flip | arith
    · exact runs_of_bitflip inside (Nat.xor_lt_two_pow (load_lt blen input q) fits) flip
    · exact couldBeArith_reached width inside fits arith
  · exact insertions interest

theorem byte_inserted {blen q i : Nat} {x : Int} (short : blen ≤ 4)
    (inside : q + blen ≤ input.length) (below : i < blen) (interesting : x ∈ interesting8) :
    Reached false input
      ((load blen input q ^^^ insertion 1 (load blen input q) i (unsigned 8 x)) <<< (8 * q)) := by
  rw [insertion_eq short below (unsigned_lt 8 x)]
  exact int8_reached (by omega) interesting

theorem int16_reached {q : Nat} {x : Int} (inside : q + 2 ≤ input.length)
    (interesting : x ∈ interesting16) :
    Reached false input ((load 2 input q ^^^ unsigned 16 x) <<< (8 * q)) := by
  refine interestTry_reached tries_int16 int16_stage (.inr (.inl rfl)) inside
    (mem_int16.mpr ⟨x, interesting, .inl rfl⟩) fun interest => ?_
  rcases couldBeInterest_cases interest with same | ⟨i, below, y, interesting8, inserted⟩ |
    ⟨asked, -⟩ | ⟨four, -⟩
  · rw [same]
    exact reached_zero
  · rw [inserted]
    exact byte_inserted (by decide) inside below interesting8
  · exact absurd (asked rfl) Bool.false_ne_true
  · exact absurd four (by decide)

theorem int16_swapped_reached {q : Nat} {x : Int} (inside : q + 2 ≤ input.length)
    (interesting : x ∈ interesting16) :
    Reached false input ((load 2 input q ^^^ swap16 (unsigned 16 x)) <<< (8 * q)) := by
  by_cases same : unsigned 16 x = swap16 (unsigned 16 x)
  · rw [← same]
    exact int16_reached inside interesting
  · refine interestTry_reached tries_int16 int16_stage (.inr (.inl rfl)) inside
      (mem_int16.mpr ⟨x, interesting, .inr ⟨same, rfl⟩⟩) fun interest => ?_
    rcases couldBeInterest_cases interest with same | ⟨i, below, y, interesting8, inserted⟩ |
      ⟨-, i, below, y, interesting16, inserted | ⟨long, -⟩⟩ | ⟨four, -⟩
    · rw [same]
      exact reached_zero
    · rw [inserted]
      exact byte_inserted (by decide) inside below interesting8
    · rw [inserted, insertion_eq (by decide) (by omega) (unsigned_lt 16 y)]
      exact int16_reached (by omega) interesting16
    · exact absurd long (by decide)
    · exact absurd four (by decide)

theorem word_inserted {q i : Nat} {x : Int} {v : Nat} (inside : q + 4 ≤ input.length) (below : i < 3)
    (interesting : x ∈ interesting16)
    (inserted : v = insertion 2 (load 4 input q) i (unsigned 16 x) ∨
      v = insertion 2 (load 4 input q) i (swap16 (unsigned 16 x))) :
    Reached false input ((load 4 input q ^^^ v) <<< (8 * q)) := by
  rcases inserted with rfl | rfl
  · rw [insertion_eq (by decide) (by omega) (unsigned_lt 16 x)]
    exact int16_reached (by omega) interesting
  · rw [insertion_eq (by decide) (by omega) (swap16_lt _)]
    exact int16_swapped_reached (by omega) interesting

theorem int32_reached {q : Nat} {x : Int} (inside : q + 4 ≤ input.length)
    (interesting : x ∈ interesting32) :
    Reached false input ((load 4 input q ^^^ unsigned 32 x) <<< (8 * q)) := by
  refine interestTry_reached tries_int32 int32_stage (.inr (.inr rfl)) inside
    (mem_int32.mpr ⟨x, interesting, .inl rfl⟩) fun interest => ?_
  rcases couldBeInterest_cases interest with same | ⟨i, below, y, interesting8, inserted⟩ |
    ⟨-, i, below, y, interesting16, inserted⟩ | ⟨-, le, -⟩
  · rw [same]
    exact reached_zero
  · rw [inserted]
    exact byte_inserted (by decide) inside below interesting8
  · exact word_inserted inside below interesting16 (inserted.imp id And.right)
  · exact absurd le Bool.false_ne_true

theorem int32_swapped_reached {q : Nat} {x : Int} (inside : q + 4 ≤ input.length)
    (interesting : x ∈ interesting32) :
    Reached false input ((load 4 input q ^^^ swap32 (unsigned 32 x)) <<< (8 * q)) := by
  by_cases same : unsigned 32 x = swap32 (unsigned 32 x)
  · rw [← same]
    exact int32_reached inside interesting
  · refine interestTry_reached tries_int32 int32_stage (.inr (.inr rfl)) inside
      (mem_int32.mpr ⟨x, interesting, .inr ⟨same, rfl⟩⟩) fun interest => ?_
    rcases couldBeInterest_cases interest with same | ⟨i, below, y, interesting8, inserted⟩ |
      ⟨-, i, below, y, interesting16, inserted⟩ | ⟨-, -, y, interesting32, inserted⟩
    · rw [same]
      exact reached_zero
    · rw [inserted]
      exact byte_inserted (by decide) inside below interesting8
    · exact word_inserted inside below interesting16 (inserted.imp id And.right)
    · rw [inserted]
      exact int32_reached inside interesting32

end

end SbFuzz.Fuzzer.Deterministic
