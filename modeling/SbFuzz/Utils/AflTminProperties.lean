import Mathlib.Data.List.Nodup
import SbFuzz.Utils.AflTmin

/-! `afl-tmin` ends, with an accepted output that is no longer than the input and
from which no byte can be removed when blocks of one byte are deleted. -/

set_option autoImplicit false

namespace SbFuzz.Utils.AflTmin

variable {accepts : List UInt8 → Bool}

/-! ## What every stage keeps -/

/-- The characters that can still be replaced. -/
def otherChars (inData : List UInt8) : Nat := inData.countP (· ≠ zeroChar)

/-- The bytes that can be deleted and the characters that can be replaced. -/
def Test.weight (test : Test) : Nat := test.inData.length + otherChars test.inData

/-- A stage accepts no loss: what it has changed is accepted, not longer, and lighter. -/
structure Reduces (accepts : List UInt8 → Bool) (before after : Test) : Prop where
  accepted : accepts before.inData → accepts after.inData
  length : after.inData.length ≤ before.inData.length
  unchanged : after.changedAny = false → after = before
  lighter : after = before ∨ after.weight < before.weight

theorem Reduces.refl (test : Test) : Reduces accepts test test :=
  ⟨id, Nat.le_refl _, fun _ => rfl, .inl rfl⟩

theorem Reduces.trans {first second third : Test} (left : Reduces accepts first second)
    (right : Reduces accepts second third) : Reduces accepts first third where
  accepted := right.accepted ∘ left.accepted
  length := Nat.le_trans right.length left.length
  unchanged := by
    intro quiet
    obtain rfl := right.unchanged quiet
    exact left.unchanged quiet
  lighter := by
    rcases left.lighter with rfl | less
    · exact right.lighter
    · rcases right.lighter with rfl | lesser
      · exact .inr less
      · exact .inr (Nat.lt_trans lesser less)

/-- A lighter candidate that is accepted. -/
theorem Reduces.of_accepted {test : Test} {tmpBuf : List UInt8} (accepted : accepts tmpBuf)
    (length : tmpBuf.length ≤ test.inData.length)
    (lighter : (⟨tmpBuf, true⟩ : Test).weight < test.weight) : Reduces accepts test ⟨tmpBuf, true⟩ where
  accepted := fun _ => accepted
  length := length
  unchanged := fun quiet => nomatch quiet
  lighter := .inr lighter

theorem Reduces.attempt {test : Test} {tmpBuf : List UInt8}
    (length : tmpBuf.length ≤ test.inData.length)
    (lighter : (⟨tmpBuf, true⟩ : Test).weight < test.weight) :
    Reduces accepts test (test.attempt accepts tmpBuf) := by
  unfold Test.attempt
  split
  · next accepted => exact .of_accepted accepted length lighter
  · exact .refl test

/-! ## Deletion -/

theorem otherChars_sublist {shorter longer : List UInt8} (sublist : shorter.Sublist longer) :
    otherChars shorter ≤ otherChars longer :=
  sublist.countP_le

theorem delete_sublist (inData : List UInt8) (delPos delLen : Nat) :
    (inData.take delPos ++ inData.drop (delPos + delLen)).Sublist inData := by
  have split : inData.take delPos ++ inData.drop delPos = inData := List.take_append_drop delPos inData
  conv => rhs; rw [← split]
  rw [← List.drop_drop]
  exact (List.Sublist.refl _).append (List.drop_sublist delLen _)

theorem deleteBlocks_reduces (delLen : Nat) (positive : 0 < delLen) (delPos : Nat) (prevDel : Bool)
    (test : Test) : Reduces accepts test (deleteBlocks accepts delLen positive delPos prevDel test) := by
  fun_induction deleteBlocks accepts delLen positive delPos prevDel test with
  | case1 delPos prevDel test inside tailLen skips ih => exact ih
  | case2 delPos prevDel test inside tailLen tested tmpBuf accepted shorter ih =>
    refine .trans (.of_accepted accepted (Nat.le_of_lt shorter) ?_) ih
    exact Nat.add_lt_add_of_lt_of_le shorter
      (otherChars_sublist (delete_sublist test.inData delPos delLen))
  | case3 delPos prevDel test inside tailLen tested tmpBuf rejected ih => exact ih
  | case4 delPos prevDel test outside => exact .refl test

theorem removeBlocks_reduces (limit : DelLenLimit) (delLen : Nat) (test : Test) :
    Reduces accepts test (removeBlocks accepts limit delLen test) := by
  fun_induction removeBlocks accepts limit delLen test with
  | case1 delLen test useLen removed continues ih =>
    exact .trans (deleteBlocks_reduces useLen _ 0 true test) ih
  | case2 delLen test useLen removed ends => exact deleteBlocks_reduces useLen _ 0 true test

/-! ## Replacement -/

theorem replace_count {i j : UInt8} (other : j ≠ i) (kept : j ≠ zeroChar) (inData : List UInt8) :
    (inData.map fun byte => if byte = i then zeroChar else byte).count j = inData.count j := by
  induction inData with
  | nil => rfl
  | cons byte rest ih =>
    rw [List.map_cons, List.count_cons, List.count_cons, ih]
    by_cases replaced : byte = i
    · simp [replaced, Ne.symm other, Ne.symm kept]
    · simp [replaced]

theorem replace_otherChars {i : UInt8} (kept : i ≠ zeroChar) (inData : List UInt8) :
    otherChars (inData.map fun byte => if byte = i then zeroChar else byte) + inData.count i =
      otherChars inData := by
  unfold otherChars
  induction inData with
  | nil => rfl
  | cons byte rest ih =>
    rw [List.map_cons, List.countP_cons, List.countP_cons, List.count_cons, ← ih]
    by_cases replaced : byte = i
    · simp [replaced, kept]
      omega
    · simp [replaced]
      omega

theorem minimizeSymbol_reduces {alphaMap : UInt8 → Nat} {test : Test} {i : UInt8}
    (counted : i ≠ zeroChar → alphaMap i = test.inData.count i) :
    Reduces accepts test (minimizeSymbol accepts alphaMap test i) := by
  unfold minimizeSymbol
  split
  · exact .refl test
  · next symbol =>
    obtain ⟨kept, occurs⟩ := not_or.mp symbol
    have fewer := replace_otherChars kept test.inData
    have some := counted kept
    apply Reduces.attempt
    · exact Nat.le_of_eq (List.length_map _)
    · simp only [Test.weight, List.length_map]
      omega

theorem minimizeSymbol_count {alphaMap : UInt8 → Nat} {test : Test} {i j : UInt8} (other : j ≠ i)
    (kept : j ≠ zeroChar) :
    (minimizeSymbol accepts alphaMap test i).inData.count j = test.inData.count j := by
  unfold minimizeSymbol Test.attempt
  split
  · rfl
  · split
    · exact replace_count other kept test.inData
    · rfl

/-- The counts of the symbols that are still to come stay as they were. -/
theorem minimizeSymbols_reduces {alphaMap : UInt8 → Nat} {symbols : List UInt8}
    (distinct : symbols.Nodup) {test : Test}
    (counted : ∀ i ∈ symbols, i ≠ zeroChar → alphaMap i = test.inData.count i) :
    Reduces accepts test (symbols.foldl (minimizeSymbol accepts alphaMap) test) := by
  induction symbols generalizing test with
  | nil => exact .refl test
  | cons i symbols ih =>
    obtain ⟨fresh, distinct⟩ := List.nodup_cons.mp distinct
    refine .trans (minimizeSymbol_reduces (counted i List.mem_cons_self)) (ih distinct ?_)
    intro j later kept
    have other : j ≠ i := fun same => fresh (same ▸ later)
    rw [minimizeSymbol_count other kept]
    exact counted j (List.mem_cons_of_mem i later) kept

theorem minimizeAlphabet_reduces (test : Test) :
    Reduces accepts test (minimizeAlphabet accepts test) := by
  refine minimizeSymbols_reduces ?_ fun i _ _ => rfl
  refine List.Nodup.map_on ?_ List.nodup_range
  intro a left b right same
  have bounds := List.mem_range.mp left
  have others := List.mem_range.mp right
  have values := congrArg UInt8.toNat same
  rwa [UInt8.toNat_ofNat_of_lt' bounds, UInt8.toNat_ofNat_of_lt' others] at values

theorem set_otherChars {inData : List UInt8} {i : Nat} (inside : i < inData.length)
    (other : inData[i] ≠ zeroChar) : otherChars (inData.set i zeroChar) < otherChars inData := by
  have counted : decide (inData[i] ≠ zeroChar) = true := decide_eq_true other
  have positive : 0 < otherChars inData :=
    List.countP_pos_iff.mpr ⟨inData[i], List.getElem_mem inside, counted⟩
  have zero : ¬decide (zeroChar ≠ zeroChar) = true := by decide
  unfold otherChars at positive ⊢
  rw [List.countP_set inside, if_pos counted, if_neg zero]
  omega

/-- The two buffers stay the same. -/
theorem minimizeCharacter_reduces {test : Test} {i : Nat} (inside : i < test.inData.length) :
    ∃ next, minimizeCharacter accepts (test, test.inData) i = (next, next.inData) ∧
      Reduces accepts test next ∧ next.inData.length = test.inData.length := by
  unfold minimizeCharacter
  extract_lets orig changed
  have here : orig = test.inData[i] := by simp [orig, inside]
  split
  · exact ⟨test, rfl, .refl test, rfl⟩
  · next other =>
    have length : changed.length = test.inData.length := List.length_set
    split
    · next accepted =>
      refine ⟨⟨changed, true⟩, rfl, .of_accepted accepted (Nat.le_of_eq length) ?_, length⟩
      exact Nat.add_lt_add_of_le_of_lt (Nat.le_of_eq length) (set_otherChars inside (here ▸ other))
    · have restored : changed.set i orig = test.inData := by
        rw [List.set_set, here, List.set_getElem_self]
      exact ⟨test, by rw [restored], .refl test, rfl⟩

theorem minimizeCharacters_reduces (test : Test) :
    Reduces accepts test (minimizeCharacters accepts test) := by
  have run (positions : List Nat) (current : Test)
      (inside : ∀ i ∈ positions, i < current.inData.length) :
      Reduces accepts current
        (positions.foldl (minimizeCharacter accepts) (current, current.inData)).1 := by
    induction positions generalizing current with
    | nil => exact .refl current
    | cons i positions ih =>
      obtain ⟨next, step, reduces, length⟩ :=
        @minimizeCharacter_reduces accepts current i (inside i List.mem_cons_self)
      rw [List.foldl_cons, step]
      refine reduces.trans (ih next ?_)
      intro j later
      rw [length]
      exact inside j (List.mem_cons_of_mem i later)
  exact run (List.range test.inData.length) test fun i member => List.mem_range.mp member

/-! ## One block length -/

/-- No byte can be removed. -/
def OneMinimal (accepts : List UInt8 → Bool) (inData : List UInt8) : Prop :=
  ∀ j < inData.length, accepts (inData.eraseIdx j) = false

/-- Two equal neighbours may be deleted for each other. -/
theorem eraseIdx_eq_of_sameAsBefore {inData : List UInt8} {delPos : Nat} (positive : 0 < delPos)
    (inside : delPos < inData.length) (same : sameAsBefore inData delPos 1) :
    inData.eraseIdx delPos = inData.eraseIdx (delPos - 1) := by
  obtain ⟨before, rfl⟩ : ∃ before, delPos = before + 1 := ⟨delPos - 1, by omega⟩
  have last : before < inData.length := Nat.lt_of_succ_lt inside
  have equal : inData[before] = inData[before + 1] := by
    simp only [sameAsBefore, decide_eq_true_eq, Nat.add_sub_cancel] at same
    rw [List.drop_eq_getElem_cons last, List.drop_eq_getElem_cons inside] at same
    exact (List.cons.inj same).1
  rw [List.eraseIdx_eq_take_drop_succ, List.eraseIdx_eq_take_drop_succ, Nat.add_sub_cancel,
    List.drop_eq_getElem_cons inside, ← equal, List.take_succ_eq_append_getElem last, List.append_assoc]
  rfl

/-- A round over single bytes that deletes nothing has tried them all. -/
theorem deleteBlocks_oneMinimal {delLen : Nat} (one : delLen = 1) {positive : 0 < delLen}
    {delPos : Nat} {prevDel : Bool} {test : Test}
    (quiet : (deleteBlocks accepts delLen positive delPos prevDel test).changedAny = false)
    (tried : ∀ j < delPos, j < test.inData.length → accepts (test.inData.eraseIdx j) = false)
    (started : prevDel = false → 0 < delPos) : OneMinimal accepts test.inData := by
  subst one
  fun_induction deleteBlocks accepts 1 positive delPos prevDel test with
  | case1 delPos prevDel test inside tailLen skips ih =>
    obtain ⟨stayed, _, same⟩ := skips
    have later : 0 < delPos := started (by simpa using stayed)
    refine ih ?_ (fun _ => Nat.succ_pos delPos) quiet
    intro j below bound
    rcases Nat.lt_succ_iff_lt_or_eq.mp below with earlier | rfl
    · exact tried j earlier bound
    · rw [eraseIdx_eq_of_sameAsBefore later inside same]
      exact tried (j - 1) (by omega) (by omega)
  | case2 delPos prevDel test inside tailLen tested tmpBuf accepted shorter ih =>
    have kept := (deleteBlocks_reduces 1 positive delPos true ⟨tmpBuf, true⟩).unchanged quiet
    rw [kept] at quiet
    exact nomatch quiet
  | case3 delPos prevDel test inside tailLen tested tmpBuf rejected ih =>
    refine ih ?_ (fun _ => Nat.succ_pos delPos) quiet
    intro j below bound
    rcases Nat.lt_succ_iff_lt_or_eq.mp below with earlier | rfl
    · exact tried j earlier bound
    · rw [List.eraseIdx_eq_take_drop_succ]
      exact Bool.eq_false_iff.mpr rejected
  | case4 delPos prevDel test outside =>
    intro j bound
    exact tried j (Nat.lt_of_lt_of_le bound (Nat.le_of_not_lt outside)) bound

/-! ## The passes -/

/-- The last round of a pass that has changed nothing is over single bytes. -/
theorem removeBlocks_oneMinimal {limit : DelLenLimit} (single : limit.value = 1) {delLen : Nat}
    {test : Test} (quiet : (removeBlocks accepts limit delLen test).changedAny = false) :
    OneMinimal accepts test.inData := by
  fun_induction removeBlocks accepts limit delLen test with
  | case1 delLen test useLen removed continues ih =>
    have still : removed.changedAny = false :=
      (removeBlocks_reduces limit (useLen / 2) removed).unchanged quiet ▸ quiet
    have same : removed = test := (deleteBlocks_reduces useLen _ 0 true test).unchanged still
    exact same ▸ ih quiet
  | case2 delLen test useLen removed ends =>
    have same : removed = test := (deleteBlocks_reduces useLen _ 0 true test).unchanged quiet
    by_cases empty : test.inData.length = 0
    · intro j bound
      exact absurd bound (by rw [empty]; exact Nat.not_lt_zero j)
    · have one : useLen = 1 := by
        have positive : 1 ≤ useLen := Nat.le_max_right delLen 1
        rw [same, single] at ends
        omega
      refine deleteBlocks_oneMinimal one quiet (fun j below => absurd below (Nat.not_lt_zero j)) ?_
      intro started
      exact nomatch started

theorem pass_reduces (limit : DelLenLimit) (curPass : Nat) (inData : List UInt8) :
    Reduces accepts ⟨inData, false⟩ (pass accepts limit curPass inData) := by
  unfold pass
  extract_lets removed
  have reduces : Reduces accepts ⟨inData, false⟩ removed := removeBlocks_reduces limit _ _
  split
  · exact reduces
  · exact reduces.trans ((minimizeAlphabet_reduces removed).trans (minimizeCharacters_reduces _))

/-- A pass that changes nothing has deleted nothing either. -/
theorem pass_oneMinimal {limit : DelLenLimit} (single : limit.value = 1) {curPass : Nat}
    {inData : List UInt8} (quiet : (pass accepts limit curPass inData).changedAny = false) :
    OneMinimal accepts inData := by
  unfold pass at quiet
  extract_lets removed at quiet
  refine @removeBlocks_oneMinimal accepts limit single _ ⟨inData, false⟩ (?_ : removed.changedAny = false)
  split at quiet
  · exact quiet
  · have reduces := (@minimizeAlphabet_reduces accepts removed).trans (minimizeCharacters_reduces _)
    exact reduces.unchanged quiet ▸ quiet

theorem nextPass_output {limit : DelLenLimit} {fuel curPass : Nat} {inData output : List UInt8}
    (ended : nextPass accepts limit fuel curPass inData = some output) (accepted : accepts inData) :
    accepts output ∧ output.length ≤ inData.length ∧
      (limit.value = 1 → OneMinimal accepts output) := by
  fun_induction nextPass accepts limit fuel curPass inData with
  | case1 => exact nomatch ended
  | case2 curPass inData test changed fuel ih =>
    have reduces : Reduces accepts ⟨inData, false⟩ test := pass_reduces limit curPass inData
    obtain ⟨kept, length, minimal⟩ := ih ended (reduces.accepted accepted)
    exact ⟨kept, Nat.le_trans length reduces.length, minimal⟩
  | case3 fuel curPass inData test changed =>
    have quiet : test.changedAny = false := Bool.eq_false_iff.mpr changed
    have same : test.inData = inData :=
      congrArg Test.inData ((pass_reduces limit curPass inData).unchanged quiet)
    obtain rfl : inData = output := same.symm.trans (Option.some.inj ended)
    exact ⟨accepted, Nat.le_refl _, fun single => pass_oneMinimal single quiet⟩

/-- Every pass but the last makes the input lighter. -/
theorem pass_lighter {limit : DelLenLimit} {curPass : Nat} {inData : List UInt8}
    (changed : (pass accepts limit curPass inData).changedAny) :
    (pass accepts limit curPass inData).weight < inData.length + otherChars inData := by
  rcases (pass_reduces limit curPass inData).lighter with unchanged | lighter
  · rw [unchanged] at changed
    exact nomatch changed
  · exact lighter

theorem nextPass_total (limit : DelLenLimit) {fuel : Nat} (curPass : Nat) {inData : List UInt8}
    (enough : inData.length + otherChars inData ≤ fuel) :
    ∃ output, nextPass accepts limit fuel curPass inData = some output := by
  fun_induction nextPass accepts limit fuel curPass inData with
  | case1 curPass inData test changed =>
    exact absurd (Nat.lt_of_lt_of_le (pass_lighter changed) enough) (Nat.not_lt_zero _)
  | case2 curPass inData test changed fuel ih =>
    exact ih (Nat.le_of_lt_succ (Nat.lt_of_lt_of_le (pass_lighter changed) enough))
  | case3 fuel curPass inData test changed => exact ⟨_, rfl⟩

/-- The normalization changes no length. -/
theorem normalizeBlocks_spec (setLen : Nat) (positive : 0 < setLen) (setPos : Nat) (inData : List UInt8) :
    (normalizeBlocks accepts setLen positive setPos inData).length = inData.length ∧
      (accepts inData → accepts (normalizeBlocks accepts setLen positive setPos inData)) := by
  fun_induction normalizeBlocks accepts setLen positive setPos inData with
  | case1 setPos inData inside useLen block zeros ih => exact ih
  | case2 setPos inData inside useLen block tmpBuf others accepted same ih =>
    exact ⟨ih.1.trans same, fun _ => ih.2 accepted⟩
  | case3 setPos inData inside useLen block tmpBuf others rejected ih => exact ih
  | case4 setPos inData outside => exact ⟨rfl, id⟩

/-- The minimization ends after two passes for each byte at most, its output is accepted and no
longer than the input, and with blocks down to one byte no byte of it can be removed. -/
theorem minimize_output {limit : DelLenLimit} {fuel : Nat} {inData : List UInt8}
    (accepted : accepts inData) (enough : 2 * inData.length ≤ fuel) :
    ∃ output, minimize accepts limit fuel inData = some output ∧ accepts output ∧
      output.length ≤ inData.length ∧ (limit.value = 1 → OneMinimal accepts output) := by
  unfold minimize
  extract_lets setLen positive
  obtain ⟨length, kept⟩ := @normalizeBlocks_spec accepts setLen positive 0 inData
  have others : otherChars (normalizeBlocks accepts setLen positive 0 inData) ≤ inData.length :=
    length ▸ List.countP_le_length
  obtain ⟨output, ended⟩ := @nextPass_total accepts limit fuel 1
    (normalizeBlocks accepts setLen positive 0 inData) (by omega)
  obtain ⟨good, shorter, minimal⟩ := nextPass_output ended (kept accepted)
  exact ⟨output, ended, good, length ▸ shorter, minimal⟩

/-- A target that crashes on an `A`. -/
def crashTarget (mem : List UInt8) : Execution := ⟨if 0x41 ∈ mem then .crash else .ok, 1⟩

theorem minimize_output_crash :
    ∃ output, minimize (tminAccepts ⟨false, true, false, 0⟩ crashTarget) .default 4 [0x41, 0x42] =
        some output ∧
      tminAccepts ⟨false, true, false, 0⟩ crashTarget output ∧ output.length ≤ 2 ∧
      OneMinimal (tminAccepts ⟨false, true, false, 0⟩ crashTarget) output := by
  have settled : dryRun false false (crashTarget [0x41, 0x42]) = some ⟨false, true, false, 0⟩ := rfl
  obtain ⟨output, ended, good, shorter, minimal⟩ :=
    @minimize_output _ .default 4 [0x41, 0x42] (tminAccepts_dryRun settled) (by decide)
  exact ⟨output, ended, good, shorter, minimal rfl⟩

/-- With `-l 2` a byte of the output can be removed where no block of two bytes can. -/
theorem minimize_not_oneMinimal :
    ¬∀ (accepts : List UInt8 → Bool) (limit : DelLenLimit) (fuel : Nat) (inData output : List UInt8),
      accepts inData → minimize accepts limit fuel inData = some output → OneMinimal accepts output := by
  intro minimal
  have ended : minimize (fun buf => 31 ≤ buf.length) ⟨2, by decide, by decide⟩ 0
      (List.replicate 32 zeroChar) = some (List.replicate 32 zeroChar) := by decide +kernel
  have rejected := minimal _ _ _ _ _ (by decide) ended 0 (by decide)
  exact absurd rejected (by decide)

end SbFuzz.Utils.AflTmin
