import Mathlib.Data.List.Induction
import Mathlib.Data.List.Perm.Basic
import SbFuzz.Fuzzer.Bitmap

/-! What the virgin map knows after a sequence of traces, and what
`has_new_bits` says about each of them. -/

set_option autoImplicit false

namespace SbFuzz.Fuzzer

/-! ## Bytes of words -/

theorem byteOf_toNat (word : UInt64) (k : Nat) (low : k < 8) :
    (byteOf word k).toNat = word.toNat >>> (8 * k) % 256 := by
  have shift : (UInt64.ofNat (8 * k)).toNat % 64 = 8 * k := by
    rw [UInt64.toNat_ofNat_of_lt' (by omega : 8 * k < 2 ^ 64)]
    omega
  rw [byteOf, UInt64.toNat_toUInt8, UInt64.toNat_shiftRight, shift]

theorem byteOf_testBit (word : UInt64) {k bit : Nat} (low : k < 8) (inByte : bit < 8) :
    (byteOf word k).toNat.testBit bit = word.toNat.testBit (8 * k + bit) := by
  have whole : (256 : Nat) = 2 ^ 8 := rfl
  rw [byteOf_toNat word k low, whole, Nat.testBit_mod_two_pow, Nat.testBit_shiftRight]
  simp [inByte]

theorem byte_ext {left right : UInt8}
    (same : ∀ bit < 8, left.toNat.testBit bit = right.toNat.testBit bit) : left = right := by
  apply UInt8.toNat_inj.mp
  apply Nat.eq_of_testBit_eq
  intro bit
  by_cases inByte : bit < 8
  · exact same bit inByte
  · have above : 2 ^ 8 ≤ 2 ^ bit := Nat.pow_le_pow_right (by decide) (by omega)
    rw [Nat.testBit_lt_two_pow (Nat.lt_of_lt_of_le left.toNat_lt above),
      Nat.testBit_lt_two_pow (Nat.lt_of_lt_of_le right.toNat_lt above)]

theorem byteOf_and (left right : UInt64) {k : Nat} (low : k < 8) :
    byteOf (left &&& right) k = byteOf left k &&& byteOf right k := by
  apply byte_ext
  intro bit inByte
  simp only [UInt8.toNat_and, Nat.testBit_and, byteOf_testBit _ low inByte, UInt64.toNat_and]

theorem byteOf_not (word : UInt64) {k : Nat} (low : k < 8) :
    byteOf (~~~word) k = ~~~byteOf word k := by
  have whole : ∀ bit, (~~~word).toNat.testBit bit =
      (decide (bit < 64) && !word.toNat.testBit bit) := by
    intro bit
    rw [UInt64.toNat_not, show UInt64.size - 1 - word.toNat = 2 ^ 64 - (word.toNat + 1) by
      change 2 ^ 64 - 1 - word.toNat = _; omega]
    exact Nat.testBit_two_pow_sub_succ word.toNat_lt bit
  have part : ∀ bit, (~~~byteOf word k).toNat.testBit bit =
      (decide (bit < 8) && !(byteOf word k).toNat.testBit bit) := by
    intro bit
    rw [UInt8.toNat_not, show UInt8.size - 1 - (byteOf word k).toNat =
      2 ^ 8 - ((byteOf word k).toNat + 1) by
        change 2 ^ 8 - 1 - (byteOf word k).toNat = _; omega]
    exact Nat.testBit_two_pow_sub_succ (byteOf word k).toNat_lt bit
  apply byte_ext
  intro bit inByte
  rw [byteOf_testBit _ low inByte, whole, part, byteOf_testBit _ low inByte]
  simp [inByte, show 8 * k + bit < 64 by omega]

theorem ne_zero_iff_byteOf (word : UInt64) : word ≠ 0 ↔ ∃ k < 8, byteOf word k ≠ 0 := by
  constructor
  · intro notZero
    by_contra none
    simp only [not_exists, not_and, not_not] at none
    apply notZero
    apply UInt64.toNat_inj.mp
    apply Nat.eq_of_testBit_eq
    intro bit
    by_cases inWord : bit < 64
    · have zero := none (bit / 8) (by omega)
      have found := byteOf_testBit word (by omega : bit / 8 < 8) (Nat.mod_lt bit (by decide))
      rw [zero, Nat.div_add_mod] at found
      simpa using found.symm
    · have above : 2 ^ 64 ≤ 2 ^ bit := Nat.pow_le_pow_right (by decide) (by omega)
      rw [Nat.testBit_lt_two_pow (Nat.lt_of_lt_of_le word.toNat_lt above)]
      simp
  · rintro ⟨k, low, notZero⟩ rfl
    exact notZero (by simp [byteOf])

/-! ## Words of the map -/

/-- A byte of the trace that the virgin map does not know at all. -/
def Pristine (current virgin : UInt64) : Prop :=
  ∃ k < 8, byteOf current k ≠ 0 ∧ byteOf virgin k = 0xff

instance (current virgin : UInt64) : Decidable (Pristine current virgin) :=
  inferInstanceAs (Decidable (∃ k < 8, _))

theorem Pristine.overlaps {current virgin : UInt64} (pristine : Pristine current virgin) :
    current &&& virgin ≠ 0 := by
  obtain ⟨k, low, touched, untouched⟩ := pristine
  apply (ne_zero_iff_byteOf _).mpr
  refine ⟨k, low, ?_⟩
  rw [byteOf_and _ _ low, untouched]
  intro zero
  apply touched
  have all : byteOf current k &&& 0xff = byteOf current k := by
    apply byte_ext
    intro bit inByte
    rw [UInt8.toNat_and, Nat.testBit_and]
    have ones : ∀ bit < 8, (0xff : UInt8).toNat.testBit bit = true := by decide
    rw [ones bit inByte, Bool.and_true]
  rw [← all, zero]

theorem and_not_of_and_eq_zero {current virgin : UInt64} (apart : current &&& virgin = 0) :
    virgin &&& ~~~current = virgin := by
  apply UInt64.toBitVec_inj.mp
  ext bit inWord
  have clear := congrArg (fun word : UInt64 => word.toBitVec[bit]) apart
  simp only [UInt64.toBitVec_and, BitVec.getElem_and, UInt64.toBitVec_ofNat,
    BitVec.getElem_zero] at clear
  simp only [UInt64.toBitVec_and, UInt64.toBitVec_not, BitVec.getElem_and, BitVec.getElem_not]
  revert clear
  cases current.toBitVec[bit] <;> cases virgin.toBitVec[bit] <;> simp

/-- A round of `has_new_bits`, with its test of `*current`. -/
theorem discoverWord_spec (ret : UInt8) (current virgin : UInt64) :
    (if current ≠ 0 then discoverWord ret current virgin else (ret, virgin)) =
      (if current &&& virgin = 0 then ret
        else if 2 ≤ ret then ret
        else if Pristine current virgin then 2 else 1, virgin &&& ~~~current) := by
  have pristine : ((List.range 8).any fun k =>
      byteOf current k ≠ 0 && byteOf virgin k = 0xff) = decide (Pristine current virgin) := by
    rw [Bool.eq_iff_iff, decide_eq_true_iff]
    simp [Pristine, List.any_eq_true]
  by_cases zero : current = 0
  · simp [zero]
  by_cases apart : current &&& virgin = 0
  · simp [zero, apart, discoverWord, and_not_of_and_eq_zero apart]
  · simp only [ne_eq, zero, not_false_eq_true, if_true, discoverWord, apart, if_false, pristine]
    by_cases settled : 2 ≤ ret
    · simp [settled, UInt8.not_lt.mpr settled]
    · simp [settled, UInt8.not_le.mp settled]

theorem discoverWords_virgin {i : Nat} (ret : UInt8) {current virgin : List UInt64}
    (inTrace : i ≤ current.length) (inMap : i ≤ virgin.length) (k : Nat) :
    (discoverWords i ret current virgin).2.getD k 0 =
      if k < i then virgin.getD k 0 &&& ~~~current.getD k 0 else virgin.getD k 0 := by
  induction i generalizing ret current virgin k with
  | zero => cases current <;> cases virgin <;> simp [discoverWords]
  | succ i ih =>
      obtain ⟨word, current, rfl⟩ := List.exists_cons_of_length_pos (by omega : 0 < current.length)
      obtain ⟨virginWord, virgin, rfl⟩ :=
        List.exists_cons_of_length_pos (by omega : 0 < virgin.length)
      simp only [List.length_cons, Nat.add_le_add_iff_right] at inTrace inMap
      simp only [discoverWords, discoverWord_spec]
      cases k with
      | zero => simp
      | succ k => simpa using ih _ inTrace inMap k

/-- What `has_new_bits` returns when it starts with `ret`. -/
theorem discoverWords_ret {i : Nat} {ret : UInt8} {current virgin : List UInt64}
    (inTrace : i ≤ current.length) (inMap : i ≤ virgin.length) :
    (discoverWords i ret current virgin).1 =
      if 2 ≤ ret then ret
      else if ∃ k < i, Pristine (current.getD k 0) (virgin.getD k 0) then 2
      else if ∃ k < i, current.getD k 0 &&& virgin.getD k 0 ≠ 0 then 1 else ret := by
  induction i generalizing ret current virgin with
  | zero => cases current <;> cases virgin <;> simp [discoverWords]
  | succ i ih =>
      obtain ⟨word, current, rfl⟩ := List.exists_cons_of_length_pos (by omega : 0 < current.length)
      obtain ⟨virginWord, virgin, rfl⟩ :=
        List.exists_cons_of_length_pos (by omega : 0 < virgin.length)
      simp only [List.length_cons, Nat.add_le_add_iff_right] at inTrace inMap
      simp only [discoverWords, discoverWord_spec, ih inTrace inMap,
        Nat.exists_lt_succ_left, List.getD_cons_zero, List.getD_cons_succ]
      by_cases settled : 2 ≤ ret
      · simp [settled]
      by_cases pristine : Pristine word virginWord
      · simp [settled, pristine, pristine.overlaps]
      by_cases apart : word &&& virginWord = 0
      · simp [settled, pristine, apart]
      · have one : ¬ (2 : UInt8) ≤ 1 := by decide
        simp [settled, pristine, apart, one]

/-! ## Bytes of the map -/

section

variable {sizes : MapSizes}

def CoverageMap.byte (map : CoverageMap sizes) (i : Nat) : UInt8 :=
  byteOf (map.words.getD (i / 8) 0) (i % 8)

/-- The bytes that `has_new_bits` looks at: the map without its padding, up to
the end of a word. -/
def MapSizes.scanned (sizes : MapSizes) : Nat := 8 * ((sizes.realMapSize + 7) >>> 3).toNat

theorem CoverageMap.scannedWords (map : CoverageMap sizes) :
    ((sizes.realMapSize + 7) >>> 3).toNat ≤ map.words.length := by
  have words := sizes.realWords_le
  have length := map.length
  rw [toNat_shiftRight_three sizes.mapSize] at words
  omega

theorem exists_byte {words : Nat} {Found : Nat → Nat → Prop} :
    (∃ k < words, ∃ byte < 8, Found k byte) ↔ ∃ i < 8 * words, Found (i / 8) (i % 8) := by
  constructor
  · rintro ⟨k, inMap, byte, inWord, found⟩
    refine ⟨8 * k + byte, by omega, ?_⟩
    rwa [show (8 * k + byte) / 8 = k by omega, show (8 * k + byte) % 8 = byte by omega]
  · rintro ⟨i, inMap, found⟩
    exact ⟨i / 8, by omega, i % 8, Nat.mod_lt _ (by decide), found⟩

theorem hasNewBits_virgin (afl : AflState sizes) (virginMap : VirginMap) (i : Nat) :
    ((hasNewBits afl virginMap).2.virgin virginMap).byte i =
      if i < sizes.scanned then (afl.virgin virginMap).byte i &&& ~~~afl.traceBits.byte i
      else (afl.virgin virginMap).byte i := by
  have inByte : i % 8 < 8 := Nat.mod_lt i (by decide)
  have word := discoverWords_virgin 0 afl.traceBits.scannedWords
    (afl.virgin virginMap).scannedWords (i / 8)
  have inScan : i < sizes.scanned ↔ i / 8 < ((sizes.realMapSize + 7) >>> 3).toNat := by
    unfold MapSizes.scanned
    omega
  simp only [hasNewBits, Function.update_self, CoverageMap.byte, word, inScan]
  split
  · rw [byteOf_and _ _ inByte, byteOf_not _ inByte]
  · rfl

theorem hasNewBits_ret (afl : AflState sizes) (virginMap : VirginMap) :
    (hasNewBits afl virginMap).1 =
      if ∃ i < sizes.scanned, afl.traceBits.byte i ≠ 0 ∧ (afl.virgin virginMap).byte i = 0xff
      then 2
      else if ∃ i < sizes.scanned, afl.traceBits.byte i &&& (afl.virgin virginMap).byte i ≠ 0
      then 1 else 0 := by
  have overlaps (k : Nat) : afl.traceBits.words.getD k 0 &&&
      (afl.virgin virginMap).words.getD k 0 ≠ 0 ↔ ∃ byte < 8,
        byteOf (afl.traceBits.words.getD k 0) byte &&&
          byteOf ((afl.virgin virginMap).words.getD k 0) byte ≠ 0 := by
    rw [ne_zero_iff_byteOf]
    exact exists_congr fun byte => and_congr_right fun inWord => by rw [byteOf_and _ _ inWord]
  have ret := @discoverWords_ret _ 0 _ _ afl.traceBits.scannedWords
    (afl.virgin virginMap).scannedWords
  simp only [overlaps, Pristine, exists_byte] at ret
  simpa [hasNewBits, CoverageMap.byte, MapSizes.scanned] using ret

/-! ## Histories -/

/-- The traces, one after the other, with what `has_new_bits` returns for each. -/
def feedTraces (virginMap : VirginMap) :
    AflState sizes → List (CoverageMap sizes) → List UInt8 × AflState sizes
  | afl, [] => ([], afl)
  | afl, trace :: traces =>
      let (ret, next) := hasNewBits { afl with traceBits := trace } virginMap
      let (rets, final) := feedTraces virginMap next traces
      (ret :: rets, final)

/-- `t1 | ... | tn` at a byte. -/
def bitsSeen (traces : List (CoverageMap sizes)) (i : Nat) : UInt8 :=
  traces.foldl (fun bits trace => bits ||| trace.byte i) 0

@[simp] theorem bitsSeen_nil (i : Nat) : bitsSeen ([] : List (CoverageMap sizes)) i = 0 := rfl

@[simp] theorem bitsSeen_snoc (traces : List (CoverageMap sizes)) (trace : CoverageMap sizes)
    (i : Nat) : bitsSeen (traces ++ [trace]) i = bitsSeen traces i ||| trace.byte i := by
  simp [bitsSeen]

theorem or_eq_zero_iff (left right : UInt8) : left ||| right = 0 ↔ left = 0 ∧ right = 0 := by
  rw [← UInt8.toNat_inj, ← UInt8.toNat_inj, ← UInt8.toNat_inj, UInt8.toNat_or]
  exact Nat.or_eq_zero_iff

theorem not_or_byte (left right : UInt8) : ~~~(left ||| right) = ~~~left &&& ~~~right :=
  UInt8.toBitVec_inj.mp BitVec.not_or

theorem bitsSeen_eq_zero_iff (traces : List (CoverageMap sizes)) (i : Nat) :
    bitsSeen traces i = 0 ↔ ∀ trace ∈ traces, trace.byte i = 0 := by
  induction traces using List.reverseRecOn with
  | nil => simp
  | append_singleton traces trace ih =>
      rw [bitsSeen_snoc, or_eq_zero_iff, ih]
      simp [or_imp, forall_and]

theorem bitsSeen_perm {traces other : List (CoverageMap sizes)} (permuted : traces.Perm other)
    (i : Nat) : bitsSeen traces i = bitsSeen other i := by
  unfold bitsSeen
  apply permuted.foldl_eq'
  intro first _ second _ bits
  rw [UInt8.or_assoc, UInt8.or_assoc, UInt8.or_comm (first.byte i)]

/-- A trace touches a byte that no earlier one touched, or it sets a bit that no
earlier one set. -/
def novelty (earlier : List (CoverageMap sizes)) (trace : CoverageMap sizes) : UInt8 :=
  if ∃ i < sizes.scanned, trace.byte i ≠ 0 ∧ ∀ other ∈ earlier, other.byte i = 0 then 2
  else if ∃ i < sizes.scanned, trace.byte i &&& ~~~bitsSeen earlier i ≠ 0 then 1
  else 0

/-- The virgin map after these traces. -/
structure Knows (virgin : CoverageMap sizes) (earlier : List (CoverageMap sizes)) : Prop where
  scanned : ∀ i < sizes.scanned, virgin.byte i = ~~~bitsSeen earlier i
  padding : ∀ i < sizes.mapSize.toNat, sizes.scanned ≤ i → virgin.byte i = 0xff

theorem not_eq_ones_iff (bits : UInt8) : ~~~bits = 0xff ↔ bits = 0 := by
  constructor
  · intro ones
    rw [← UInt8.not_not (a := bits), ones]
    rfl
  · rintro rfl
    rfl

theorem hasNewBits_knows {afl : AflState sizes} {virginMap : VirginMap}
    {earlier : List (CoverageMap sizes)} (knows : Knows (afl.virgin virginMap) earlier) :
    (hasNewBits afl virginMap).1 = novelty earlier afl.traceBits ∧
      Knows ((hasNewBits afl virginMap).2.virgin virginMap) (earlier ++ [afl.traceBits]) := by
  constructor
  · rw [hasNewBits_ret, novelty]
    have pristine : (∃ i < sizes.scanned, afl.traceBits.byte i ≠ 0 ∧
        (afl.virgin virginMap).byte i = 0xff) ↔ ∃ i < sizes.scanned,
          afl.traceBits.byte i ≠ 0 ∧ ∀ other ∈ earlier, other.byte i = 0 :=
      exists_congr fun i => and_congr_right fun inMap => by
        rw [knows.scanned i inMap, not_eq_ones_iff, bitsSeen_eq_zero_iff]
    have fresh : (∃ i < sizes.scanned,
        afl.traceBits.byte i &&& (afl.virgin virginMap).byte i ≠ 0) ↔ ∃ i < sizes.scanned,
          afl.traceBits.byte i &&& ~~~bitsSeen earlier i ≠ 0 :=
      exists_congr fun i => and_congr_right fun inMap => by rw [knows.scanned i inMap]
    simp only [pristine, fresh]
  · refine ⟨fun i inMap => ?_, fun i inMap behind => ?_⟩
    · rw [hasNewBits_virgin, if_pos inMap, knows.scanned i inMap, bitsSeen_snoc, not_or_byte]
    · rw [hasNewBits_virgin, if_neg (Nat.not_lt.mpr behind)]
      exact knows.padding i inMap behind

theorem feedTraces_knows {virginMap : VirginMap} {traces : List (CoverageMap sizes)}
    {afl : AflState sizes} {earlier : List (CoverageMap sizes)}
    (knows : Knows (afl.virgin virginMap) earlier) :
    Knows ((feedTraces virginMap afl traces).2.virgin virginMap) (earlier ++ traces) ∧
      ∀ k trace, traces[k]? = some trace →
        (feedTraces virginMap afl traces).1[k]? =
          some (novelty (earlier ++ traces.take k) trace) := by
  induction traces generalizing afl earlier with
  | nil => exact ⟨by simpa [feedTraces] using knows, by simp⟩
  | cons trace traces ih =>
      obtain ⟨ret, next⟩ := @hasNewBits_knows _ { afl with traceBits := trace } _ _ knows
      obtain ⟨final, rets⟩ := ih next
      refine ⟨by simpa [feedTraces] using final, fun k other found => ?_⟩
      cases k with
      | zero =>
          obtain rfl : trace = other := by simpa using found
          simpa [feedTraces] using ret
      | succ k =>
          have later := rets k other (by simpa using found)
          simpa [feedTraces] using later

theorem novelty_of_mem {earlier : List (CoverageMap sizes)} {trace : CoverageMap sizes}
    (member : trace ∈ earlier) : novelty earlier trace = 0 := by
  have untouched : ¬ ∃ i < sizes.scanned, trace.byte i ≠ 0 ∧
      ∀ other ∈ earlier, other.byte i = 0 := by
    rintro ⟨i, _, touched, none⟩
    exact touched (none trace member)
  have known : ¬ ∃ i < sizes.scanned, trace.byte i &&& ~~~bitsSeen earlier i ≠ 0 := by
    rintro ⟨i, _, fresh⟩
    apply fresh
    obtain ⟨before, after, rfl⟩ := List.append_of_mem member
    have moved : (before ++ trace :: after).Perm ((before ++ after) ++ [trace]) := by
      have swapped : ([trace] ++ after).Perm (after ++ [trace]) := List.perm_append_comm
      simpa using swapped.append_left before
    rw [bitsSeen_perm moved, bitsSeen_snoc, not_or_byte, UInt8.and_comm (~~~_),
      ← UInt8.and_assoc]
    simp
  rw [novelty, if_neg untouched, if_neg known]

/-- After any traces the virgin map is the complement of all of them, and each
trace was judged against the ones before it. -/
theorem feedTraces_history {afl : AflState sizes} {virginMap : VirginMap}
    (pristine : ∀ i < sizes.mapSize.toNat, (afl.virgin virginMap).byte i = 0xff)
    (traces : List (CoverageMap sizes)) :
    let fed := feedTraces virginMap afl traces
    (∀ i < sizes.mapSize.toNat, (i < sizes.scanned ∨ ∀ trace ∈ traces, trace.byte i = 0) →
      (fed.2.virgin virginMap).byte i = ~~~bitsSeen traces i) ∧
    (∀ other, traces.Perm other → ∀ i < sizes.mapSize.toNat,
      ((feedTraces virginMap afl other).2.virgin virginMap).byte i =
        (fed.2.virgin virginMap).byte i) ∧
    (∀ k trace, traces[k]? = some trace → fed.1[k]? = some (novelty (traces.take k) trace)) ∧
    ∀ j k, j < k → k < traces.length → traces[j]? = traces[k]? → fed.1[k]? = some 0 := by
  have inMap {i : Nat} (scanned : i < sizes.scanned) : i < sizes.mapSize.toNat := by
    have words := (afl.virgin virginMap).scannedWords
    have length := (afl.virgin virginMap).length
    unfold MapSizes.scanned at scanned
    omega
  have start : Knows (afl.virgin virginMap) [] :=
    ⟨fun i scanned => by rw [pristine i (inMap scanned), bitsSeen_nil]; decide,
      fun i mapped _ => pristine i mapped⟩
  have knows (traces : List (CoverageMap sizes)) := (@feedTraces_knows _ _ traces _ _ start).1
  have rets := (@feedTraces_knows _ _ traces _ _ start).2
  simp only [List.nil_append] at knows rets
  refine ⟨fun i mapped outside => ?_, fun other permuted i mapped => ?_, rets, ?_⟩
  · rcases Nat.lt_or_ge i sizes.scanned with scanned | behind
    · exact (knows traces).scanned i scanned
    · have zero := (bitsSeen_eq_zero_iff traces i).mpr
        (outside.resolve_left (Nat.not_lt.mpr behind))
      rw [(knows traces).padding i mapped behind, zero]
      rfl
  · rcases Nat.lt_or_ge i sizes.scanned with scanned | behind
    · rw [(knows other).scanned i scanned, (knows traces).scanned i scanned, bitsSeen_perm permuted]
    · rw [(knows other).padding i mapped behind, (knows traces).padding i mapped behind]
  · intro j k earlier inRange same
    rw [List.getElem?_eq_getElem inRange] at same
    rw [rets k _ (List.getElem?_eq_getElem inRange)]
    congr 1
    apply novelty_of_mem
    exact List.mem_of_getElem? (i := j) (by rw [List.getElem?_take_of_lt earlier, same])

end

def smallSizes : MapSizes := ⟨8, 64, by decide⟩

def oneWord (word : UInt64) : CoverageMap smallSizes := ⟨word :: List.replicate 7 0, rfl⟩

def pristineAfl : AflState smallSizes :=
  ⟨oneWord 0, fun _ => ⟨List.replicate 8 0xffffffffffffffff, rfl⟩, false⟩

theorem feedTraces_history_oneWord :
    (feedTraces .bits pristineAfl [oneWord 1, oneWord 0x101, oneWord 3]).1[2]? =
      some (novelty [oneWord 1, oneWord 0x101] (oneWord 3)) ∧
    novelty [oneWord 1, oneWord 0x101] (oneWord 3) = 1 :=
  ⟨(@feedTraces_history _ pristineAfl .bits (by decide) [oneWord 1, oneWord 0x101, oneWord 3]
    ).2.2.1 2 (oneWord 3) rfl, by decide⟩

end SbFuzz.Fuzzer
