import SbFuzz.Fuzzer.Bitmap
import SbFuzz.Fuzzer.CoverageBuilds

/-! All builds of the coverage code do to every byte what its lookup table says, so they differ only
in how far `has_new_bits` goes beyond the real size of the map. -/

set_option autoImplicit false

namespace SbFuzz.Fuzzer

open SbFuzz.Memory

/-! ## Classification byte by byte -/

theorem getLsbD_high (value : UInt8) {i : Nat} (high : 8 ≤ i) : value.toBitVec.getLsbD i = false :=
  BitVec.getLsbD_of_ge _ _ high

theorem getLsbD_countClassLookup16 (counts : UInt16) (i : Nat) :
    (countClassLookup16 counts).toBitVec.getLsbD i =
      if i < 8 then (countClassLookup8 counts.toUInt8).toBitVec.getLsbD i
      else (countClassLookup8 (counts >>> 8).toUInt8).toBitVec.getLsbD (i - 8) := by
  have high := @getLsbD_high
  simp [countClassLookup16]
  grind

theorem getLsbD_byte64 (word : UInt64) (k i : Nat) :
    (Lanes.byte word k).toBitVec.getLsbD i =
      (decide (i < 8) && word.toBitVec.getLsbD (8 * k + i)) :=
  BitVec.getLsbD_extractLsb' _ _ _ _

theorem getLsbD_byte32 (word : UInt32) (k i : Nat) :
    (Lanes.byte word k).toBitVec.getLsbD i =
      (decide (i < 8) && word.toBitVec.getLsbD (8 * k + i)) :=
  BitVec.getLsbD_extractLsb' _ _ _ _

/-- The two bytes of a word of 16 bits. -/
theorem toUInt8_halves {word : UInt16} {low high : UInt8} {bits : Nat → Bool}
    (whole : ∀ i, word.toBitVec.getLsbD i = (decide (i < 16) && bits i))
    (lowBits : ∀ i, low.toBitVec.getLsbD i = (decide (i < 8) && bits i))
    (highBits : ∀ i, high.toBitVec.getLsbD i = (decide (i < 8) && bits (8 + i))) :
    word.toUInt8 = low ∧ (word >>> 8).toUInt8 = high := by
  have shift : ((8 : UInt16).toBitVec % 16).toNat = 8 := by decide
  constructor
  · apply UInt8.toBitVec_inj.mp
    apply BitVec.eq_of_getLsbD_eq
    intro i inByte
    have inWord : i < 16 := by omega
    rw [UInt16.toBitVec_toUInt8, BitVec.getLsbD_setWidth, whole, lowBits, decide_eq_true inWord,
      Bool.true_and]
  · apply UInt8.toBitVec_inj.mp
    apply BitVec.eq_of_getLsbD_eq
    intro i inByte
    have inWord : 8 + i < 16 := by omega
    rw [UInt16.toBitVec_toUInt8, BitVec.getLsbD_setWidth, UInt16.toBitVec_shiftRight,
      BitVec.ushiftRight_eq', shift, BitVec.getLsbD_ushiftRight, whole, highBits,
      decide_eq_true inWord, Bool.true_and]

theorem getLsbD_mem16 (word : UInt64) {j : Nat} (inside : j < 4) (i : Nat) :
    (mem16 word j).toBitVec.getLsbD i =
      (decide (i < 16) && word.toBitVec.getLsbD (16 * j + i)) := by
  have shift : 16 * j % 64 = 16 * j := by omega
  simp [mem16, shift]

theorem mem16_bytes (word : UInt64) {j : Nat} (inside : j < 4) :
    (mem16 word j).toUInt8 = Lanes.byte word (2 * j) ∧
      (mem16 word j >>> 8).toUInt8 = Lanes.byte word (2 * j + 1) := by
  have low : 8 * (2 * j) = 16 * j := by omega
  have high (i : Nat) : 8 * (2 * j + 1) + i = 16 * j + (8 + i) := by omega
  refine toUInt8_halves (getLsbD_mem16 word inside) ?_ ?_
  · intro i
    rw [getLsbD_byte64, low]
  · intro i
    rw [getLsbD_byte64, high]

theorem Coverage32.getLsbD_mem16 (word : UInt32) {j : Nat} (inside : j < 2) (i : Nat) :
    (mem16 word j).toBitVec.getLsbD i =
      (decide (i < 16) && word.toBitVec.getLsbD (16 * j + i)) := by
  have shift : 16 * j % 32 = 16 * j := by omega
  simp [mem16, shift]

theorem Coverage32.mem16_bytes (word : UInt32) {j : Nat} (inside : j < 2) :
    (mem16 word j).toUInt8 = Lanes.byte word (2 * j) ∧
      (mem16 word j >>> 8).toUInt8 = Lanes.byte word (2 * j + 1) := by
  have low : 8 * (2 * j) = 16 * j := by omega
  have high (i : Nat) : 8 * (2 * j + 1) + i = 16 * j + (8 + i) := by omega
  refine toUInt8_halves (Coverage32.getLsbD_mem16 word inside) ?_ ?_
  · intro i
    rw [getLsbD_byte32, low]
  · intro i
    rw [getLsbD_byte32, high]

theorem bytes_classifyWord (word : UInt64) :
    Lanes.bytes (classifyWord word) = (Lanes.bytes word).map countClassLookup8 := by
  rw [Lanes.bytes, Lanes.bytes, List.map_map, List.map_inj_left]
  intro k member
  have inside : k < 8 := List.mem_range.mp member
  have high := @getLsbD_high
  obtain ⟨low0, high0⟩ := mem16_bytes word (show 0 < 4 by decide)
  obtain ⟨low1, high1⟩ := mem16_bytes word (show 1 < 4 by decide)
  obtain ⟨low2, high2⟩ := mem16_bytes word (show 2 < 4 by decide)
  obtain ⟨low3, high3⟩ := mem16_bytes word (show 3 < 4 by decide)
  apply UInt8.toBitVec_inj.mp
  apply BitVec.eq_of_getLsbD_eq
  intro i low
  rw [getLsbD_byte64, decide_eq_true low, Bool.true_and, Function.comp_apply]
  have cases : k = 0 ∨ k = 1 ∨ k = 2 ∨ k = 3 ∨ k = 4 ∨ k = 5 ∨ k = 6 ∨ k = 7 := by omega
  rcases cases with rfl | rfl | rfl | rfl | rfl | rfl | rfl | rfl
  all_goals
    simp [classifyWord, getLsbD_countClassLookup16, low0, low1, low2, low3, high0, high1, high2,
      high3]
    grind

theorem Coverage32.bytes_classifyWord (word : UInt32) :
    Lanes.bytes (classifyWord word) = (Lanes.bytes word).map countClassLookup8 := by
  rw [Lanes.bytes, Lanes.bytes, List.map_map, List.map_inj_left]
  intro k member
  have inside : k < 4 := List.mem_range.mp member
  have high := @getLsbD_high
  obtain ⟨low0, high0⟩ := mem16_bytes word (show 0 < 2 by decide)
  obtain ⟨low1, high1⟩ := mem16_bytes word (show 1 < 2 by decide)
  apply UInt8.toBitVec_inj.mp
  apply BitVec.eq_of_getLsbD_eq
  intro i low
  rw [getLsbD_byte32, decide_eq_true low, Bool.true_and, Function.comp_apply]
  have cases : k = 0 ∨ k = 1 ∨ k = 2 ∨ k = 3 := by omega
  rcases cases with rfl | rfl | rfl | rfl
  all_goals
    simp [classifyWord, getLsbD_countClassLookup16, low0, low1, high0, high1]
    grind

theorem byteOf_eq_byte (word : UInt64) {k : Nat} (inside : k < 8) :
    byteOf word k = Lanes.byte word k := by
  have shift : 8 * k % 64 = 8 * k := by omega
  apply UInt8.toBitVec_inj.mp
  apply BitVec.eq_of_getLsbD_eq
  intro i low
  rw [getLsbD_byte64, decide_eq_true low, Bool.true_and]
  simp [byteOf, low, shift]

theorem Coverage32.byteOf_eq_byte (word : UInt32) {k : Nat} (inside : k < 4) :
    byteOf word k = Lanes.byte word k := by
  have shift : 8 * k % 32 = 8 * k := by omega
  apply UInt8.toBitVec_inj.mp
  apply BitVec.eq_of_getLsbD_eq
  intro i low
  rw [getLsbD_byte32, decide_eq_true low, Bool.true_and]
  simp [byteOf, low, shift]

/-! ## What the loops do to the bytes -/

section

variable {W : Type} [AndOp W] [Complement W] [Lanes W] [DecidableEq W]

/-- The loop of `classify_counts` for any word. -/
def classifyLoop (classify : W → W) : Nat → List W → List W
  | i + 1, word :: mem =>
      (if word ≠ Lanes.zero then classify word else word) :: classifyLoop classify i mem
  | _, mem => mem

theorem flat_classifyLoop {classify : W → W}
    (bytewise : ∀ word, Lanes.bytes (classify word) = (Lanes.bytes word).map countClassLookup8)
    (mem : List W) :
    Lanes.flat (classifyLoop classify mem.length mem) =
      (Lanes.flat mem).map countClassLookup8 := by
  induction mem with
  | nil => rfl
  | cons word mem ih =>
      rw [List.length_cons, classifyLoop, Lanes.flat_cons, Lanes.flat_cons, List.map_append, ih]
      congr 1
      split
      · exact bytewise word
      · next isZero =>
        rw [not_not.mp isZero, Lanes.bytes_zero, List.map_replicate]
        rfl

theorem flat_simplifyWords {ones : W}
    (each : Lanes.bytes ones = List.replicate (Lanes.count W) 1) (mem : List W) :
    Lanes.flat (simplifyWords ones mem.length mem) = (Lanes.flat mem).map simplifyLookup := by
  induction mem with
  | nil => rfl
  | cons word mem ih =>
      rw [List.length_cons, simplifyWords, Lanes.flat_cons, Lanes.flat_cons, List.map_append, ih]
      congr 1
      split
      · exact Lanes.bytes_ofBytes (by rw [List.length_map, Lanes.length_bytes])
      · next isZero =>
        rw [not_not.mp isZero, Lanes.bytes_zero, List.map_replicate, each]
        rfl

/-! ### New bits -/

def hits (current virgin : List UInt8) : Bool :=
  (current.zip virgin).any fun pair => pair.1 &&& pair.2 != 0

def pristines (current virgin : List UInt8) : Bool :=
  (current.zip virgin).any fun pair => pair.1 != 0 && pair.2 == 0xff

def level (hit pristine : Bool) : UInt8 := if hit then if pristine then 2 else 1 else 0

/-- What is new in these bytes, as `has_new_bits` reports it. -/
def newBits (current virgin : List UInt8) : UInt8 :=
  level (hits current virgin) (pristines current virgin)

def cleared (current virgin : List UInt8) : List UInt8 :=
  List.zipWith (fun byte virginByte => virginByte &&& ~~~byte) current virgin

def raised (ret level : UInt8) : UInt8 :=
  if level = 0 then ret else if ret < 2 then level else ret

theorem hits_of_pristines {current virgin : List UInt8} (pristine : pristines current virgin = true) :
    hits current virgin = true := by
  rw [pristines, List.any_eq_true] at pristine
  obtain ⟨pair, member, found⟩ := pristine
  rw [Bool.and_eq_true, bne_iff_ne, beq_iff_eq] at found
  rw [hits, List.any_eq_true]
  refine ⟨pair, member, ?_⟩
  rw [found.2, bne_iff_ne]
  have all : pair.1 &&& 0xff = pair.1 := UInt8.and_neg_one
  rw [all]
  exact found.1

theorem raised_raised (ret : UInt8) {hit pristine laterHit laterPristine : Bool}
    (here : pristine = true → hit = true) (later : laterPristine = true → laterHit = true) :
    raised (raised ret (level hit pristine)) (level laterHit laterPristine) =
      raised ret (level (hit || laterHit) (pristine || laterPristine)) := by
  by_cases small : ret < 2
  all_goals
    cases hit <;> cases pristine <;> cases laterHit <;> cases laterPristine <;>
      simp_all [raised, level, -UInt8.not_lt]

theorem raised_newBits (ret : UInt8) {current virgin : List UInt8}
    (length : current.length = virgin.length) (later laterVirgin : List UInt8) :
    raised (raised ret (newBits current virgin)) (newBits later laterVirgin) =
      raised ret (newBits (current ++ later) (virgin ++ laterVirgin)) := by
  rw [newBits, newBits, raised_raised ret hits_of_pristines hits_of_pristines, newBits, hits, hits,
    hits, pristines, pristines, pristines, List.zip_append length, List.any_append,
    List.any_append]

/-- `discover_word` for any word. -/
def discoverLane (pristine : W → W → Bool) (ret : UInt8) (current virgin : W) : UInt8 × W :=
  if current &&& virgin ≠ Lanes.zero then
    (if ret < 2 then if pristine current virgin then 2 else 1 else ret, virgin &&& ~~~current)
  else (ret, virgin)

/-- The loop of `has_new_bits` for any word. -/
def discoverLoop (pristine : W → W → Bool) : Nat → UInt8 → List W → List W → UInt8 × List W
  | i + 1, ret, word :: current, virginWord :: virgin =>
      let next :=
        if word ≠ Lanes.zero then discoverLane pristine ret word virginWord else (ret, virginWord)
      let final := discoverLoop pristine i next.1 current virgin
      (final.1, next.2 :: final.2)
  | _, ret, _, virgin => (ret, virgin)

omit [DecidableEq W] in
theorem and_ne_zero_iff (current virgin : W) :
    current &&& virgin ≠ Lanes.zero ↔ hits (Lanes.bytes current) (Lanes.bytes virgin) = true := by
  rw [ne_eq, Lanes.eq_zero_iff, Lanes.bytes_and, hits, List.any_eq_true]
  simp only [not_forall, List.mem_iff_getElem?, List.getElem?_zipWith_eq_some,
    List.getElem?_zip_eq_some, bne_iff_ne, exists_prop]
  constructor
  · intro found
    obtain ⟨_, ⟨k, x, y, left, right, rfl⟩, notZero⟩ := found
    exact ⟨(x, y), ⟨k, left, right⟩, notZero⟩
  · intro found
    obtain ⟨pair, ⟨k, left, right⟩, notZero⟩ := found
    exact ⟨_, ⟨k, pair.1, pair.2, left, right, rfl⟩, notZero⟩

omit [DecidableEq W] in
theorem bytes_clear (current virgin : W) :
    Lanes.bytes (virgin &&& ~~~current) =
      cleared (Lanes.bytes current) (Lanes.bytes virgin) := by
  rw [Lanes.bytes_and, Lanes.bytes_complement, cleared, List.zipWith_map_right, List.zipWith_comm]

theorem and_not_eq_self_iff {byte virginByte : UInt8} :
    virginByte &&& ~~~byte = virginByte ↔ byte &&& virginByte = 0 := by
  rw [← UInt8.toBitVec_inj, ← UInt8.toBitVec_inj, BitVec.eq_of_getLsbD_eq_iff,
    BitVec.eq_of_getLsbD_eq_iff]
  refine forall_congr' fun i => imp_congr_right fun low => ?_
  have zero : (0 : UInt8).toBitVec.getLsbD i = false := BitVec.getLsbD_zero
  simp only [UInt8.toBitVec_and, UInt8.toBitVec_not, BitVec.getLsbD_and, BitVec.getLsbD_not, low,
    decide_true, Bool.true_and, zero]
  cases byte.toBitVec.getLsbD i <;> cases virginByte.toBitVec.getLsbD i <;> simp

theorem cleared_of_not_hits {current virgin : List UInt8}
    (length : current.length = virgin.length) (quiet : hits current virgin = false) :
    cleared current virgin = virgin := by
  induction current generalizing virgin with
  | nil => rw [List.length_eq_zero_iff.mp length.symm]; rfl
  | cons byte current ih =>
      cases virgin with
      | nil => cases length
      | cons virginByte virgin =>
          rw [hits, List.zip_cons_cons, List.any_cons, Bool.or_eq_false_iff, bne_eq_false_iff_eq]
            at quiet
          have kept := and_not_eq_self_iff.mpr quiet.1
          rw [cleared, List.zipWith_cons_cons, kept]
          exact congrArg _ (ih (Nat.succ.inj length) quiet.2)

theorem discoverLane_bytes {pristine : W → W → Bool}
    (bytewise : ∀ current virgin, pristine current virgin =
      pristines (Lanes.bytes current) (Lanes.bytes virgin)) (ret : UInt8) (current virgin : W) :
    (discoverLane pristine ret current virgin).1 =
        raised ret (newBits (Lanes.bytes current) (Lanes.bytes virgin)) ∧
      Lanes.bytes (discoverLane pristine ret current virgin).2 =
        cleared (Lanes.bytes current) (Lanes.bytes virgin) := by
  rw [discoverLane, newBits]
  split
  · next hit =>
    rw [(and_ne_zero_iff current virgin).mp hit, ← bytewise]
    refine ⟨?_, bytes_clear current virgin⟩
    cases pristine current virgin <;> simp [raised, level]
  · next quiet =>
    rw [and_ne_zero_iff, Bool.not_eq_true] at quiet
    rw [quiet, cleared_of_not_hits (by rw [Lanes.length_bytes, Lanes.length_bytes]) quiet]
    exact ⟨by simp [raised, level], rfl⟩

/-- Skipping the words that are 0 changes nothing. -/
theorem discoverLane_zero (pristine : W → W → Bool) (ret : UInt8) (current virgin : W) :
    (if current ≠ Lanes.zero then discoverLane pristine ret current virgin else (ret, virgin)) =
      discoverLane pristine ret current virgin := by
  split
  · rfl
  · next isZero =>
    have quiet : ¬ current &&& virgin ≠ Lanes.zero := by
      rw [not_not, Lanes.eq_zero_iff, Lanes.bytes_and, not_not.mp isZero, Lanes.bytes_zero]
      intro value member
      obtain ⟨k, found⟩ := List.mem_iff_getElem?.mp member
      obtain ⟨x, y, left, _, rfl⟩ := List.getElem?_zipWith_eq_some.mp found
      rw [List.eq_of_mem_replicate (List.mem_of_getElem? left)]
      exact UInt8.zero_and
    rw [discoverLane, if_neg quiet]

theorem discoverLoop_flat {pristine : W → W → Bool}
    (bytewise : ∀ current virgin, pristine current virgin =
      pristines (Lanes.bytes current) (Lanes.bytes virgin)) (i : Nat) (ret : UInt8)
    {current virgin : List W} (length : current.length = virgin.length)
    (inMap : i ≤ current.length) :
    (discoverLoop pristine i ret current virgin).1 =
        raised ret (newBits ((Lanes.flat current).take (i * Lanes.count W))
          ((Lanes.flat virgin).take (i * Lanes.count W))) ∧
      Lanes.flat (discoverLoop pristine i ret current virgin).2 =
        cleared ((Lanes.flat current).take (i * Lanes.count W))
            ((Lanes.flat virgin).take (i * Lanes.count W)) ++
          (Lanes.flat virgin).drop (i * Lanes.count W) := by
  induction i generalizing ret current virgin with
  | zero =>
      rw [Nat.zero_mul, List.take_zero, List.take_zero, List.drop_zero]
      have start : discoverLoop pristine 0 ret current virgin = (ret, virgin) := by
        rw [discoverLoop]
        simp
      rw [start]
      exact ⟨rfl, rfl⟩
  | succ i ih =>
      cases current with
      | nil => exact absurd inMap (by simp)
      | cons word current =>
          cases virgin with
          | nil => cases length
          | cons virginWord virgin =>
              have same := Nat.succ.inj length
              have first : ∀ (word : W) (mem : List W),
                  (Lanes.flat (word :: mem)).take ((i + 1) * Lanes.count W) =
                    Lanes.bytes word ++ (Lanes.flat mem).take (i * Lanes.count W) := by
                intro word mem
                rw [Lanes.flat_cons, Nat.succ_mul, Nat.add_comm, List.take_append,
                  Lanes.length_bytes, Nat.add_sub_cancel_left,
                  List.take_of_length_le (by rw [Lanes.length_bytes]; omega)]
              have rest : (Lanes.flat (virginWord :: virgin)).drop ((i + 1) * Lanes.count W) =
                  (Lanes.flat virgin).drop (i * Lanes.count W) := by
                rw [Lanes.flat_cons, Nat.succ_mul, Nat.add_comm, List.drop_append,
                  Lanes.length_bytes, Nat.add_sub_cancel_left,
                  List.drop_eq_nil_of_le (by rw [Lanes.length_bytes]; omega), List.nil_append]
              have sizes : (Lanes.bytes word).length = (Lanes.bytes virginWord).length := by
                rw [Lanes.length_bytes, Lanes.length_bytes]
              obtain ⟨level, bytes⟩ := discoverLane_bytes bytewise ret word virginWord
              obtain ⟨found, left⟩ := ih (discoverLane pristine ret word virginWord).1 same
                (Nat.le_of_succ_le_succ inMap)
              simp only [discoverLoop, discoverLane_zero]
              rw [first, first, rest]
              refine ⟨?_, ?_⟩
              · rw [found, level, raised_newBits ret sizes]
              · rw [Lanes.flat_cons, left, bytes, cleared, cleared, cleared,
                  List.zipWith_append sizes, List.append_assoc]

end

/-! ## The variants of `skim` -/

/-- Some word of the trace has bits that its virgin word has. -/
def anyFresh {W : Type} (fresh : W → W → Bool) (virgin current : List W) : Bool :=
  (virgin.zip current).any fun pair => fresh pair.1 pair.2

theorem anyFresh_cons {W : Type} (fresh : W → W → Bool) (v c : W) (virgin current : List W) :
    anyFresh fresh (v :: virgin) (c :: current) = (fresh v c || anyFresh fresh virgin current) :=
  rfl

theorem exists_four {W : Type} {words : List W} {packs : Nat}
    (length : words.length = 4 * (packs + 1)) :
    ∃ w0 w1 w2 w3 rest, words = w0 :: w1 :: w2 :: w3 :: rest ∧ rest.length = 4 * packs := by
  match words, length with
  | w0 :: w1 :: w2 :: w3 :: rest, length =>
      refine ⟨w0, w1, w2, w3, rest, rfl, ?_⟩
      simp only [List.length_cons] at length
      omega

theorem exists_eight {W : Type} {words : List W} {packs : Nat}
    (length : words.length = 8 * (packs + 1)) :
    ∃ w0 w1 w2 w3 w4 w5 w6 w7 rest,
      words = w0 :: w1 :: w2 :: w3 :: w4 :: w5 :: w6 :: w7 :: rest ∧ rest.length = 8 * packs := by
  have twice : words.length = 4 * (2 * packs + 1 + 1) := by omega
  obtain ⟨w0, w1, w2, w3, behind, rfl, later⟩ := exists_four twice
  obtain ⟨w4, w5, w6, w7, rest, rfl, last⟩ := exists_four later
  exact ⟨w0, w1, w2, w3, w4, w5, w6, w7, rest, rfl, by omega⟩

/-- A loop that takes four words at a time looks at all of them. -/
theorem eq_anyFresh_of_packs {W : Type} {fresh : W → W → Bool} {loop : List W → List W → Bool}
    (empty : loop [] [] = false)
    (pack : ∀ v0 v1 v2 v3 c0 c1 c2 c3 virgin current,
      loop (v0 :: v1 :: v2 :: v3 :: virgin) (c0 :: c1 :: c2 :: c3 :: current) =
        (fresh v0 c0 || (fresh v1 c1 || (fresh v2 c2 || (fresh v3 c3 || loop virgin current)))))
    {virgin current : List W} {packs : Nat} (virginLength : virgin.length = 4 * packs)
    (currentLength : current.length = 4 * packs) :
    loop virgin current = anyFresh fresh virgin current := by
  induction packs generalizing virgin current with
  | zero =>
      obtain rfl := List.length_eq_zero_iff.mp virginLength
      obtain rfl := List.length_eq_zero_iff.mp currentLength
      exact empty
  | succ packs ih =>
      obtain ⟨v0, v1, v2, v3, virgin, rfl, virginRest⟩ := exists_four virginLength
      obtain ⟨c0, c1, c2, c3, current, rfl, currentRest⟩ := exists_four currentLength
      rw [pack, ih virginRest currentRest]
      rfl

theorem first_of_four (a b c d rest : Bool) :
    (if a then true else if b then true else if c then true else if d then true else rest) =
      (a || (b || (c || (d || rest)))) := by
  cases a <;> cases b <;> cases c <;> cases d <;> rfl

theorem skim_eq_anyFresh {virgin current : List UInt64} {packs : Nat}
    (virginLength : virgin.length = 4 * packs) (currentLength : current.length = 4 * packs) :
    skim virgin current = anyFresh skimWord virgin current := by
  refine eq_anyFresh_of_packs rfl ?_ virginLength currentLength
  intro v0 v1 v2 v3 c0 c1 c2 c3 virgin current
  rw [skim]
  exact first_of_four _ _ _ _ _

theorem Coverage32.skim_eq_anyFresh {virgin current : List UInt32} {packs : Nat}
    (virginLength : virgin.length = 4 * packs) (currentLength : current.length = 4 * packs) :
    skim virgin current = anyFresh skimWord virgin current := by
  refine eq_anyFresh_of_packs rfl ?_ virginLength currentLength
  intro v0 v1 v2 v3 c0 c1 c2 c3 virgin current
  rw [skim]
  exact first_of_four _ _ _ _ _

/-- The mask has eight bits for each lane that is 0. -/
theorem movemaskEpi8_lanes (z0 z1 z2 z3 : Bool) :
    let mask := movemaskEpi8 [cmpeqZero z0, cmpeqZero z1, cmpeqZero z2, cmpeqZero z3]
    (mask = 0xffffffff ↔ (z0 && z1 && z2 && z3) = true) ∧
      decide (mask &&& 0xff = 0) = !z0 ∧ decide (mask &&& 0xff00 = 0) = !z1 ∧
      decide (mask &&& 0xff0000 = 0) = !z2 ∧ decide (mask &&& 0xff000000 = 0) = !z3 := by
  revert z0 z1 z2 z3
  decide

theorem skimWord_eq (virgin current : UInt64) :
    skimWord virgin current =
      (!(current == 0) && decide (classifyWord current &&& virgin ≠ 0)) := by
  rw [skimWord]
  by_cases zero : current = 0 <;> simp [zero]

theorem skimAvx2_eq_anyFresh {virgin current : List UInt64} {packs : Nat}
    (virginLength : virgin.length = 4 * packs) (currentLength : current.length = 4 * packs) :
    skimAvx2 virgin current = anyFresh skimWord virgin current := by
  refine eq_anyFresh_of_packs rfl ?_ virginLength currentLength
  intro v0 v1 v2 v3 c0 c1 c2 c3 virgin current
  obtain ⟨all, m0, m1, m2, m3⟩ := movemaskEpi8_lanes (c0 == 0) (c1 == 0) (c2 == 0) (c3 == 0)
  simp only [skimWord_eq, skimAvx2, List.map_cons, List.map_nil, all, m0, m1, m2, m3]
  by_cases zeros : (c0 == 0 && c1 == 0 && c2 == 0 && c3 == 0) = true
  · rw [if_pos zeros]
    simp only [Bool.and_eq_true] at zeros
    simp [zeros]
  · rw [if_neg zeros]
    simp only [Bool.if_true_left, Bool.decide_eq_true]

/-- The mask has a bit for each lane that is 0. -/
theorem maskBits_lanes (z0 z1 z2 z3 z4 z5 z6 z7 : Bool) :
    let mask := UInt8.ofNat (maskBits [z0, z1, z2, z3, z4, z5, z6, z7])
    (mask = 0xff ↔ (z0 && z1 && z2 && z3 && z4 && z5 && z6 && z7) = true) ∧
      decide (mask &&& ((1 : UInt8) <<< 0) = 0) = !z0 ∧
      decide (mask &&& ((1 : UInt8) <<< 1) = 0) = !z1 ∧
      decide (mask &&& ((1 : UInt8) <<< 2) = 0) = !z2 ∧
      decide (mask &&& ((1 : UInt8) <<< 3) = 0) = !z3 ∧
      decide (mask &&& ((1 : UInt8) <<< 4) = 0) = !z4 ∧
      decide (mask &&& ((1 : UInt8) <<< 5) = 0) = !z5 ∧
      decide (mask &&& ((1 : UInt8) <<< 6) = 0) = !z6 ∧
      decide (mask &&& ((1 : UInt8) <<< 7) = 0) = !z7 := by
  cases z0 <;> cases z1 <;> cases z2 <;> cases z3 <;> cases z4 <;> cases z5 <;> cases z6 <;>
    cases z7 <;> decide

theorem skimAvx512_eq_anyFresh {virgin current : List UInt64} {packs : Nat}
    (virginLength : virgin.length = 8 * packs) (currentLength : current.length = 8 * packs) :
    skimAvx512 virgin current = anyFresh skimWord virgin current := by
  induction packs generalizing virgin current with
  | zero =>
      obtain rfl := List.length_eq_zero_iff.mp virginLength
      obtain rfl := List.length_eq_zero_iff.mp currentLength
      rfl
  | succ packs ih =>
      obtain ⟨v0, v1, v2, v3, v4, v5, v6, v7, virgin, rfl, virginRest⟩ := exists_eight virginLength
      obtain ⟨c0, c1, c2, c3, c4, c5, c6, c7, current, rfl, currentRest⟩ :=
        exists_eight currentLength
      obtain ⟨all, m0, m1, m2, m3, m4, m5, m6, m7⟩ := maskBits_lanes (c0 == 0) (c1 == 0) (c2 == 0)
        (c3 == 0) (c4 == 0) (c5 == 0) (c6 == 0) (c7 == 0)
      simp only [anyFresh_cons, skimWord_eq, skimAvx512, unroll, testnEpi64Mask, List.map_cons,
        List.map_nil, UInt64.and_self, ih virginRest currentRest, all, m0, m1, m2, m3, m4, m5, m6,
        m7]
      by_cases zeros : (c0 == 0 && c1 == 0 && c2 == 0 && c3 == 0 && c4 == 0 && c5 == 0 && c6 == 0 &&
          c7 == 0) = true
      · rw [if_pos zeros]
        simp only [Bool.and_eq_true] at zeros
        simp [zeros]
      · rw [if_neg zeros]
        simp only [Bool.if_true_left, Bool.decide_eq_true]

/-! ## All builds on the same bytes -/

theorem skimWord_bytes (virgin current : UInt64) :
    skimWord virgin current =
      hits ((Lanes.bytes current).map countClassLookup8) (Lanes.bytes virgin) := by
  rw [← bytes_classifyWord, Bool.eq_iff_iff, ← and_ne_zero_iff, skimWord]
  by_cases zero : current = 0
  · subst zero
    have none_ : classifyWord 0 = 0 := by decide
    simp [none_, Lanes.zero]
  · simp [zero, Lanes.zero]

theorem Coverage32.skimWord_bytes (virgin current : UInt32) :
    skimWord virgin current =
      hits ((Lanes.bytes current).map countClassLookup8) (Lanes.bytes virgin) := by
  rw [← bytes_classifyWord, Bool.eq_iff_iff, ← and_ne_zero_iff, skimWord]
  by_cases zero : current = 0
  · subst zero
    have none_ : classifyWord 0 = 0 := by decide
    simp [none_, Lanes.zero]
  · simp [zero, Lanes.zero]

theorem anyFresh_flat {W : Type} [AndOp W] [Complement W] [Lanes W] {fresh : W → W → Bool}
    (bytewise : ∀ virgin current, fresh virgin current =
      hits ((Lanes.bytes current).map countClassLookup8) (Lanes.bytes virgin))
    {virgin current : List W} (length : virgin.length = current.length) :
    anyFresh fresh virgin current =
      hits ((Lanes.flat current).map countClassLookup8) (Lanes.flat virgin) := by
  induction virgin generalizing current with
  | nil =>
      obtain rfl := List.length_eq_zero_iff.mp length.symm
      rfl
  | cons virginWord virgin ih =>
      cases current with
      | nil => cases length
      | cons word current =>
          have sizes : ((Lanes.bytes word).map countClassLookup8).length =
              (Lanes.bytes virginWord).length := by
            rw [List.length_map, Lanes.length_bytes, Lanes.length_bytes]
          rw [anyFresh_cons, bytewise, ih (Nat.succ.inj length), Lanes.flat_cons, Lanes.flat_cons,
            List.map_append, hits, hits, hits, List.zip_append sizes, List.any_append]

theorem classifyWords_eq_loop (i : Nat) (mem : List UInt64) :
    classifyWords i mem = classifyLoop classifyWord i mem := by
  induction mem generalizing i with
  | nil => cases i <;> rfl
  | cons word mem ih =>
      cases i with
      | zero => rfl
      | succ i => exact congrArg _ (ih i)

theorem Coverage32.classifyWords_eq_loop (i : Nat) (mem : List UInt32) :
    classifyWords i mem = classifyLoop classifyWord i mem := by
  induction mem generalizing i with
  | nil => cases i <;> rfl
  | cons word mem ih =>
      cases i with
      | zero => rfl
      | succ i => exact congrArg _ (ih i)

def pristine64 (current virgin : UInt64) : Bool :=
  (List.range 8).any fun k => byteOf current k ≠ 0 && byteOf virgin k = 0xff

def pristine32 (current virgin : UInt32) : Bool :=
  (List.range 4).any fun k => Coverage32.byteOf current k ≠ 0 && Coverage32.byteOf virgin k = 0xff

theorem discoverWords_eq_loop (i : Nat) (ret : UInt8) (current virgin : List UInt64) :
    discoverWords i ret current virgin = discoverLoop pristine64 i ret current virgin := by
  induction i generalizing ret current virgin with
  | zero => cases current <;> cases virgin <;> rfl
  | succ i ih =>
      cases current with
      | nil => cases virgin <;> rfl
      | cons word current =>
          cases virgin with
          | nil => rfl
          | cons virginWord virgin =>
              rw [discoverLoop, ← ih]
              rfl

theorem Coverage32.discoverWords_eq_loop (i : Nat) (ret : UInt8) (current virgin : List UInt32) :
    discoverWords i ret current virgin = discoverLoop pristine32 i ret current virgin := by
  induction i generalizing ret current virgin with
  | zero => cases current <;> cases virgin <;> rfl
  | succ i ih =>
      cases current with
      | nil => cases virgin <;> rfl
      | cons word current =>
          cases virgin with
          | nil => rfl
          | cons virginWord virgin =>
              rw [discoverLoop, ← ih]
              rfl

theorem pristine64_bytes (current virgin : UInt64) :
    pristine64 current virgin = pristines (Lanes.bytes current) (Lanes.bytes virgin) := by
  rw [pristine64, pristines, Lanes.bytes, Lanes.bytes, List.zip_map', List.any_map,
    Bool.eq_iff_iff, List.any_eq_true, List.any_eq_true]
  refine exists_congr fun k => and_congr_right fun member => ?_
  have inside : k < 8 := List.mem_range.mp member
  simp [byteOf_eq_byte _ inside]

theorem pristine32_bytes (current virgin : UInt32) :
    pristine32 current virgin = pristines (Lanes.bytes current) (Lanes.bytes virgin) := by
  rw [pristine32, pristines, Lanes.bytes, Lanes.bytes, List.zip_map', List.any_map,
    Bool.eq_iff_iff, List.any_eq_true, List.any_eq_true]
  refine exists_congr fun k => and_congr_right fun member => ?_
  have inside : k < 4 := List.mem_range.mp member
  simp [Coverage32.byteOf_eq_byte _ inside]

/-- `has_new_bits` on the first `n` bytes of the maps. -/
def discoverBytes (n : Nat) (trace virgin : List UInt8) : UInt8 × List UInt8 :=
  (newBits (trace.take n) (virgin.take n), cleared (trace.take n) (virgin.take n) ++ virgin.drop n)

theorem raised_newBits_zero (current virgin : List UInt8) :
    raised 0 (newBits current virgin) = newBits current virgin := by
  rw [newBits]
  cases hits current virgin <;> cases pristines current virgin <;> decide

theorem toNat_shiftRight_two (size : UInt32) : (size >>> 2).toNat = size.toNat / 4 := by
  simp [UInt32.toNat_shiftRight, Nat.shiftRight_eq_div_pow]

namespace CoverageMaps

variable (maps : CoverageMaps)

theorem packs : ∃ q, maps.mapSize.toNat = 64 * q ∧
    (maps.mapSize >>> 2).toNat = 16 * q ∧ (maps.mapSize >>> 3).toNat = 8 * q := by
  obtain ⟨q, size⟩ := maps.aligned
  refine ⟨q, size, ?_, ?_⟩
  · rw [toNat_shiftRight_two]
    omega
  · rw [toNat_shiftRight_three]
    omega

/-- The words of each width are the whole map. -/
structure Views (buf : List UInt8) (q : Nat) : Prop where
  length32 : (words32 buf).length = 16 * q
  length64 : (words64 buf).length = 8 * q
  flat32 : Lanes.flat (words32 buf) = buf
  flat64 : Lanes.flat (words64 buf) = buf

theorem views {buf : List UInt8} {q : Nat} (length : buf.length = 64 * q) : Views buf q where
  length32 := by rw [words32, Lanes.length_words]; omega
  length64 := by rw [words64, Lanes.length_words]; omega
  flat32 := Lanes.flat_words (show buf.length = buf.length / 4 * 4 by omega)
  flat64 := Lanes.flat_words (show buf.length = buf.length / 8 * 8 by omega)

theorem classifyCounts_eq (skim : List UInt64 → List UInt64 → Bool) :
    build32.classifyCounts maps.mapSize maps.trace = maps.trace.map countClassLookup8 ∧
      (build64With skim).classifyCounts maps.mapSize maps.trace =
        maps.trace.map countClassLookup8 := by
  obtain ⟨q, size, size32, size64⟩ := maps.packs
  have trace := views (maps.traceLength.trans size)
  constructor
  · simp only [build32, size32, ← trace.length32, Coverage32.classifyWords_eq_loop,
      flat_classifyLoop Coverage32.bytes_classifyWord, trace.flat32]
  · simp only [build64With, size64, ← trace.length64, classifyWords_eq_loop,
      flat_classifyLoop bytes_classifyWord, trace.flat64]

theorem simplifyTrace_eq (skim : List UInt64 → List UInt64 → Bool) :
    build32.simplifyTrace maps.mapSize maps.trace = maps.trace.map simplifyLookup ∧
      (build64With skim).simplifyTrace maps.mapSize maps.trace =
        maps.trace.map simplifyLookup := by
  obtain ⟨q, size, size32, size64⟩ := maps.packs
  have trace := views (maps.traceLength.trans size)
  have ones32 : Lanes.bytes (0x01010101 : UInt32) = List.replicate 4 1 := by decide
  have ones64 : Lanes.bytes (0x0101010101010101 : UInt64) = List.replicate 8 1 := by decide
  constructor
  · simp only [build32, size32, ← trace.length32, flat_simplifyWords ones32, trace.flat32]
  · simp only [build64With, size64, ← trace.length64, flat_simplifyWords ones64, trace.flat64]

theorem skim_eq :
    build32.skim maps.virgin maps.trace = hits (maps.trace.map countClassLookup8) maps.virgin ∧
      build64.skim maps.virgin maps.trace = hits (maps.trace.map countClassLookup8) maps.virgin ∧
      buildAvx2.skim maps.virgin maps.trace =
        hits (maps.trace.map countClassLookup8) maps.virgin ∧
      buildAvx512.skim maps.virgin maps.trace =
        hits (maps.trace.map countClassLookup8) maps.virgin := by
  obtain ⟨q, size, _, _⟩ := maps.packs
  have trace := views (maps.traceLength.trans size)
  have virgin := views (maps.virginLength.trans size)
  have bytes32 := anyFresh_flat Coverage32.skimWord_bytes
    (virgin.length32.trans trace.length32.symm)
  have bytes64 := anyFresh_flat skimWord_bytes (virgin.length64.trans trace.length64.symm)
  rw [trace.flat32, virgin.flat32] at bytes32
  rw [trace.flat64, virgin.flat64] at bytes64
  have four : ∀ {n : Nat}, n = 8 * q → n = 4 * (2 * q) := by omega
  have sixteen : ∀ {n : Nat}, n = 16 * q → n = 4 * (4 * q) := by omega
  refine ⟨?_, ?_, ?_, ?_⟩
  · rw [← bytes32]
    exact Coverage32.skim_eq_anyFresh (sixteen virgin.length32) (sixteen trace.length32)
  · rw [← bytes64]
    exact skim_eq_anyFresh (four virgin.length64) (four trace.length64)
  · rw [← bytes64]
    exact skimAvx2_eq_anyFresh (four virgin.length64) (four trace.length64)
  · rw [← bytes64]
    exact skimAvx512_eq_anyFresh virgin.length64 trace.length64

/-- The bytes that the loops over 32 and over 64 bits look at. -/
def reach32 : Nat := (maps.realMapSize.toNat + 3) / 4 * 4

def reach64 : Nat := (maps.realMapSize.toNat + 7) / 8 * 8

theorem hasNewBits_eq (skim : List UInt64 → List UInt64 → Bool) :
    build32.hasNewBits maps.realMapSize maps.trace maps.virgin =
        discoverBytes maps.reach32 maps.trace maps.virgin ∧
      (build64With skim).hasNewBits maps.realMapSize maps.trace maps.virgin =
        discoverBytes maps.reach64 maps.trace maps.virgin := by
  obtain ⟨q, size, _, _⟩ := maps.packs
  have trace := views (maps.traceLength.trans size)
  have virgin := views (maps.virginLength.trans size)
  have inMap := UInt32.le_iff_toNat_le.mp maps.inMap
  have word := maps.mapSize.toNat_lt
  have count32 : ((maps.realMapSize + 3) >>> 2).toNat = (maps.realMapSize.toNat + 3) / 4 := by
    rw [toNat_shiftRight_two, UInt32.toNat_add, Nat.mod_eq_of_lt]
    · rfl
    · change maps.realMapSize.toNat + 3 < 2 ^ 32
      omega
  have count64 : ((maps.realMapSize + 7) >>> 3).toNat = (maps.realMapSize.toNat + 7) / 8 := by
    rw [toNat_shiftRight_three, UInt32.toNat_add, Nat.mod_eq_of_lt]
    · rfl
    · change maps.realMapSize.toNat + 7 < 2 ^ 32
      omega
  constructor
  · obtain ⟨found, left⟩ := discoverLoop_flat pristine32_bytes
      ((maps.realMapSize.toNat + 3) / 4) 0 (trace.length32.trans virgin.length32.symm)
      (by rw [trace.length32]; omega)
    rw [trace.flat32, virgin.flat32] at found left
    simp only [build32, count32, Coverage32.discoverWords_eq_loop, discoverBytes, found, left,
      raised_newBits_zero]
    rfl
  · obtain ⟨found, left⟩ := discoverLoop_flat pristine64_bytes
      ((maps.realMapSize.toNat + 7) / 8) 0 (trace.length64.trans virgin.length64.symm)
      (by rw [trace.length64]; omega)
    rw [trace.flat64, virgin.flat64] at found left
    simp only [build64With, count64, discoverWords_eq_loop, discoverBytes, found, left,
      raised_newBits_zero]
    rfl

/-- Between the two reaches the trace has no bit that the virgin map has. -/
def PaddingQuiet : Prop :=
  ∀ k, maps.reach32 ≤ k → k < maps.reach64 →
    ∀ byte virginByte, maps.trace[k]? = some byte → maps.virgin[k]? = some virginByte →
      byte &&& virginByte = 0

variable {maps} in
theorem paddingQuiet_of_dvd (whole : 8 ∣ maps.realMapSize.toNat) : maps.PaddingQuiet := by
  intro k low high
  rw [reach32] at low
  rw [reach64] at high
  omega

end CoverageMaps

theorem getElem?_discoverBytes {n : Nat} {current virgin : List UInt8}
    (length : current.length = virgin.length) (k : Nat) :
    (discoverBytes n current virgin).2[k]? =
      if k < n then (virgin[k]?).bind fun virginByte =>
        (current[k]?).map fun byte => virginByte &&& ~~~byte
      else virgin[k]? := by
  have size : (cleared (current.take n) (virgin.take n)).length = min n virgin.length := by
    rw [cleared, List.length_zipWith, List.length_take, List.length_take, length, Nat.min_self]
  rw [discoverBytes, List.getElem?_append, size]
  by_cases inMap : k < virgin.length
  · have isVirgin := List.getElem?_eq_getElem inMap
    have isByte := List.getElem?_eq_getElem (length ▸ inMap : k < current.length)
    by_cases before : k < n
    · rw [if_pos (by omega), if_pos before, cleared, List.getElem?_zipWith,
        List.getElem?_take_of_lt before, List.getElem?_take_of_lt before, isByte, isVirgin]
      rfl
    · rw [if_neg (by omega), if_neg before, List.getElem?_drop]
      congr 1
      omega
  · have beyond : virgin[k]? = none := List.getElem?_eq_none (Nat.not_lt.mp inMap)
    rw [if_neg (by omega), List.getElem?_drop, beyond, Option.bind_none, ite_self]
    exact List.getElem?_eq_none (by omega)

theorem newBits_append_quiet {current virgin later laterVirgin : List UInt8}
    (length : current.length = virgin.length) (quiet : hits later laterVirgin = false) :
    newBits (current ++ later) (virgin ++ laterVirgin) = newBits current virgin := by
  have ordinary : pristines later laterVirgin = false := by
    rw [← Bool.not_eq_true]
    intro pristine
    exact absurd (hits_of_pristines pristine) (by rw [quiet]; exact Bool.false_ne_true)
  rw [hits] at quiet
  rw [pristines] at ordinary
  rw [newBits, newBits, hits, hits, pristines, pristines, List.zip_append length, List.any_append,
    List.any_append, quiet, ordinary, Bool.or_false, Bool.or_false]

/-- Looking further finds something exactly where the two maps share a bit. -/
theorem discoverBytes_eq_iff {near far : Nat} (further : near ≤ far) {current virgin : List UInt8}
    (length : current.length = virgin.length) :
    discoverBytes near current virgin = discoverBytes far current virgin ↔
      ∀ k, near ≤ k → k < far → ∀ byte virginByte, current[k]? = some byte →
        virgin[k]? = some virginByte → byte &&& virginByte = 0 := by
  constructor
  · intro same k low high byte virginByte isByte isVirgin
    have cell := congrArg (fun result => result.2[k]?) same
    simp only [getElem?_discoverBytes length, if_neg (Nat.not_lt.mpr low), if_pos high, isByte,
      isVirgin, Option.bind_some, Option.map_some, Option.some_inj] at cell
    exact and_not_eq_self_iff.mp cell.symm
  · intro quiet
    have split : ∀ bytes : List UInt8, bytes.take far =
        bytes.take near ++ (bytes.drop near).take (far - near) := by
      intro bytes
      rw [← List.take_add, Nat.add_sub_cancel' further]
    have noHits : hits ((current.drop near).take (far - near))
        ((virgin.drop near).take (far - near)) = false := by
      rw [hits, List.any_eq_false]
      intro pair member
      obtain ⟨k, found⟩ := List.mem_iff_getElem?.mp member
      obtain ⟨isByte, isVirgin⟩ := List.getElem?_zip_eq_some.mp found
      have inside : k < far - near := by
        by_contra beyond
        rw [List.getElem?_take, if_neg beyond] at isByte
        cases isByte
      rw [List.getElem?_take_of_lt inside, List.getElem?_drop] at isByte isVirgin
      have apart := quiet (near + k) (by omega) (by omega) _ _ isByte isVirgin
      rw [apart]
      decide
    apply Prod.ext
    · have sizes : (current.take near).length = (virgin.take near).length := by
        rw [List.length_take, List.length_take, length]
      simp only [discoverBytes]
      rw [split current, split virgin, newBits_append_quiet sizes noHits]
    · apply List.ext_getElem?
      intro k
      rw [getElem?_discoverBytes length, getElem?_discoverBytes length]
      by_cases before : k < near
      · rw [if_pos before, if_pos (by omega)]
      · by_cases between : k < far
        · rw [if_neg before, if_pos between]
          by_cases inMap : k < virgin.length
          · have isVirgin := List.getElem?_eq_getElem inMap
            have isByte := List.getElem?_eq_getElem (length ▸ inMap : k < current.length)
            have apart := quiet k (by omega) between _ _ isByte isVirgin
            rw [isVirgin, isByte, Option.bind_some, Option.map_some,
              and_not_eq_self_iff.mpr apart]
          · rw [List.getElem?_eq_none (Nat.not_lt.mp inMap), Option.bind_none]
        · rw [if_neg before, if_neg between]

theorem coverageBuilds_agree (maps : CoverageMaps) :
    (∀ build ∈ [build32, buildAvx2, buildAvx512],
        build.classifyCounts maps.mapSize maps.trace =
            build64.classifyCounts maps.mapSize maps.trace ∧
          build.simplifyTrace maps.mapSize maps.trace =
            build64.simplifyTrace maps.mapSize maps.trace ∧
          build.skim maps.virgin maps.trace = build64.skim maps.virgin maps.trace) ∧
      (∀ build ∈ [buildAvx2, buildAvx512],
        build.hasNewBits maps.realMapSize maps.trace maps.virgin =
          build64.hasNewBits maps.realMapSize maps.trace maps.virgin) ∧
      (build32.hasNewBits maps.realMapSize maps.trace maps.virgin =
          build64.hasNewBits maps.realMapSize maps.trace maps.virgin ↔ maps.PaddingQuiet) ∧
      (8 ∣ maps.realMapSize.toNat → maps.PaddingQuiet) := by
  obtain ⟨classified32, classified64⟩ := maps.classifyCounts_eq skim
  obtain ⟨simplified32, simplified64⟩ := maps.simplifyTrace_eq skim
  obtain ⟨skim32, skim64, avx2, avx512⟩ := maps.skim_eq
  obtain ⟨found32, found64⟩ := maps.hasNewBits_eq skim
  refine ⟨?_, ?_, ?_, CoverageMaps.paddingQuiet_of_dvd⟩
  · intro build member
    simp only [List.mem_cons, List.not_mem_nil, or_false] at member
    rcases member with rfl | rfl | rfl
    · exact ⟨classified32.trans classified64.symm, simplified32.trans simplified64.symm,
        skim32.trans skim64.symm⟩
    · exact ⟨rfl, rfl, avx2.trans skim64.symm⟩
    · exact ⟨rfl, rfl, avx512.trans skim64.symm⟩
  · intro build member
    simp only [List.mem_cons, List.not_mem_nil, or_false] at member
    rcases member with rfl | rfl
    · rfl
    · rfl
  · have further : maps.reach32 ≤ maps.reach64 := by
      rw [CoverageMaps.reach32, CoverageMaps.reach64]
      omega
    change _ = (build64With skim).hasNewBits _ _ _ ↔ _
    rw [found32, found64]
    exact discoverBytes_eq_iff further (maps.traceLength.trans maps.virginLength.symm)

/-- A trace without hits after `simplify_trace`, on a map of 60 edges. -/
def simplifiedMaps : CoverageMaps where
  mapSize := 64
  realMapSize := 60
  trace := List.replicate 64 1
  virgin := List.replicate 64 0xff
  aligned := by decide
  inMap := by decide
  traceLength := by decide
  virginLength := by decide

theorem hasNewBits_padding :
    ¬ ∀ maps : CoverageMaps, build32.hasNewBits maps.realMapSize maps.trace maps.virgin =
      build64.hasNewBits maps.realMapSize maps.trace maps.virgin := by
  intro agree
  have cell := congrArg (fun result => result.2[60]?) (agree simplifiedMaps)
  exact absurd cell (by decide)

end SbFuzz.Fuzzer
