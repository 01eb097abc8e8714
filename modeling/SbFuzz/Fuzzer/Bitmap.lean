import Mathlib.Data.List.Forall2
import Mathlib.Logic.Function.Basic

/-! The coverage bitmap of `afl-fuzz`, in words of 64 bits: classification of
hit counts and the search for new bits. -/

set_option autoImplicit false

namespace SbFuzz.Fuzzer

/-! ## Words -/

def countClassLookup8 (count : UInt8) : UInt8 :=
  if count = 0 then 0
  else if count = 1 then 1
  else if count = 2 then 2
  else if count = 3 then 4
  else if count ≤ 7 then 8
  else if count ≤ 15 then 16
  else if count ≤ 31 then 32
  else if count ≤ 127 then 64
  else 128

/-- The entries that `init_count_class16` computes. -/
def countClassLookup16 (counts : UInt16) : UInt16 :=
  ((countClassLookup8 (counts >>> 8).toUInt8).toUInt16 <<< 8) |||
    (countClassLookup8 counts.toUInt8).toUInt16

/-- `mem16[k]` of a word. -/
def mem16 (word : UInt64) (k : Nat) : UInt16 := (word >>> UInt64.ofNat (16 * k)).toUInt16

def classifyWord (word : UInt64) : UInt64 :=
  (countClassLookup16 (mem16 word 0)).toUInt64 |||
    ((countClassLookup16 (mem16 word 1)).toUInt64 <<< 16) |||
    ((countClassLookup16 (mem16 word 2)).toUInt64 <<< 32) |||
    ((countClassLookup16 (mem16 word 3)).toUInt64 <<< 48)

/-- `((u8 *)word)[k]`. -/
def byteOf (word : UInt64) (k : Nat) : UInt8 := (word >>> UInt64.ofNat (8 * k)).toUInt8

/-- `discover_word`: the new `ret` and the new virgin word. -/
def discoverWord (ret : UInt8) (current virgin : UInt64) : UInt8 × UInt64 :=
  if current &&& virgin ≠ 0 then
    let pristine := (List.range 8).any fun k => byteOf current k ≠ 0 && byteOf virgin k = 0xff
    (if ret < 2 then if pristine then 2 else 1 else ret, virgin &&& ~~~current)
  else (ret, virgin)

/-! ## Loops -/

/-- The loop of `classify_counts`, over `i` words. -/
def classifyWords : Nat → List UInt64 → List UInt64
  | i + 1, word :: mem => (if word ≠ 0 then classifyWord word else word) :: classifyWords i mem
  | _, mem => mem

/-- The loop of `has_new_bits`, over `i` words. -/
def discoverWords : Nat → UInt8 → List UInt64 → List UInt64 → UInt8 × List UInt64
  | i + 1, ret, word :: current, virginWord :: virgin =>
      let (nextRet, nextWord) :=
        if word ≠ 0 then discoverWord ret word virginWord else (ret, virginWord)
      let (finalRet, rest) := discoverWords i nextRet current virgin
      (finalRet, nextWord :: rest)
  | _, ret, _, virgin => (ret, virgin)

/-- A test of `skim`. -/
def skimWord (virgin current : UInt64) : Bool :=
  current ≠ 0 && classifyWord current &&& virgin ≠ 0

/-- `skim` without vector instructions, in packs of four words. -/
def skim : List UInt64 → List UInt64 → Bool
  | v0 :: v1 :: v2 :: v3 :: virgin, c0 :: c1 :: c2 :: c3 :: current =>
      if skimWord v0 c0 then true
      else if skimWord v1 c1 then true
      else if skimWord v2 c2 then true
      else if skimWord v3 c3 then true
      else skim virgin current
  | _, _ => false

theorem classifyWords_length (i : Nat) (mem : List UInt64) :
    (classifyWords i mem).length = mem.length := by
  induction mem generalizing i with
  | nil => cases i <;> rfl
  | cons word mem ih =>
      cases i with
      | zero => rfl
      | succ i => simp [classifyWords, ih]

theorem discoverWords_length (i : Nat) (ret : UInt8) (current virgin : List UInt64) :
    (discoverWords i ret current virgin).2.length = virgin.length := by
  induction virgin generalizing i ret current with
  | nil => cases i <;> cases current <;> rfl
  | cons virginWord virgin ih =>
      cases i with
      | zero => rfl
      | succ i =>
          cases current with
          | nil => rfl
          | cons word current => simp [discoverWords, ih]

/-! ## The fuzzer -/

/-- The sizes of the maps, in bytes; the maps are as long as `map_size`. -/
structure MapSizes where
  realMapSize : UInt32
  mapSize : UInt32
  rounded : mapSize.toNat = (realMapSize.toNat + 63) / 64 * 64

structure CoverageMap (sizes : MapSizes) where
  words : List UInt64
  length : words.length * 8 = sizes.mapSize.toNat

inductive VirginMap where
  | bits
  | tmout
  | crash
deriving DecidableEq, Repr

/-- The part of `afl_state_t` that holds the maps. -/
structure AflState (sizes : MapSizes) where
  traceBits : CoverageMap sizes
  virgin : VirginMap → CoverageMap sizes
  bitmapChanged : Bool

section

variable {sizes : MapSizes}

def classifyCounts (afl : AflState sizes) : AflState sizes :=
  let i := sizes.mapSize >>> 3
  { afl with traceBits :=
      ⟨classifyWords i.toNat afl.traceBits.words,
        (classifyWords_length _ _).symm ▸ afl.traceBits.length⟩ }

def hasNewBits (afl : AflState sizes) (virginMap : VirginMap) : UInt8 × AflState sizes :=
  let i := (sizes.realMapSize + 7) >>> 3
  let found := discoverWords i.toNat 0 afl.traceBits.words (afl.virgin virginMap).words
  (found.1, { afl with
    virgin := Function.update afl.virgin virginMap
      ⟨found.2, (discoverWords_length _ _ _ _).symm ▸ (afl.virgin virginMap).length⟩
    bitmapChanged := if found.1 ≠ 0 ∧ virginMap = .bits then true else afl.bitmapChanged })

def hasNewBitsUnclassified (afl : AflState sizes) (virginMap : VirginMap) :
    UInt8 × AflState sizes :=
  if !skim (afl.virgin virginMap).words afl.traceBits.words then (0, afl)
  else hasNewBits (classifyCounts afl) virginMap

end

/-! The fast path of the search for new bits: `skim` finds a word with new bits
in the raw trace exactly if there is one in the classified trace. -/

/-! ## The fast path -/

/-- A word of the raw trace has nothing new for a virgin word. -/
def Quiet (virgin current : UInt64) : Prop := current = 0 ∨ classifyWord current &&& virgin = 0

theorem skimWord_eq_false_iff (virgin current : UInt64) :
    skimWord virgin current = false ↔ Quiet virgin current := by
  simp only [skimWord, Quiet, Bool.and_eq_false_iff, decide_eq_false_iff_not, ne_eq, not_not]

theorem skim_pack (v0 v1 v2 v3 c0 c1 c2 c3 : UInt64) (virgin current : List UInt64) :
    skim (v0 :: v1 :: v2 :: v3 :: virgin) (c0 :: c1 :: c2 :: c3 :: current) = false ↔
      Quiet v0 c0 ∧ Quiet v1 c1 ∧ Quiet v2 c2 ∧ Quiet v3 c3 ∧ skim virgin current = false := by
  simp only [skim, ← skimWord_eq_false_iff]
  cases skimWord v0 c0 <;> cases skimWord v1 c1 <;> cases skimWord v2 c2 <;>
    cases skimWord v3 c3 <;> simp

theorem exists_pack {words : List UInt64} {packs : Nat} (length : words.length = 4 * (packs + 1)) :
    ∃ w0 w1 w2 w3 rest, words = w0 :: w1 :: w2 :: w3 :: rest ∧ rest.length = 4 * packs := by
  match words, length with
  | w0 :: w1 :: w2 :: w3 :: rest, length =>
      refine ⟨w0, w1, w2, w3, rest, rfl, ?_⟩
      simp only [List.length_cons] at length
      omega

theorem skim_eq_false_iff {virgin current : List UInt64} {packs : Nat}
    (virginLength : virgin.length = 4 * packs) (currentLength : current.length = 4 * packs) :
    skim virgin current = false ↔ List.Forall₂ Quiet virgin current := by
  induction packs generalizing virgin current with
  | zero =>
      obtain rfl := List.length_eq_zero_iff.mp virginLength
      obtain rfl := List.length_eq_zero_iff.mp currentLength
      simp [skim]
  | succ packs ih =>
      obtain ⟨v0, v1, v2, v3, virgin, rfl, virginRest⟩ := exists_pack virginLength
      obtain ⟨c0, c1, c2, c3, current, rfl, currentRest⟩ := exists_pack currentLength
      rw [skim_pack, ih virginRest currentRest]
      simp only [List.forall₂_cons]

/-! ## The slow path -/

theorem discoverWord_of_quiet {virgin current : UInt64} (quiet : Quiet virgin current)
    (ret : UInt8) (notZero : current ≠ 0) :
    discoverWord ret (classifyWord current) virgin = (ret, virgin) := by
  have nothing := quiet.resolve_left notZero
  simp [discoverWord, nothing]

theorem discoverWords_of_quiet {virgin current : List UInt64}
    (quiet : List.Forall₂ Quiet virgin current) {i mapped : Nat} (inMap : i ≤ mapped)
    (ret : UInt8) : discoverWords i ret (classifyWords mapped current) virgin = (ret, virgin) := by
  induction quiet generalizing i mapped with
  | nil => cases i <;> cases mapped <;> rfl
  | @cons virginWord word virgin current wordQuiet _ ih =>
      cases i with
      | zero => cases mapped <;> rfl
      | succ i =>
          obtain ⟨mapped, rfl⟩ : ∃ less, mapped = less + 1 := ⟨mapped - 1, by omega⟩
          have rest := @ih i mapped (by omega)
          simp only [classifyWords, discoverWords]
          by_cases zero : word = 0
          · simp [zero, rest]
          · simp only [zero, ne_eq, not_false_eq_true, if_true,
              discoverWord_of_quiet wordQuiet ret zero, ite_self, rest]

section

variable {sizes : MapSizes}

theorem toNat_shiftRight_three (size : UInt32) : (size >>> 3).toNat = size.toNat / 8 := by
  simp [UInt32.toNat_shiftRight, Nat.shiftRight_eq_div_pow]

theorem MapSizes.realWords_le (sizes : MapSizes) :
    ((sizes.realMapSize + 7) >>> 3).toNat ≤ (sizes.mapSize >>> 3).toNat := by
  have rounded := sizes.rounded
  have small := sizes.mapSize.toNat_lt
  have noWrap : (sizes.realMapSize + 7).toNat = sizes.realMapSize.toNat + 7 := by
    rw [UInt32.toNat_add]
    exact Nat.mod_eq_of_lt (by change sizes.realMapSize.toNat + 7 < 2 ^ 32; omega)
  rw [toNat_shiftRight_three, toNat_shiftRight_three, noWrap]
  omega

theorem CoverageMap.packs (map : CoverageMap sizes) :
    map.words.length = 4 * ((sizes.realMapSize.toNat + 63) / 64 * 2) := by
  have length := map.length
  have rounded := sizes.rounded
  omega

theorem CoverageMap.eq_of_words {first second : CoverageMap sizes}
    (same : first.words = second.words) : first = second := by
  cases first
  cases second
  cases same
  rfl

/-- A search that finds nothing leaves everything as it was. -/
theorem hasNewBits_of_nothing {afl : AflState sizes} {virginMap : VirginMap}
    (nothing : discoverWords ((sizes.realMapSize + 7) >>> 3).toNat 0 afl.traceBits.words
      (afl.virgin virginMap).words = (0, (afl.virgin virginMap).words)) :
    hasNewBits afl virginMap = (0, afl) := by
  have same : ∀ length, (⟨(discoverWords ((sizes.realMapSize + 7) >>> 3).toNat 0
      afl.traceBits.words (afl.virgin virginMap).words).2, length⟩ : CoverageMap sizes) =
        afl.virgin virginMap := fun _ => CoverageMap.eq_of_words (congrArg Prod.snd nothing)
  simp only [hasNewBits, same, Function.update_eq_self, congrArg Prod.fst nothing]
  rfl

theorem hasNewBits_of_skim {afl : AflState sizes} {virginMap : VirginMap}
    (skimmed : skim (afl.virgin virginMap).words afl.traceBits.words = false) :
    hasNewBits (classifyCounts afl) virginMap = (0, classifyCounts afl) := by
  have quiet := (skim_eq_false_iff (afl.virgin virginMap).packs afl.traceBits.packs).mp skimmed
  exact hasNewBits_of_nothing (discoverWords_of_quiet quiet sizes.realWords_le 0)

/-- The fast path returns what the slow path returns and leaves the same virgin
maps, and the same trace if there is anything new. -/
theorem hasNewBitsUnclassified_eq (afl : AflState sizes) (virginMap : VirginMap) :
    let fast := hasNewBitsUnclassified afl virginMap
    let slow := hasNewBits (classifyCounts afl) virginMap
    fast.1 = slow.1 ∧ fast.2.virgin = slow.2.virgin ∧
      fast.2.bitmapChanged = slow.2.bitmapChanged ∧
      (fast.1 ≠ 0 → fast.2.traceBits = slow.2.traceBits) := by
  simp only [hasNewBitsUnclassified]
  cases skimmed : skim (afl.virgin virginMap).words afl.traceBits.words with
  | false =>
      rw [hasNewBits_of_skim skimmed]
      simp [classifyCounts]
  | true => simp

end

end SbFuzz.Fuzzer
