import SbFuzz.Systems.Chains

/-! The hash map of `hashmap.c`, in which the comparison stages remember the
operands they have seen: the type of an operand is packed into its key. -/

set_option autoImplicit false

namespace SbFuzz.Fuzzer.Hashmap

open SbFuzz.Systems

def tableSize : UInt64 := 10007

def hash (key : UInt64) : UInt32 := (key % tableSize).toUInt32

abbrev HashMap := Chains hash

/-- What is left of a key next to the type. -/
def kept (key : UInt64) : UInt64 := key &&& 0xf8ffffffffffffff

def packed (type : UInt8) (key : UInt64) : UInt64 := kept key + (type.toUInt64 <<< 56)

/-- `hashmap_reset`: an older table loses all its nodes. -/
def hashmapReset (_ : Option HashMap) : Option HashMap := some .empty

/-- `hashmap_search_and_add`; without a table its first access is to address 0. -/
def hashmapSearchAndAdd (hashmap : Option HashMap) (type : UInt8) (key : UInt64) :
    Option (Bool × Option HashMap) :=
  if type ≥ 8 then some (false, hashmap)
  else hashmap.map fun table =>
    let visited := table.visit (packed type key)
    (visited.1, some visited.2)

/-- The table after one call after another. -/
def afterCalls (hashmap : Option HashMap) : List (UInt8 × UInt64) → Option (Option HashMap)
  | [] => some hashmap
  | (type, key) :: rest =>
      (hashmapSearchAndAdd hashmap type key).bind fun result => afterCalls result.2 rest

/-- What the call answers after a reset and the calls that came before it. -/
def answer (hashmap : Option HashMap) (calls : List (UInt8 × UInt64)) (type : UInt8)
    (key : UInt64) : Option Bool :=
  (afterCalls (hashmapReset hashmap) calls).bind fun table =>
    (hashmapSearchAndAdd table type key).map Prod.fst

/-- What a table holds after calls of types below 8: their packed pairs. -/
def packedPairs (calls : List (UInt8 × UInt64)) : Set UInt64 :=
  {val | ∃ call ∈ calls, call.1 < 8 ∧ packed call.1 call.2 = val}

theorem packedPairs_cons (type : UInt8) (key : UInt64) (rest : List (UInt8 × UInt64)) :
    packedPairs ((type, key) :: rest) =
      if type ≥ 8 then packedPairs rest else insert (packed type key) (packedPairs rest) := by
  ext val
  by_cases large : type ≥ 8
  · have small : ¬ type < 8 := by simpa using large
    simp [packedPairs, large, small]
  · have small : type < 8 := by simpa using large
    simp [packedPairs, large, small, eq_comm]

theorem afterCalls_contents (table : HashMap) (calls : List (UInt8 × UInt64)) :
    ∃ final : HashMap, afterCalls (some table) calls = some (some final) ∧
      final.contents = table.contents ∪ packedPairs calls := by
  induction calls generalizing table with
  | nil => exact ⟨table, rfl, by simp [packedPairs]⟩
  | cons call rest ih =>
      obtain ⟨type, key⟩ := call
      by_cases large : type ≥ 8
      · obtain ⟨final, ran, holds⟩ := ih table
        refine ⟨final, ?_, ?_⟩
        · simpa [afterCalls, hashmapSearchAndAdd, large] using ran
        · rw [holds, packedPairs_cons, if_pos large]
      · obtain ⟨final, ran, holds⟩ := ih (table.visit (packed type key)).2
        refine ⟨final, ?_, ?_⟩
        · simpa [afterCalls, hashmapSearchAndAdd, large] using ran
        · rw [holds, packedPairs_cons, if_neg large, Chains.contents_visit, Set.insert_union,
            Set.union_insert]

private theorem keptMask_getLsbD {i : Nat} (inWord : i < 64) :
    (0xf8ffffffffffffff#64).getLsbD i = decide (i < 56 ∨ 59 ≤ i) := by
  have all : ∀ i : Fin 64,
      (0xf8ffffffffffffff#64).getLsbD i = decide (i.val < 56 ∨ 59 ≤ i.val) := by decide
  exact all ⟨i, inWord⟩

private theorem typeMask_getLsbD {i : Nat} (inWord : i < 64) :
    (0x0700000000000000#64).getLsbD i = decide (56 ≤ i ∧ i < 59) := by
  have all : ∀ i : Fin 64,
      (0x0700000000000000#64).getLsbD i = decide (56 ≤ i.val ∧ i.val < 59) := by decide
  exact all ⟨i, inWord⟩

private theorem type_getLsbD {type : UInt8} (small : type < 8) {j : Nat} (high : 3 ≤ j) :
    type.toBitVec.getLsbD j = false := by
  have below : type.toBitVec.toNat < 2 ^ 3 := small
  exact Nat.testBit_lt_two_pow (below.trans_le (Nat.pow_le_pow_right (by decide) high))

/-- The key and the type lie in different bits, so the sum has no carries. -/
private theorem packed_toBitVec {type : UInt8} (small : type < 8) (key : UInt64) :
    (packed type key).toBitVec =
      key.toBitVec &&& 0xf8ffffffffffffff#64 ||| type.toBitVec.setWidth 64 <<< 56 := by
  have apart : key.toBitVec &&& 0xf8ffffffffffffff#64 &&& type.toBitVec.setWidth 64 <<< 56 =
      0#64 := by
    apply BitVec.eq_of_getLsbD_eq
    intro i inWord
    have high := @type_getLsbD type small (i - 56)
    simp only [BitVec.getLsbD_and, keptMask_getLsbD inWord, BitVec.getLsbD_shiftLeft,
      BitVec.getLsbD_setWidth, BitVec.getLsbD_zero]
    grind
  exact BitVec.add_eq_or_of_and_eq_zero _ _ apart

theorem kept_packed {type : UInt8} (small : type < 8) (key : UInt64) :
    kept (packed type key) = kept key := by
  apply UInt64.toBitVec_inj.mp
  change (packed type key).toBitVec &&& 0xf8ffffffffffffff#64 =
    key.toBitVec &&& 0xf8ffffffffffffff#64
  rw [packed_toBitVec small]
  apply BitVec.eq_of_getLsbD_eq
  intro i inWord
  have high := @type_getLsbD type small (i - 56)
  simp only [BitVec.getLsbD_and, BitVec.getLsbD_or, keptMask_getLsbD inWord,
    BitVec.getLsbD_shiftLeft, BitVec.getLsbD_setWidth]
  grind

theorem type_packed {type : UInt8} (small : type < 8) (key : UInt64) :
    packed type key &&& (0x0700000000000000 : UInt64) = type.toUInt64 <<< 56 := by
  apply UInt64.toBitVec_inj.mp
  change (packed type key).toBitVec &&& 0x0700000000000000#64 =
    type.toBitVec.setWidth 64 <<< 56
  rw [packed_toBitVec small]
  apply BitVec.eq_of_getLsbD_eq
  intro i inWord
  have high := @type_getLsbD type small (i - 56)
  simp only [BitVec.getLsbD_and, BitVec.getLsbD_or, keptMask_getLsbD inWord,
    typeMask_getLsbD inWord, BitVec.getLsbD_shiftLeft, BitVec.getLsbD_setWidth]
  grind

theorem packed_eq_iff {type other : UInt8} (small : type < 8) (otherSmall : other < 8)
    (key otherKey : UInt64) :
    packed type key = packed other otherKey ↔ type = other ∧ kept key = kept otherKey := by
  constructor
  · intro equal
    have sameKept := congrArg kept equal
    rw [kept_packed small, kept_packed otherSmall] at sameKept
    have sameType := type_packed small key
    rw [equal, type_packed otherSmall] at sameType
    have all : ∀ left right : Fin 8,
        (UInt8.ofNat left).toUInt64 <<< 56 = (UInt8.ofNat right).toUInt64 <<< 56 →
          left = right := by decide
    have sameValue := all ⟨type.toNat, small⟩ ⟨other.toNat, otherSmall⟩
      (by simpa [UInt8.ofNat_toNat] using sameType.symm)
    exact ⟨UInt8.toNat_inj.mp (Fin.mk.inj sameValue), sameKept⟩
  · intro same
    obtain ⟨rfl, sameKept⟩ := same
    rw [packed, packed, sameKept]

theorem mem_packedPairs_iff {calls : List (UInt8 × UInt64)} {type : UInt8} (small : type < 8)
    (key : UInt64) :
    packed type key ∈ packedPairs calls ↔
      ∃ other, (type, other) ∈ calls ∧ kept other = kept key := by
  constructor
  · intro member
    obtain ⟨⟨otherType, other⟩, called, otherSmall, equal⟩ := member
    obtain ⟨rfl, sameKept⟩ := (packed_eq_iff otherSmall small other key).mp equal
    exact ⟨other, called, sameKept⟩
  · intro found
    obtain ⟨other, called, sameKept⟩ := found
    exact ⟨(type, other), called, small, (packed_eq_iff small small other key).mpr ⟨rfl, sameKept⟩⟩

/-- The answer takes a pair for every earlier one of its type that agrees with it outside of
bits 56 to 58. -/
theorem answer_eq_some_true_iff (hashmap : Option HashMap) (calls : List (UInt8 × UInt64))
    (type : UInt8) (key : UInt64) :
    ∃ found, answer hashmap calls type key = some found ∧
      (found = true ↔ type < 8 ∧ ∃ other, (type, other) ∈ calls ∧ kept other = kept key) := by
  obtain ⟨final, ran, holds⟩ := afterCalls_contents .empty calls
  rw [Chains.contents_empty, Set.empty_union] at holds
  by_cases large : type ≥ 8
  · have notSmall : ¬ type < 8 := by simpa using large
    refine ⟨false, ?_, ?_⟩
    · simp [answer, hashmapReset, ran, hashmapSearchAndAdd, large]
    · simp [notSmall]
  · have small : type < 8 := by simpa using large
    refine ⟨(final.visit (packed type key)).1, ?_, ?_⟩
    · simp [answer, hashmapReset, ran, hashmapSearchAndAdd, large]
    · rw [Chains.visit_found, holds, mem_packedPairs_iff small]
      simp only [small, true_and]

/-- A type from 8 on was not tried before; the key of a smaller one was, or no earlier key of
its type differs from it in bits 56 to 58 only. -/
def Distinguished (calls : List (UInt8 × UInt64)) (type : UInt8) (key : UInt64) : Prop :=
  if type ≥ 8 then (type, key) ∉ calls
  else (type, key) ∈ calls ∨ ∀ other, (type, other) ∈ calls → kept other ≠ kept key

theorem answer_exact (hashmap : Option HashMap) (calls : List (UInt8 × UInt64)) (type : UInt8)
    (key : UInt64) :
    answer hashmap calls type key = some (decide ((type, key) ∈ calls)) ↔
      Distinguished calls type key := by
  obtain ⟨found, answered, exact⟩ := answer_eq_some_true_iff hashmap calls type key
  rw [answered, Option.some_inj, Distinguished]
  split
  · next large =>
    have notSmall : ¬ type < 8 := by simpa using large
    have refused : found = false := by simpa [notSmall] using exact
    simp [refused]
  · next notLarge =>
    have small : type < 8 := by simpa using notLarge
    simp only [small, true_and] at exact
    by_cases called : (type, key) ∈ calls
    · have told : found = true := exact.mpr ⟨key, called, rfl⟩
      simp [told, called]
    · simp only [called, decide_false, false_or]
      rw [← Bool.not_eq_true, exact, not_exists]
      simp only [not_and]

/-- Key 2^56 of type 0 passes for key 0. -/
theorem answer_merges :
    ¬ ∀ (hashmap : Option HashMap) (calls : List (UInt8 × UInt64)) (type : UInt8) (key : UInt64),
      type < 8 → answer hashmap calls type key = some (decide ((type, key) ∈ calls)) := by
  intro exact
  exact absurd (exact none [(0, 0)] 0 0x0100000000000000 (by decide)) (by decide)

end SbFuzz.Fuzzer.Hashmap
