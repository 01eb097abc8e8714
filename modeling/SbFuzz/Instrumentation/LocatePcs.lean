import Mathlib.Data.List.Pairwise
import SbFuzz.Instrumentation.PcMap
import SbFuzz.Systems.Bisection

/-! The binary search of `locate_in_pcs` with the machine words of the source. -/

set_option autoImplicit false

namespace SbFuzz.Instrumentation.LocatePcs

open SbFuzz.Systems PcMap

/-- `__afl_filter_pcs`, whose size is a `u32`. -/
structure FilterPcs where
  entries : List FilterPCEntry
  length_lt : entries.length < 0x100000000

def FilterPcs.size (pcs : FilterPcs) : UInt32 := UInt32.ofNat pcs.entries.length

inductive Located where
  | hit (index : UInt32)
  | miss
  /-- An entry was read that is not in the table. -/
  | outside
  deriving DecidableEq

/-- The loop of `locate_in_pcs`. Nothing stands for too little fuel. -/
def locateLoop (pcs : FilterPcs) (needle : UInt64) : Nat → UInt64 → UInt64 → Option Located
  | 0, _, _ => none
  | fuel + 1, lowerBound, upperBound =>
      if lowerBound < pcs.size.toUInt64 ∧ lowerBound ≤ upperBound then
        let currentIndex := lowerBound + (upperBound - lowerBound) / 2
        match pcs.entries[currentIndex.toNat]? with
        | none => some .outside
        | some entry =>
            if entry.start ≤ needle then
              if entry.start + entry.len.toUInt64 > needle then some (.hit currentIndex.toUInt32)
              else locateLoop pcs needle fuel (currentIndex + 1) upperBound
            else if currentIndex = 0 then some .miss
            else locateLoop pcs needle fuel lowerBound (currentIndex - 1)
      else some .miss

/-- `locate_in_pcs`. The last index is computed as a `u32`. -/
def locateInPcs (pcs : FilterPcs) (fuel : Nat) (needle : UInt64) : Option Located :=
  locateLoop pcs needle fuel 0 (pcs.size - 1).toUInt64

/-! ## Ranges -/

/-- The range without a bound of the addresses. -/
def Contains (entry : FilterPCEntry) (needle : UInt64) : Prop :=
  entry.start.toNat ≤ needle.toNat ∧ needle.toNat < entry.start.toNat + entry.len.toNat

/-- The range ends where the addresses do, or would end behind them. -/
def ReachesEnd (entry : FilterPCEntry) : Prop :=
  0x10000000000000000 ≤ entry.start.toNat + entry.len.toNat

/-- Sorted and disjoint: each range ends before the next one starts. -/
def Sorted (entries : List FilterPCEntry) : Prop :=
  entries.Pairwise fun entry later => entry.start.toNat + entry.len.toNat ≤ later.start.toNat

/-- What a round of the loop learns from an entry. -/
def probeEntry (needle : UInt64) (entry : FilterPCEntry) : Probe :=
  if entry.start ≤ needle then
    if entry.start + entry.len.toUInt64 > needle then .hit else .below
  else .above

def probe (entries : List FilterPCEntry) (needle : UInt64) (k : Nat) : Probe :=
  (entries[k]?.map (probeEntry needle)).getD .above

theorem probe_eq {entries : List FilterPCEntry} {needle : UInt64} {k : Nat}
    {entry : FilterPCEntry} (found : entries[k]? = some entry) :
    probe entries needle k = probeEntry needle entry := by
  rw [probe, found]
  rfl

theorem toNat_end {entry : FilterPCEntry} (within : ¬ ReachesEnd entry) :
    (entry.start + entry.len.toUInt64).toNat = entry.start.toNat + entry.len.toNat := by
  rw [ReachesEnd] at within
  rw [UInt64.toNat_add, UInt32.toNat_toUInt64]
  exact Nat.mod_eq_of_lt (by omega)

/-- The end of a range that reaches the end of the addresses wraps around in front of it. -/
theorem toNat_end_wraps {entry : FilterPCEntry} (reaches : ReachesEnd entry) :
    (entry.start + entry.len.toUInt64).toNat ≤ entry.start.toNat := by
  have start := entry.start.toNat_lt
  have len := entry.len.toNat_lt
  rw [ReachesEnd] at reaches
  rw [UInt64.toNat_add, UInt32.toNat_toUInt64]
  omega

theorem probeEntry_hit_iff {needle : UInt64} {entry : FilterPCEntry} :
    probeEntry needle entry = .hit ↔ Contains entry needle ∧ ¬ ReachesEnd entry := by
  unfold probeEntry Contains
  by_cases reaches : ReachesEnd entry
  · have wraps := toNat_end_wraps reaches
    simp only [reaches, not_true_eq_false, and_false, iff_false]
    split
    · next starts =>
      rw [UInt64.le_iff_toNat_le] at starts
      rw [if_neg (by rw [gt_iff_lt, UInt64.lt_iff_toNat_lt]; omega)]
      decide
    · decide
  · have ends := toNat_end reaches
    simp only [reaches, not_false_eq_true, and_true, gt_iff_lt, UInt64.le_iff_toNat_le,
      UInt64.lt_iff_toNat_lt, ends]
    split
    · next starts =>
      split
      · next inside => simp [starts, inside]
      · next behind => simp [behind]
    · next front => simp [front]

theorem probeEntry_above_iff {needle : UInt64} {entry : FilterPCEntry} :
    probeEntry needle entry = .above ↔ needle.toNat < entry.start.toNat := by
  unfold probeEntry
  rw [← Nat.not_le, ← UInt64.le_iff_toNat_le]
  split
  · next starts =>
    simp only [starts, not_true_eq_false, iff_false]
    split
    · decide
    · decide
  · next front => simp [front]

theorem probeEntry_below_iff {needle : UInt64} {entry : FilterPCEntry} :
    probeEntry needle entry = .below ↔
      entry.start.toNat ≤ needle.toNat ∧ ¬ (Contains entry needle ∧ ¬ ReachesEnd entry) := by
  rw [← probeEntry_hit_iff, ← Nat.not_lt, ← probeEntry_above_iff]
  cases probeEntry needle entry <;> decide

/-- The entries in front of one that starts at the address or before it end before the address. -/
theorem probe_ordered {entries : List FilterPCEntry} (sorted : Sorted entries) (needle : UInt64) :
    Probe.Ordered (probe entries needle) entries.length := by
  have ordered : ∀ {i k : Nat} (inside : k < entries.length) (before : i < k),
      entries[i].start.toNat + entries[i].len.toNat ≤ entries[k].start.toNat :=
    fun inside before => List.pairwise_iff_getElem.mp sorted _ _ _ inside before
  constructor
  · intro i k before inside isBelow
    rcases Nat.lt_or_eq_of_le before with earlier | rfl
    · have ends := ordered inside earlier
      rw [probe_eq (List.getElem?_eq_getElem inside), probeEntry_below_iff] at isBelow
      rw [probe_eq (List.getElem?_eq_getElem (Nat.lt_trans earlier inside)), probeEntry_below_iff,
        Contains]
      omega
    · exact isBelow
  · intro i k before inside isAbove
    rcases Nat.lt_or_eq_of_le before with later | rfl
    · have ends := ordered inside later
      rw [probe_eq (List.getElem?_eq_getElem (Nat.lt_trans later inside)),
        probeEntry_above_iff] at isAbove
      rw [probe_eq (List.getElem?_eq_getElem inside), probeEntry_above_iff]
      omega
    · exact isAbove

/-! ## The loop -/

def Located.of : Option Nat → Located
  | none => .miss
  | some index => .hit (UInt32.ofNat index)

theorem middle_toNat {lowerBound upperBound : UInt64} (ordered : lowerBound ≤ upperBound) :
    (lowerBound + (upperBound - lowerBound) / 2).toNat =
      lowerBound.toNat + (upperBound.toNat - lowerBound.toNat) / 2 := by
  have word := upperBound.toNat_lt
  have le := UInt64.le_iff_toNat_le.mp ordered
  rw [UInt64.toNat_add, UInt64.toNat_div, UInt64.toNat_sub_of_le _ _ ordered]
  exact Nat.mod_eq_of_lt (by simp; omega)

theorem size_toNat (pcs : FilterPcs) : pcs.size.toUInt64.toNat = pcs.entries.length := by
  rw [FilterPcs.size, UInt32.toNat_toUInt64]
  exact UInt32.toNat_ofNat_of_lt' pcs.length_lt

/-- The search without a bound of the words halves the interval. -/
theorem locateBetween_bisects (entries : List FilterPCEntry) (needle : UInt64)
    (lowerBound upperBound : Nat) (inside : upperBound < entries.length) :
    Bisects (probe entries needle) lowerBound (upperBound + 1)
      (locateBetween entries needle lowerBound upperBound) := by
  fun_induction locateBetween entries needle lowerBound upperBound with
  | case1 lowerBound upperBound active currentIndex absent =>
      rw [List.getElem?_eq_none_iff] at absent
      omega
  | case2 lowerBound upperBound active currentIndex entry found starts reached =>
      refine .hit currentIndex (by omega) (by omega) ?_
      rw [probe_eq found, probeEntry, if_pos starts, if_pos reached]
  | case3 lowerBound upperBound active currentIndex entry found starts ended ih =>
      refine .up currentIndex (by omega) (by omega) ?_ (ih inside)
      rw [probe_eq found, probeEntry, if_pos starts, if_neg ended]
  | case4 lowerBound upperBound active currentIndex entry found front first =>
      refine .down currentIndex (by omega) (by omega) ?_ (.spent (by omega))
      rw [probe_eq found, probeEntry, if_neg front]
  | case5 lowerBound upperBound active currentIndex entry found front later ih =>
      have rest := ih (by omega)
      rw [Nat.sub_add_cancel (Nat.pos_of_ne_zero later)] at rest
      refine .down currentIndex (by omega) (by omega) ?_ rest
      rw [probe_eq found, probeEntry, if_neg front]
  | case6 lowerBound upperBound idle => exact .spent (by omega)

/-- For every table the loop ends, and it reads inside the table only. -/
theorem locateLoop_eq (pcs : FilterPcs) (needle : UInt64) (fuel : Nat)
    (lowerBound upperBound : UInt64) (inside : upperBound.toNat < pcs.entries.length)
    (enough : upperBound.toNat + 1 - lowerBound.toNat < fuel) :
    locateLoop pcs needle fuel lowerBound upperBound =
      some (.of (locateBetween pcs.entries needle lowerBound.toNat upperBound.toNat)) := by
  induction fuel generalizing lowerBound upperBound with
  | zero => omega
  | succ fuel ih =>
      have size := size_toNat pcs
      have few := pcs.length_lt
      have condition : (lowerBound < pcs.size.toUInt64 ∧ lowerBound ≤ upperBound) ↔
          lowerBound.toNat < pcs.entries.length ∧ lowerBound.toNat ≤ upperBound.toNat := by
        rw [UInt64.lt_iff_toNat_lt, UInt64.le_iff_toNat_le, size]
      unfold locateLoop locateBetween
      by_cases active : lowerBound < pcs.size.toUInt64 ∧ lowerBound ≤ upperBound
      · have middle := middle_toNat active.2
        have bounds := condition.mp active
        rw [if_pos active, if_pos bounds]
        generalize lowerBound + (upperBound - lowerBound) / 2 = currentIndex at middle ⊢
        rw [← middle]
        simp only [List.getElem?_eq_getElem (show currentIndex.toNat < pcs.entries.length by omega)]
        split
        · split
          · rfl
          · have next : (currentIndex + 1).toNat = currentIndex.toNat + 1 := by
              rw [UInt64.toNat_add]
              exact Nat.mod_eq_of_lt (by simp; omega)
            rw [ih (currentIndex + 1) upperBound inside (by omega), next]
        · have zero : currentIndex = 0 ↔ currentIndex.toNat = 0 := UInt64.toNat_inj.symm
          by_cases first : currentIndex = 0
          · rw [if_pos first, if_pos (zero.mp first)]
            rfl
          · have positive := Nat.pos_of_ne_zero (mt zero.mpr first)
            have previous : (currentIndex - 1).toNat = currentIndex.toNat - 1 :=
              UInt64.toNat_sub_of_le _ _ (UInt64.le_iff_toNat_le.mpr positive)
            rw [if_neg first, if_neg (mt zero.mpr first),
              ih lowerBound (currentIndex - 1) (by omega) (by omega), previous]
      · rw [if_neg active, if_neg (mt condition.mpr active)]
        rfl

/-- The machine words make no difference to the search. -/
theorem locateInPcs_eq (pcs : FilterPcs) (needle : UInt64) {fuel : Nat}
    (enough : pcs.entries.length < fuel) :
    locateInPcs pcs fuel needle = some (.of (PcMap.locateInPcs pcs.entries needle)) := by
  have size := size_toNat pcs
  unfold locateInPcs PcMap.locateInPcs
  rcases Nat.eq_zero_or_pos pcs.entries.length with empty | filled
  · obtain ⟨rounds, rfl⟩ := Nat.exists_eq_add_one_of_ne_zero (Nat.ne_zero_of_lt enough)
    unfold locateLoop locateBetween
    rw [if_neg, if_neg (by omega)]
    · rfl
    · rw [UInt64.lt_iff_toNat_lt]
      omega
  · have last : (pcs.size - 1).toUInt64.toNat = pcs.entries.length - 1 := by
      rw [UInt32.toNat_toUInt64, UInt32.toNat_sub_of_le]
      · rw [← UInt32.toNat_toUInt64, size]
        rfl
      · rw [UInt32.le_iff_toNat_le, ← UInt32.toNat_toUInt64 pcs.size, size]
        exact filled
    rw [locateLoop_eq pcs needle fuel 0 _ (by omega) (by rw [last, UInt64.toNat_zero]; omega), last]
    rfl

theorem locateInPcs_bisects (entries : List FilterPCEntry) (needle : UInt64) :
    Bisects (probe entries needle) 0 entries.length (PcMap.locateInPcs entries needle) := by
  unfold PcMap.locateInPcs
  rcases Nat.eq_zero_or_pos entries.length with empty | filled
  · rw [locateBetween, if_neg (by omega)]
    exact .spent (by omega)
  · have halves := locateBetween_bisects entries needle 0 (entries.length - 1) (by omega)
    rwa [Nat.sub_add_cancel filled] at halves

/-! ## The result -/

def Located.isHit : Located → Prop
  | .hit _ => True
  | _ => False

instance (located : Located) : Decidable located.isHit :=
  match located with
  | .hit _ => .isTrue trivial
  | .miss => .isFalse fun hit => hit
  | .outside => .isFalse fun hit => hit

theorem isHit_of (result : Option Nat) : (Located.of result).isHit ↔ result.isSome = true := by
  cases result with
  | none => decide
  | some index => exact ⟨fun _ => rfl, fun _ => trivial⟩

theorem of_ne_outside (result : Option Nat) : Located.of result ≠ .outside := by
  cases result with
  | none => decide
  | some index => exact fun same => by cases same

theorem probe_hit_iff (entries : List FilterPCEntry) (needle : UInt64) :
    (∃ k < entries.length, probe entries needle k = .hit) ↔
      ∃ entry ∈ entries, Contains entry needle ∧ ¬ ReachesEnd entry := by
  constructor
  · rintro ⟨k, inside, hits⟩
    rw [probe_eq (List.getElem?_eq_getElem inside), probeEntry_hit_iff] at hits
    exact ⟨entries[k], List.getElem_mem inside, hits⟩
  · rintro ⟨entry, member, hits⟩
    obtain ⟨k, inside, rfl⟩ := List.getElem_of_mem member
    refine ⟨k, inside, ?_⟩
    rw [probe_eq (List.getElem?_eq_getElem inside), probeEntry_hit_iff]
    exact hits

/-- Ranges that are sorted have no address in common. -/
theorem contains_unique {entries : List FilterPCEntry} (sorted : Sorted entries)
    {entry other : FilterPCEntry} (member : entry ∈ entries) (memberOther : other ∈ entries)
    {needle : UInt64} (contains : Contains entry needle) (containsOther : Contains other needle) :
    entry = other := by
  obtain ⟨i, inside, rfl⟩ := List.getElem_of_mem member
  obtain ⟨k, insideOther, rfl⟩ := List.getElem_of_mem memberOther
  rw [Contains] at contains containsOther
  have ordered := List.pairwise_iff_getElem.mp sorted
  rcases Nat.lt_trichotomy i k with before | rfl | behind
  · have ends := ordered i k inside insideOther before
    omega
  · rfl
  · have ends := ordered k i insideOther inside behind
    omega

/-- With enough fuel the search ends, inside the table, and it hits if and only if a range contains
the address. -/
def Locates (pcs : FilterPcs) (needle : UInt64) : Prop :=
  ∀ fuel, pcs.entries.length < fuel →
    ∃ located, locateInPcs pcs fuel needle = some located ∧ located ≠ .outside ∧
      (located.isHit ↔ ∃ entry ∈ pcs.entries, Contains entry needle)

theorem locateInPcs_hit_iff (pcs : FilterPcs) (sorted : Sorted pcs.entries) (needle : UInt64) :
    (Located.of (PcMap.locateInPcs pcs.entries needle)).isHit ↔
      ∃ entry ∈ pcs.entries, Contains entry needle ∧ ¬ ReachesEnd entry := by
  rw [isHit_of, (locateInPcs_bisects pcs.entries needle).isSome_iff (probe_ordered sorted needle),
    probe_hit_iff]

/-- The end of a range is computed as a machine word, so no address of a range that reaches the
last one is found. -/
theorem locates_iff (pcs : FilterPcs) (sorted : Sorted pcs.entries) (needle : UInt64) :
    Locates pcs needle ↔
      ¬ ∃ entry ∈ pcs.entries, Contains entry needle ∧ ReachesEnd entry := by
  constructor
  · rintro locates ⟨entry, member, contains, reaches⟩
    have enough := Nat.lt_succ_self pcs.entries.length
    obtain ⟨located, returned, -, hits⟩ := locates _ enough
    rw [locateInPcs_eq pcs needle enough] at returned
    cases returned
    obtain ⟨other, memberOther, containsOther, within⟩ :=
      (locateInPcs_hit_iff pcs sorted needle).mp (hits.mpr ⟨entry, member, contains⟩)
    rw [contains_unique sorted member memberOther contains containsOther] at reaches
    exact within reaches
  · intro within fuel enough
    refine ⟨_, locateInPcs_eq pcs needle enough, of_ne_outside _, ?_⟩
    rw [locateInPcs_hit_iff pcs sorted needle]
    constructor
    · rintro ⟨entry, member, contains, -⟩
      exact ⟨entry, member, contains⟩
    · rintro ⟨entry, member, contains⟩
      exact ⟨entry, member, contains, fun reaches => within ⟨entry, member, contains, reaches⟩⟩

/-- Three ranges, the last one in front of the end of the addresses. -/
def threePcs : FilterPcs := ⟨[⟨16, 4⟩, ⟨20, 0⟩, ⟨32, 8⟩], by decide⟩

theorem locates_three : Locates threePcs 35 ∧ Locates threePcs 20 := by
  have sorted : Sorted threePcs.entries := by
    unfold Sorted threePcs
    decide
  constructor
  · exact (locates_iff threePcs sorted 35).mpr (by unfold threePcs Contains ReachesEnd; decide)
  · exact (locates_iff threePcs sorted 20).mpr (by unfold threePcs Contains ReachesEnd; decide)

/-- The last 16 addresses. -/
def lastPcs : FilterPcs := ⟨[⟨0xfffffffffffffff0, 16⟩], by decide⟩

/-- An address in the range is not found. -/
theorem not_locates_last :
    Sorted lastPcs.entries ∧ locateInPcs lastPcs 2 0xfffffffffffffff8 = some .miss ∧
      ¬ Locates lastPcs 0xfffffffffffffff8 := by
  have missed : locateInPcs lastPcs 2 0xfffffffffffffff8 = some .miss := by decide
  refine ⟨List.pairwise_singleton _ _, missed, ?_⟩
  intro locates
  obtain ⟨located, returned, -, hits⟩ := locates 2 (by decide)
  rw [missed] at returned
  cases returned
  exact hits.mpr ⟨_, List.mem_singleton_self _, by unfold Contains; decide⟩

end SbFuzz.Instrumentation.LocatePcs
