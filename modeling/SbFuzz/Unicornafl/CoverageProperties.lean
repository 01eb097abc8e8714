import SbFuzz.Unicornafl.Coverage

/-! Which calls of the coverage hooks stay inside the shared map. -/

set_option autoImplicit false

namespace SbFuzz.Unicornafl

/-- Every index that was incremented lies in the shared map. -/
def Coverage.InBounds (coverage : Coverage) : Prop :=
  ∀ index ∈ coverage.touched, index < mapSize.toUInt64

/-- A compare call is cut off by `AFL_INST_RATIO`, sees operands that differ in
their first byte, or has room for the offset of that byte. -/
def CompareFits (instRms : UInt32) (address arg1 arg2 : UInt64) (size : UInt32) : Prop :=
  curLoc address < instRms.toUInt64 →
    (64 ≤ size → arg1 &&& 0xff00000000000000 = arg2 &&& 0xff00000000000000 →
      curLoc address + 6 < mapSize.toUInt64) ∧
    (32 ≤ size → size < 64 → arg1 &&& 0xff000000 = arg2 &&& 0xff000000 →
      curLoc address + 2 < mapSize.toUInt64)

def HookCall.Fits (instRms : UInt32) : HookCall → Prop
  | .block _ _ => True
  | .sub address arg1 arg2 size => CompareFits instRms address arg1 arg2 size
  | .cmp address arg1 arg2 size => CompareFits instRms address arg1 arg2 size
  | .next => True

/-! ## Locations -/

theorem lt_mapSize_iff (word : UInt64) : word < mapSize.toUInt64 ↔ word.toNat < 65536 := by
  have size : mapSize.toUInt64.toNat = 65536 := by decide
  rw [UInt64.lt_iff_toNat_lt, size]

theorem curLoc_lt (address : UInt64) : (curLoc address).toNat < 65536 := by
  have masked : (aflHashIp address &&& (mapSize - 1)).toNat ≤ (mapSize - 1).toNat := by
    rw [UInt32.toNat_and]
    exact Nat.and_le_right
  have mask : (mapSize - 1).toNat = 65535 := by decide
  rw [curLoc, UInt32.toNat_toUInt64]
  omega

theorem xor_lt_mapSize_iff {location prevLoc : UInt64} (small : prevLoc.toNat < 65536) :
    location ^^^ prevLoc < mapSize.toUInt64 ↔ location < mapSize.toUInt64 := by
  have bounded {left right : Nat} (first : left < 65536) (second : right < 65536) :
      left ^^^ right < 65536 := Nat.xor_lt_two_pow (n := 16) first second
  rw [lt_mapSize_iff, lt_mapSize_iff, UInt64.toNat_xor]
  constructor
  · intro inside
    have back := bounded inside small
    rwa [Nat.xor_assoc, Nat.xor_self, Nat.xor_zero] at back
  · intro inside
    exact bounded inside small

/-! ## Comparisons -/

theorem Coverage.InBounds.congr {left right : Coverage} (same : left.touched = right.touched) :
    left.InBounds ↔ right.InBounds := by
  rw [Coverage.InBounds, same, Coverage.InBounds]

theorem Coverage.increment_inBounds_iff (coverage : Coverage) (index : UInt64) :
    (coverage.increment index).InBounds ↔
      coverage.InBounds ∧ index < mapSize.toUInt64 := by
  simp [Coverage.InBounds, Coverage.increment, or_imp, forall_and]

@[simp] theorem ucHookSubMasks_prevLoc (cur arg1 arg2 : UInt64) (masks : List (UInt64 × UInt64))
    (coverage : Coverage) :
    (ucHookSubMasks cur arg1 arg2 masks coverage).prevLoc = coverage.prevLoc := by
  induction masks generalizing coverage with
  | nil => rfl
  | cons head rest ih =>
      obtain ⟨mask, offset⟩ := head
      simp only [ucHookSubMasks]
      split
      · exact ih _
      · rfl

theorem ucHookSubMasks_inBounds_of (cur arg1 arg2 : UInt64) (masks : List (UInt64 × UInt64))
    (coverage : Coverage)
    (bounded : (ucHookSubMasks cur arg1 arg2 masks coverage).InBounds) : coverage.InBounds := by
  induction masks generalizing coverage with
  | nil => exact bounded
  | cons head rest ih =>
      obtain ⟨mask, offset⟩ := head
      simp only [ucHookSubMasks] at bounded
      split at bounded
      · exact ((coverage.increment_inBounds_iff _).mp (ih _ bounded)).1
      · exact bounded

theorem ucHookSubMasks_inBounds {cur arg1 arg2 : UInt64} {masks : List (UInt64 × UInt64)}
    {coverage : Coverage} (small : coverage.prevLoc.toNat < 65536)
    (room : ∀ entry ∈ masks, cur + entry.2 < mapSize.toUInt64)
    (bounded : coverage.InBounds) : (ucHookSubMasks cur arg1 arg2 masks coverage).InBounds := by
  induction masks generalizing coverage with
  | nil => exact bounded
  | cons head rest ih =>
      obtain ⟨mask, offset⟩ := head
      simp only [ucHookSubMasks]
      split
      · have here := room (mask, offset) (by simp)
        refine ih small (fun entry member => room entry (by simp [member])) ?_
        exact (coverage.increment_inBounds_iff _).mpr ⟨bounded, (xor_lt_mapSize_iff small).mpr here⟩
      · exact bounded

theorem add_lt_mapSize {cur larger smaller : UInt64} (masked : cur.toNat < 65536)
    (offset : larger.toNat ≤ 6) (less : smaller.toNat ≤ larger.toNat)
    (inside : cur + larger < mapSize.toUInt64) : cur + smaller < mapSize.toUInt64 := by
  rw [lt_mapSize_iff] at inside ⊢
  rw [UInt64.toNat_add, Nat.mod_eq_of_lt (by omega)] at inside ⊢
  omega

/-- The first comparison reaches furthest, so it alone decides. -/
theorem ucHookSubMasks_inBounds_iff {cur arg1 arg2 mask offset : UInt64}
    {rest : List (UInt64 × UInt64)} {coverage : Coverage} (masked : cur.toNat < 65536)
    (small : coverage.prevLoc.toNat < 65536) (byte : offset.toNat ≤ 6)
    (furthest : ∀ entry ∈ rest, entry.2.toNat ≤ offset.toNat) :
    (ucHookSubMasks cur arg1 arg2 ((mask, offset) :: rest) coverage).InBounds ↔
      coverage.InBounds ∧ (arg1 &&& mask = arg2 &&& mask → cur + offset < mapSize.toUInt64) := by
  simp only [ucHookSubMasks]
  split
  · next agree =>
    constructor
    · intro bounded
      have first := ucHookSubMasks_inBounds_of _ _ _ _ _ bounded
      rw [Coverage.increment_inBounds_iff, xor_lt_mapSize_iff small] at first
      exact ⟨first.1, fun _ => first.2⟩
    · rintro ⟨bounded, room⟩
      have others : ∀ entry ∈ rest, cur + entry.2 < mapSize.toUInt64 := fun entry member =>
        add_lt_mapSize masked byte (furthest entry member) (room agree)
      refine ucHookSubMasks_inBounds small others ?_
      rw [Coverage.increment_inBounds_iff, xor_lt_mapSize_iff small]
      exact ⟨bounded, room agree⟩
  · next differ =>
    exact ⟨fun bounded => ⟨bounded, fun agree => absurd agree differ⟩, And.left⟩

theorem ucHookSubImpl64_inBounds_iff {cur arg1 arg2 : UInt64} {coverage : Coverage}
    (masked : cur.toNat < 65536) (small : coverage.prevLoc.toNat < 65536) :
    (ucHookSubImpl64 cur arg1 arg2 coverage).InBounds ↔ coverage.InBounds ∧
      (arg1 &&& 0xff00000000000000 = arg2 &&& 0xff00000000000000 →
        cur + 6 < mapSize.toUInt64) :=
  ucHookSubMasks_inBounds_iff masked small (by decide) (by
    simp only [List.forall_mem_cons, List.not_mem_nil]
    simp)

theorem ucHookSubImpl32_inBounds_iff {cur arg1 arg2 : UInt64} {coverage : Coverage}
    (masked : cur.toNat < 65536) (small : coverage.prevLoc.toNat < 65536) :
    (ucHookSubImpl32 cur arg1 arg2 coverage).InBounds ↔ coverage.InBounds ∧
      (arg1 &&& 0xff000000 = arg2 &&& 0xff000000 → cur + 2 < mapSize.toUInt64) :=
  ucHookSubMasks_inBounds_iff masked small (by decide) (by
    simp only [List.forall_mem_cons, List.not_mem_nil]
    simp)

theorem ucHookSubImpl16_inBounds_iff {cur arg1 arg2 : UInt64} {coverage : Coverage}
    (masked : cur.toNat < 65536) (small : coverage.prevLoc.toNat < 65536) :
    (ucHookSubImpl16 cur arg1 arg2 coverage).InBounds ↔ coverage.InBounds := by
  have room : cur + 0 < mapSize.toUInt64 := by
    rw [UInt64.add_zero, lt_mapSize_iff]
    exact masked
  refine (ucHookSubMasks_inBounds_iff masked small (by decide) (by simp)).trans ?_
  exact and_iff_left fun _ => room

theorem ucHookSubImpl_inBounds_iff {cur arg1 arg2 : UInt64} {coverage : Coverage}
    (masked : cur.toNat < 65536) (small : coverage.prevLoc.toNat < 65536) (size : UInt32) :
    (ucHookSubImpl cur arg1 arg2 size coverage).InBounds ↔ coverage.InBounds ∧
      (64 ≤ size → arg1 &&& 0xff00000000000000 = arg2 &&& 0xff00000000000000 →
        cur + 6 < mapSize.toUInt64) ∧
      (32 ≤ size → size < 64 → arg1 &&& 0xff000000 = arg2 &&& 0xff000000 →
        cur + 2 < mapSize.toUInt64) := by
  unfold ucHookSubImpl
  split
  · next wide =>
    rw [ucHookSubImpl64_inBounds_iff masked small]
    refine and_congr_right fun _ => ⟨fun room => ⟨fun _ => room, ?_⟩, fun room => room.1 wide⟩
    exact fun _ narrow => absurd narrow (UInt32.not_lt.mpr wide)
  · next narrow =>
    split
    · next middle =>
      rw [ucHookSubImpl32_inBounds_iff masked small]
      refine and_congr_right fun _ => ⟨fun room => ⟨?_, fun _ _ => room⟩, ?_⟩
      · exact fun wide => absurd wide narrow
      · exact fun room => room.2 middle (UInt32.not_le.mp narrow)
    · next short =>
      rw [ucHookSubImpl16_inBounds_iff masked small]
      refine (and_iff_left ⟨?_, ?_⟩).symm
      · exact fun wide => absurd wide narrow
      · exact fun middle => absurd middle short

theorem ucHookSubCmp_inBounds_iff {instRms : UInt32} {coverage : Coverage}
    (small : coverage.prevLoc.toNat < 65536) (address arg1 arg2 : UInt64) (size : UInt32) :
    (ucHookSubCmp instRms coverage address arg1 arg2 size).InBounds ↔
      coverage.InBounds ∧ CompareFits instRms address arg1 arg2 size := by
  have masked := curLoc_lt address
  unfold ucHookSubCmp CompareFits
  by_cases cutOff : curLoc address ≥ instRms.toUInt64
  · rw [if_pos cutOff]
    exact (and_iff_left fun inside => absurd inside (UInt64.not_lt.mpr cutOff)).symm
  · rw [if_neg cutOff, ucHookSubImpl_inBounds_iff masked small]
    have room : curLoc address < instRms.toUInt64 := UInt64.not_le.mp cutOff
    exact and_congr_right fun _ => ⟨fun fits _ => fits, fun fits => fits room⟩

/-! ## Runs -/

theorem Coverage.step_inBounds_iff {instRms : UInt32} {coverage : Coverage}
    (small : coverage.prevLoc.toNat < 65536) (call : HookCall) :
    (coverage.step instRms call).InBounds ↔ coverage.InBounds ∧ call.Fits instRms := by
  cases call with
  | block address size =>
      have inside : curLoc address < mapSize.toUInt64 :=
        (lt_mapSize_iff _).mpr (curLoc_lt address)
      have same : (coverage.step instRms (.block address size)).touched =
          (coverage.increment (curLoc address ^^^ coverage.prevLoc)).touched := rfl
      rw [Coverage.InBounds.congr same, Coverage.increment_inBounds_iff, xor_lt_mapSize_iff small]
      exact and_congr_right fun _ => iff_of_true inside trivial
  | sub address arg1 arg2 size => exact ucHookSubCmp_inBounds_iff small address arg1 arg2 size
  | cmp address arg1 arg2 size => exact ucHookSubCmp_inBounds_iff small address arg1 arg2 size
  | next =>
      have same : (coverage.step instRms .next).touched = coverage.touched := rfl
      rw [Coverage.InBounds.congr same]
      exact (and_iff_left trivial).symm

theorem Coverage.step_prevLoc {instRms : UInt32} {coverage : Coverage}
    (small : coverage.prevLoc.toNat < 65536) (call : HookCall) :
    (coverage.step instRms call).prevLoc.toNat < 65536 := by
  have compare (address arg1 arg2 : UInt64) (size : UInt32) :
      (ucHookSubCmp instRms coverage address arg1 arg2 size).prevLoc.toNat < 65536 := by
    simp only [ucHookSubCmp, ucHookSubImpl, ucHookSubImpl64, ucHookSubImpl32, ucHookSubImpl16]
    split
    · exact small
    · split
      · simpa using small
      · split <;> simpa using small
  cases call with
  | block address size =>
      change (curLoc address >>> 1).toNat < 65536
      rw [UInt64.toNat_shiftRight]
      exact Nat.lt_of_le_of_lt (Nat.shiftRight_le _ _) (curLoc_lt address)
  | sub address arg1 arg2 size => exact compare address arg1 arg2 size
  | cmp address arg1 arg2 size => exact compare address arg1 arg2 size
  | next => exact Nat.zero_lt_succ _

/-- The hooks stay inside the map exactly as long as every compare call fits:
the mask is applied to the location before the offset of a byte is added. -/
theorem runHooks_inBounds_iff (instRatio : Option UInt32) (calls : List HookCall) :
    (runHooks instRatio calls).InBounds ↔
      ∀ call ∈ calls, call.Fits (aflInstRms instRatio) := by
  have loop : ∀ (calls : List HookCall) (coverage : Coverage), coverage.prevLoc.toNat < 65536 →
      ((calls.foldl (Coverage.step (aflInstRms instRatio)) coverage).InBounds ↔
        coverage.InBounds ∧ ∀ call ∈ calls, call.Fits (aflInstRms instRatio)) := by
    intro calls
    induction calls with
    | nil => simp
    | cons call rest ih =>
        intro coverage small
        rw [List.foldl_cons, ih _ (coverage.step_prevLoc small call),
          coverage.step_inBounds_iff small call, and_assoc, List.forall_mem_cons]
  have start : Coverage.initial.InBounds := by simp [Coverage.InBounds, Coverage.initial]
  exact (loop calls .initial (by decide)).trans (and_iff_right start)

/-- Two equal 64-bit operands at an address whose location is the last one. -/
theorem compare_outOfBounds :
    ¬ ∀ (instRatio : Option UInt32) (calls : List HookCall),
      (runHooks instRatio calls).InBounds := by
  intro claim
  have bounded := claim none [.cmp 0x415961 0 0 64] 0x10005
  exact absurd (bounded (by decide)) (by decide)

end SbFuzz.Unicornafl
