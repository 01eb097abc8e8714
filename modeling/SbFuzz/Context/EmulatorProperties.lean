import SbFuzz.Context.Emulator

/-! When `uc_mem_map` and `uc_mem_write` succeed and what they change, in terms
of half-open ranges of addresses. -/

set_option autoImplicit false

namespace SbFuzz.Context

open Memory (Aligned)

def MemRegion.first (block : MemRegion) : Nat := block.begin.toNat

def MemRegion.limit (block : MemRegion) : Nat := block.stop.toNat + 1

theorem MemRegion.first_lt_limit (block : MemRegion) : block.first < block.limit := by
  have nonempty := UInt64.le_iff_toNat_le.mp block.nonempty
  unfold first limit
  omega

/-- A block that has an address with the range `[low, high)` in common. -/
def MemRegion.Meets (block : MemRegion) (low high : Nat) : Prop :=
  block.first < high ∧ low < block.limit

instance (block : MemRegion) (low high : Nat) : Decidable (block.Meets low high) :=
  inferInstanceAs (Decidable (_ ∧ _))

def Emulator.Mapped (emulator : Emulator) (address : Nat) : Prop :=
  ∃ block ∈ emulator.mapped.blocks, block.first ≤ address ∧ address < block.limit

theorem Emulator.Mapped.congr {before after : Emulator} (same : after.mapped = before.mapped)
    {address : Nat} : after.Mapped address ↔ before.Mapped address := by
  unfold Emulator.Mapped
  rw [same]

theorem Emulator.isMapped_iff (emulator : Emulator) (address : UInt64) :
    emulator.isMapped address = true ↔ emulator.Mapped address.toNat := by
  simp only [isMapped, List.any_eq_true, decide_eq_true_eq, Mapped, MemRegion.first,
    MemRegion.limit, UInt64.le_iff_toNat_le, Nat.lt_succ_iff]

theorem MappedBlocks.ordered_limit (mapped : MappedBlocks) :
    mapped.blocks.Pairwise fun lower upper => lower.limit ≤ upper.first :=
  mapped.ordered.imp fun less => UInt64.lt_iff_toNat_lt.mp less

/-! ## Mapping -/

theorem memoryOverlap_iff {blocks : List MemRegion} {address size : UInt64}
    (ordered : blocks.Pairwise fun lower upper => lower.limit ≤ upper.first)
    (positive : size ≠ 0) (noWrap : address ≤ address + size - 1) :
    memoryOverlap blocks address size = true ↔
      ∃ block ∈ blocks, block.Meets address.toNat (address.toNat + size.toNat) := by
  have stop := rangeStop_toNat positive noWrap
  induction blocks with
  | nil => simp [memoryOverlap]
  | cons head rest ih =>
      obtain ⟨headFirst, restOrdered⟩ := List.pairwise_cons.mp ordered
      have isHead : head.stop < address ↔ head.limit ≤ address.toNat := UInt64.lt_iff_toNat_lt
      have starts : address + size - 1 ≥ head.begin ↔
          head.first < address.toNat + size.toNat := by
        rw [ge_iff_le, UInt64.le_iff_toNat_le, ← Nat.lt_succ_iff, Nat.succ_eq_add_one, stop]
        rfl
      by_cases before : head.stop < address
      · have misses : ¬ head.Meets address.toNat (address.toNat + size.toNat) := fun meets =>
          absurd (isHead.mp before) (Nat.not_le.mpr meets.2)
        have skip :
            memoryOverlap (head :: rest) address size = memoryOverlap rest address size := by
          simp [memoryOverlap, before]
        rw [skip]
        refine (ih restOrdered).trans ?_
        simp [misses]
      · have reaches : address.toNat < head.limit := Nat.not_le.mp fun below =>
          before (isHead.mpr below)
        have decides : memoryOverlap (head :: rest) address size =
            decide (address + size - 1 ≥ head.begin) := by simp [memoryOverlap, before]
        rw [decides, decide_eq_true_iff, starts]
        constructor
        · intro low
          exact ⟨head, List.mem_cons_self, low, reaches⟩
        · rintro ⟨block, member, meets⟩
          rcases List.mem_cons.mp member with rfl | later
          · exact meets.1
          · have := headFirst block later
            have := head.first_lt_limit
            have := meets.1
            omega

structure Mappable (emulator : Emulator) (address size : UInt64) (perms : UInt32) : Prop where
  positive : size ≠ 0
  noWrap : address.toNat + size.toNat ≤ 2 ^ 64
  aligned : Aligned address.toNat
  sizeAligned : Aligned size.toNat
  perms : perms &&& ~~~ucProtAll = 0
  disjoint : ∀ block ∈ emulator.mapped.blocks,
    ¬ block.Meets address.toNat (address.toNat + size.toNat)

theorem noWrap_iff {address size : UInt64} (positive : size ≠ 0) :
    address ≤ address + size - 1 ↔ address.toNat + size.toNat ≤ 2 ^ 64 := by
  constructor
  · intro noWrap
    rw [← rangeStop_toNat positive noWrap]
    exact (address + size - 1).toNat_lt
  · intro fits
    have grouped : address + size - 1 = address + (size - 1) := by
      rw [UInt64.sub_eq_add_neg, UInt64.sub_eq_add_neg, UInt64.add_assoc]
    have sizePositive : size.toNat ≠ 0 := fun zero => positive (UInt64.toNat_inj.mp zero)
    rw [grouped, UInt64.le_iff_toNat_le, UInt64.toNat_add, sub_one_toNat positive,
      Nat.mod_eq_of_lt (by omega)]
    omega

theorem Emulator.ucMemMap_isOk_iff (emulator : Emulator) (address size : UInt64)
    (perms : UInt32) : (∃ next, emulator.ucMemMap address size perms = .ok next) ↔
      Mappable emulator address size perms := by
  unfold ucMemMap
  split
  · next zero => exact iff_of_false (by simp) fun mappable => mappable.positive zero
  · next positive =>
    split
    · next wraps =>
      exact iff_of_false (by simp) fun mappable =>
        UInt64.not_le.mpr wraps ((noWrap_iff positive).mpr mappable.noWrap)
    · next noWrap =>
      have inRange := UInt64.not_lt.mp noWrap
      split
      · next misaligned =>
        exact iff_of_false (by simp) fun mappable =>
          misaligned ((Memory.and_pageMask_eq_zero_iff address).mpr mappable.aligned)
      · next aligned =>
        split
        · next ragged =>
          exact iff_of_false (by simp) fun mappable =>
            ragged ((Memory.and_pageMask_eq_zero_iff size).mpr mappable.sizeAligned)
        · next sizeAligned =>
          split
          · next invalid => exact iff_of_false (by simp) fun mappable => invalid mappable.perms
          · next valid =>
            have overlapIff := memoryOverlap_iff emulator.mapped.ordered_limit positive inRange
            split
            · next overlap =>
              refine iff_of_false (by simp) fun mappable => ?_
              obtain ⟨block, member, meets⟩ := overlapIff.mp overlap
              exact mappable.disjoint block member meets
            · next apart =>
              refine iff_of_true ⟨_, rfl⟩ ⟨positive, (noWrap_iff positive).mp inRange, ?_, ?_,
                not_not.mp valid, ?_⟩
              · exact (Memory.and_pageMask_eq_zero_iff address).mp (not_not.mp aligned)
              · exact (Memory.and_pageMask_eq_zero_iff size).mp (not_not.mp sizeAligned)
              · exact fun block member meets => apart (overlapIff.mpr ⟨block, member, meets⟩)

/-- What a successful `uc_mem_map` leaves: one more block, and zeros in it. -/
structure MapResult (emulator next : Emulator) (address size : UInt64) : Prop where
  fresh : ∃ block ∈ next.mapped.blocks, block.first = address.toNat ∧
    block.limit = address.toNat + size.toNat
  blocks : ∀ block, block ∈ next.mapped.blocks →
    block ∈ emulator.mapped.blocks ∨
      (block.first = address.toNat ∧ block.limit = address.toNat + size.toNat)
  kept : ∀ block ∈ emulator.mapped.blocks, block ∈ next.mapped.blocks
  memory : ∀ byte : UInt64, byte.toNat < address.toNat ∨
    address.toNat + size.toNat ≤ byte.toNat → next.memory byte = emulator.memory byte
  zeroed : ∀ byte : UInt64, address.toNat ≤ byte.toNat →
    byte.toNat < address.toNat + size.toNat → next.memory byte = 0
  registers : next.registers = emulator.registers

theorem Emulator.ucMemMap_result {emulator next : Emulator} {address size : UInt64}
    {perms : UInt32} (mapped : emulator.ucMemMap address size perms = .ok next) :
    MapResult emulator next address size := by
  unfold ucMemMap at mapped
  split at mapped
  · cases mapped
  · next positive =>
    split at mapped
    · cases mapped
    · next noWrap =>
      split at mapped
      · cases mapped
      · next aligned =>
        split at mapped
        · cases mapped
        · next sizeAligned =>
          split at mapped
          · cases mapped
          · split at mapped
            · cases mapped
            · cases mapped
              have stop := rangeStop_toNat positive (UInt64.not_lt.mp noWrap)
              refine ⟨⟨_, mem_insertBlock.mpr (.inl rfl), rfl, stop⟩, ?_, ?_, ?_, ?_, rfl⟩
              · intro block member
                rcases mem_insertBlock.mp member with rfl | old
                · exact .inr ⟨rfl, stop⟩
                · exact .inl old
              · exact fun block member => mem_insertBlock.mpr (.inr member)
              · intro byte outside
                refine if_neg fun inside => ?_
                have low := UInt64.le_iff_toNat_le.mp inside.1
                have high := UInt64.le_iff_toNat_le.mp inside.2
                omega
              · intro byte low high
                refine if_pos ⟨UInt64.le_iff_toNat_le.mpr low, UInt64.le_iff_toNat_le.mpr ?_⟩
                omega

theorem MapResult.mapped_iff {emulator next : Emulator} {address size : UInt64}
    (result : MapResult emulator next address size) (byte : Nat) :
    next.Mapped byte ↔ emulator.Mapped byte ∨
      (address.toNat ≤ byte ∧ byte < address.toNat + size.toNat) := by
  constructor
  · rintro ⟨block, member, inside⟩
    rcases result.blocks block member with old | ⟨first, limit⟩
    · exact .inl ⟨block, old, inside⟩
    · exact .inr ⟨first ▸ inside.1, limit ▸ inside.2⟩
  · rintro (⟨block, member, inside⟩ | inside)
    · exact ⟨block, result.kept block member, inside⟩
    · obtain ⟨block, member, first, limit⟩ := result.fresh
      exact ⟨block, member, by rw [first, limit]; exact inside⟩

/-! ## Writing -/

theorem Emulator.checkMemArea_iff (emulator : Emulator) {address : UInt64} {size : Nat}
    (noWrap : address.toNat + size ≤ 2 ^ 64) : emulator.checkMemArea address size = true ↔
      ∀ offset < size, emulator.Mapped (address.toNat + offset) := by
  simp only [checkMemArea, List.all_eq_true, List.mem_range, isMapped_iff]
  refine forall₂_congr fun offset inside => ?_
  have same : (address + UInt64.ofNat offset).toNat = address.toNat + offset := by
    rw [UInt64.toNat_add, UInt64.toNat_ofNat', Nat.mod_eq_of_lt (a := offset) (by omega),
      Nat.mod_eq_of_lt (by omega)]
  rw [same]

structure WriteResult (emulator next : Emulator) (address : UInt64) (bytes : List UInt8) :
    Prop where
  mapped : next.mapped = emulator.mapped
  registers : next.registers = emulator.registers
  written : ∀ (offset : Nat) (inside : offset < bytes.length),
    next.memory (address + UInt64.ofNat offset) = bytes[offset]
  kept : ∀ byte : UInt64, byte.toNat < address.toNat ∨
    address.toNat + bytes.length ≤ byte.toNat → next.memory byte = emulator.memory byte

theorem Emulator.ucMemWrite_result {emulator next : Emulator} {address : UInt64}
    {bytes : List UInt8} (noWrap : address.toNat + bytes.length ≤ 2 ^ 64)
    (written : emulator.ucMemWrite address bytes = .ok next) :
    WriteResult emulator next address bytes := by
  unfold ucMemWrite at written
  split at written
  · cases written
    refine ⟨rfl, rfl, ?_, ?_⟩
    · intro offset inside
      have back : (address + UInt64.ofNat offset - address).toNat = offset := by
        rw [UInt64.add_comm, UInt64.add_sub_cancel, UInt64.toNat_ofNat',
          Nat.mod_eq_of_lt (by omega)]
      simp only [back]
      exact List.getD_eq_getElem _ _ inside
    · intro byte outside
      refine List.getD_eq_default _ _ ?_
      rcases outside with below | behind
      · have small := byte.toNat_lt
        rw [UInt64.toNat_sub]
        omega
      · have reached : address ≤ byte := by
          rw [UInt64.le_iff_toNat_le]
          omega
        rw [UInt64.toNat_sub_of_le _ _ reached]
        omega
  · cases written

theorem Emulator.ucMemWrite_ok {emulator : Emulator} {address : UInt64} {bytes : List UInt8}
    (noWrap : address.toNat + bytes.length ≤ 2 ^ 64)
    (mapped : ∀ offset < bytes.length, emulator.Mapped (address.toNat + offset)) :
    ∃ next, emulator.ucMemWrite address bytes = .ok next ∧
      WriteResult emulator next address bytes := by
  have checked := (emulator.checkMemArea_iff noWrap).mpr mapped
  have written : emulator.ucMemWrite address bytes = .ok _ := if_pos checked
  exact ⟨_, written, ucMemWrite_result noWrap written⟩

end SbFuzz.Context
