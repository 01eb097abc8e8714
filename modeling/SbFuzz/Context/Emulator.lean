import SbFuzz.Memory.Pages

/-! The memory interface of Unicorn as the context loaders and the harnesses use
it: `uc_mem_map`, `uc_mem_regions`, `uc_mem_read` and `uc_mem_write`. -/

set_option autoImplicit false

namespace SbFuzz.Context

open Memory (Aligned)

inductive UcErr where
  | arg
  | map
  | readUnmapped
  | writeUnmapped
deriving DecidableEq, Repr

def ucProtRead : UInt32 := 1

def ucProtWrite : UInt32 := 2

def ucProtExec : UInt32 := 4

def ucProtAll : UInt32 := 7

/-- `uc_mem_region`, whose `end` is inclusive. -/
structure MemRegion where
  begin : UInt64
  stop : UInt64
  perms : UInt32
  nonempty : begin ≤ stop
  aligned : Aligned begin.toNat
  stopAligned : Aligned (stop.toNat + 1)

/-- `mapped_blocks`, kept in the order of their addresses. -/
structure MappedBlocks where
  blocks : List MemRegion
  ordered : blocks.Pairwise fun lower upper => lower.stop < upper.begin

/-- An engine: its mapped blocks, the bytes behind them and the values that
`uc_reg_write` was last given. -/
structure Emulator where
  mapped : MappedBlocks
  memory : UInt64 → UInt8
  registers : Nat → UInt64

/-- The engine right after `uc_open`. -/
def Emulator.opened : Emulator where
  mapped := ⟨[], List.Pairwise.nil⟩
  memory := fun _ => 0
  registers := fun _ => 0

/-- `memory_overlap`. The binary search of `bsearch_mapped_blocks` ends at the
first block that does not end before the address. -/
def memoryOverlap (blocks : List MemRegion) (address size : UInt64) : Bool :=
  match blocks.find? fun block => !(block.stop < address) with
  | some block => address + size - 1 ≥ block.begin
  | none => false

/-- The insertion of `mem_map`, at the place that `bsearch_mapped_blocks` finds. -/
def insertBlock (block : MemRegion) : List MemRegion → List MemRegion
  | [] => [block]
  | head :: rest =>
      if head.stop < block.begin then head :: insertBlock block rest else block :: head :: rest

theorem mem_insertBlock {block other : MemRegion} {blocks : List MemRegion} :
    other ∈ insertBlock block blocks ↔ other = block ∨ other ∈ blocks := by
  induction blocks with
  | nil => simp [insertBlock]
  | cons head rest ih =>
      simp only [insertBlock]
      split
      · simp only [List.mem_cons, ih]
        exact or_left_comm
      · simp only [List.mem_cons]

/-- Without an overlap the new block fits in where it is inserted. -/
theorem insertBlock_ordered {block : MemRegion} {blocks : List MemRegion} {size : UInt64}
    (ordered : blocks.Pairwise fun lower upper => lower.stop < upper.begin)
    (last : block.begin + size - 1 = block.stop)
    (apart : memoryOverlap blocks block.begin size = false) :
    (insertBlock block blocks).Pairwise fun lower upper => lower.stop < upper.begin := by
  induction blocks with
  | nil => simp [insertBlock]
  | cons head rest ih =>
      obtain ⟨headFirst, restOrdered⟩ := List.pairwise_cons.mp ordered
      simp only [insertBlock]
      split
      · next before =>
        have restApart : memoryOverlap rest block.begin size = false := by
          simpa [memoryOverlap, before] using apart
        refine List.pairwise_cons.mpr ⟨?_, ih restOrdered restApart⟩
        intro other member
        rcases mem_insertBlock.mp member with rfl | old
        · exact before
        · exact headFirst other old
      · next notBefore =>
        have headAfter : block.stop < head.begin := by
          simpa [memoryOverlap, notBefore, last] using apart
        refine List.pairwise_cons.mpr ⟨?_, ordered⟩
        intro other member
        rcases List.mem_cons.mp member with rfl | later
        · exact headAfter
        · have headStops : block.stop < head.stop := UInt64.lt_of_lt_of_le headAfter head.nonempty
          exact UInt64.lt_trans headStops (headFirst other later)

theorem sub_one_toNat {word : UInt64} (positive : word ≠ 0) :
    (word - 1).toNat = word.toNat - 1 := by
  have nonzero : 1 ≤ word := by
    rw [UInt64.le_iff_toNat_le]
    have : word.toNat ≠ 0 := fun zero => positive (UInt64.toNat_inj.mp zero)
    exact Nat.one_le_iff_ne_zero.mpr this
  rw [UInt64.toNat_sub_of_le _ _ nonzero]
  rfl

theorem rangeStop_toNat {address size : UInt64} (positive : size ≠ 0)
    (noWrap : address ≤ address + size - 1) :
    (address + size - 1).toNat + 1 = address.toNat + size.toNat := by
  have grouped : address + size - 1 = address + (size - 1) := by
    rw [UInt64.sub_eq_add_neg, UInt64.sub_eq_add_neg, UInt64.add_assoc]
  have sizePositive : size.toNat ≠ 0 := fun zero => positive (UInt64.toNat_inj.mp zero)
  have small := size.toNat_lt
  have addressSmall := address.toNat_lt
  rw [grouped, UInt64.le_iff_toNat_le, UInt64.toNat_add, sub_one_toNat positive] at noWrap
  rw [grouped, UInt64.toNat_add, sub_one_toNat positive]
  omega

/-- The block of a range that passes `mem_map_check`. -/
def MemRegion.ofRange (address size : UInt64) (perms : UInt32) (positive : size ≠ 0)
    (noWrap : address ≤ address + size - 1) (aligned : address &&& 0xfff = 0)
    (sizeAligned : size &&& 0xfff = 0) : MemRegion where
  begin := address
  stop := address + size - 1
  perms
  nonempty := noWrap
  aligned := (Memory.and_pageMask_eq_zero_iff address).mp aligned
  stopAligned := by
    rw [rangeStop_toNat positive noWrap]
    have first := (Memory.and_pageMask_eq_zero_iff address).mp aligned
    have second := (Memory.and_pageMask_eq_zero_iff size).mp sizeAligned
    unfold Aligned Memory.pageSize at first second ⊢
    omega

/-- `uc_mem_map`: the checks of `mem_map_check`, then a block of zeros. -/
def Emulator.ucMemMap (emulator : Emulator) (address size : UInt64) (perms : UInt32) :
    Except UcErr Emulator :=
  if positive : size = 0 then .error .arg
  else if noWrap : address + size - 1 < address then .error .arg
  else if aligned : address &&& 0xfff ≠ 0 then .error .arg
  else if sizeAligned : size &&& 0xfff ≠ 0 then .error .arg
  else if perms &&& ~~~ucProtAll ≠ 0 then .error .arg
  else if overlap : memoryOverlap emulator.mapped.blocks address size then .error .map
  else
    let block := MemRegion.ofRange address size perms positive (UInt64.not_lt.mp noWrap)
      (not_not.mp aligned) (not_not.mp sizeAligned)
    .ok { emulator with
      mapped := ⟨insertBlock block emulator.mapped.blocks,
        insertBlock_ordered emulator.mapped.ordered rfl (Bool.not_eq_true _ ▸ overlap)⟩
      memory := fun byte =>
        if address ≤ byte ∧ byte ≤ address + size - 1 then 0 else emulator.memory byte }

def Emulator.ucMemRegions (emulator : Emulator) : List MemRegion := emulator.mapped.blocks

def Emulator.isMapped (emulator : Emulator) (address : UInt64) : Bool :=
  emulator.mapped.blocks.any fun block => block.begin ≤ address ∧ address ≤ block.stop

def Emulator.checkMemArea (emulator : Emulator) (address : UInt64) (size : Nat) : Bool :=
  (List.range size).all fun offset => emulator.isMapped (address + UInt64.ofNat offset)

/-- `uc_mem_read`, for sizes up to `INT_MAX`. -/
def Emulator.ucMemRead (emulator : Emulator) (address : UInt64) (size : Nat) :
    Except UcErr (List UInt8) :=
  if emulator.checkMemArea address size then
    .ok ((List.range size).map fun offset => emulator.memory (address + UInt64.ofNat offset))
  else .error .readUnmapped

/-- `uc_mem_write`, for sizes up to `INT_MAX`. -/
def Emulator.ucMemWrite (emulator : Emulator) (address : UInt64) (bytes : List UInt8) :
    Except UcErr Emulator :=
  if emulator.checkMemArea address bytes.length then
    .ok { emulator with
      memory := fun byte => bytes.getD (byte - address).toNat (emulator.memory byte) }
  else .error .writeUnmapped

def Emulator.ucRegWrite (emulator : Emulator) (regid : Nat) (value : UInt64) : Emulator :=
  { emulator with
    registers := fun other => if other = regid then value else emulator.registers other }

end SbFuzz.Context
