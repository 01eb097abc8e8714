import Mathlib.Data.List.Pairwise
import SbFuzz.Context.EmulatorProperties
import SbFuzz.SandboxFuzzer.AflUnicornEngine

/-! Which parts of a segment the engine asks Unicorn to map, and when they are
free: a segment fits if it stays clear of all mapped blocks, or meets just one
of them, in its start or in its end. -/

set_option autoImplicit false

namespace SbFuzz.SandboxFuzzer

open Context
open Memory (Aligned pageDown pageUp)

/-! ## Blocks -/

def Contains (block : MemRegion) (address : Nat) : Prop :=
  block.first ≤ address ∧ address < block.limit

abbrev Ordered (blocks : List MemRegion) : Prop :=
  blocks.Pairwise fun lower upper => lower.limit ≤ upper.first

theorem pairwise_either {Item : Type} {Related : Item → Item → Prop} {items : List Item}
    (pairwise : items.Pairwise Related) {left right : Item} (leftMember : left ∈ items)
    (rightMember : right ∈ items) (distinct : left ≠ right) :
    Related left right ∨ Related right left := by
  have symmetric : Std.Symm fun first second => Related first second ∨ Related second first :=
    ⟨fun _ _ => Or.symm⟩
  have either : items.Pairwise fun first second =>
    Related first second ∨ Related second first := pairwise.imp Or.inl
  exact either.forall leftMember rightMember distinct

theorem Ordered.apart {blocks : List MemRegion} (ordered : Ordered blocks)
    {left right : MemRegion} (leftMember : left ∈ blocks) (rightMember : right ∈ blocks)
    (distinct : left ≠ right) : left.limit ≤ right.first ∨ right.limit ≤ left.first :=
  pairwise_either ordered leftMember rightMember distinct

/-- The segment `[start, stop)` stays clear of the mapped blocks, or a single
block is in its way and has its start or its end inside. -/
def Fits (blocks : List MemRegion) (start stop : Nat) : Prop :=
  (∀ block ∈ blocks, ¬ block.Meets (pageDown start) (pageUp stop)) ∨
  ∃ block ∈ blocks, (Contains block start ∨ Contains block stop) ∧
    block.Meets (pageDown start) (pageUp stop) ∧
    ∀ other ∈ blocks, other.Meets (pageDown start) (pageUp stop) → other = block

/-! ## The loop over the regions -/

inductive OverlapSpec (blocks : List MemRegion) (start stop : Nat) : Overlap → Prop where
  | none : (∀ block ∈ blocks, ¬ Contains block start ∧ ¬ Contains block stop) →
      OverlapSpec blocks start stop .none
  | pass {block} : block ∈ blocks → Contains block start → Contains block stop →
      OverlapSpec blocks start stop .pass
  | overlapStart {block memEnd} : block ∈ blocks → Contains block start →
      block.limit ≤ stop → memEnd.toNat = block.limit →
      OverlapSpec blocks start stop (.overlapStart memEnd)
  | overlapEnd {block memStart} : block ∈ blocks → Contains block stop →
      (∀ other ∈ blocks, ¬ Contains other start) → memStart.toNat = block.first →
      OverlapSpec blocks start stop (.overlapEnd memStart)

theorem memEnd_toNat {block : MemRegion} (low : block.limit < 2 ^ 64) :
    (block.stop + 1).toNat = block.limit := by
  rw [UInt64.toNat_add]
  exact Nat.mod_eq_of_lt low

theorem findOverlap_spec {segStart segEnd : UInt64} {blocks : List MemRegion}
    (nonempty : segStart.toNat < segEnd.toNat) (ordered : Ordered blocks)
    (low : ∀ block ∈ blocks, block.limit < 2 ^ 64) :
    OverlapSpec blocks segStart.toNat segEnd.toNat (findOverlap segStart segEnd blocks) := by
  induction blocks with
  | nil => exact .none (by simp)
  | cons head rest ih =>
      obtain ⟨headFirst, restOrdered⟩ := List.pairwise_cons.mp ordered
      have memEnd := memEnd_toNat (low head List.mem_cons_self)
      have first : head.begin.toNat = head.first := rfl
      simp only [findOverlap, ge_iff_le, UInt64.le_iff_toNat_le, UInt64.lt_iff_toNat_lt, memEnd,
        first]
      split
      · next inside =>
        exact .pass List.mem_cons_self ⟨inside.1, by omega⟩ ⟨by omega, inside.2⟩
      · next notInside =>
        split
        · next starts =>
          refine .overlapStart List.mem_cons_self starts ?_ memEnd
          by_contra beyond
          exact notInside ⟨starts.1, by omega⟩
        · next notStarts =>
          split
          · next ends =>
            refine .overlapEnd List.mem_cons_self ends ?_ first
            intro other member
            rcases List.mem_cons.mp member with rfl | later
            · exact notStarts
            · intro contains
              have behind := headFirst other later
              have reached := contains.1
              have before := ends.2
              omega
          · next notEnds =>
            have headClear : ¬ Contains head segStart.toNat ∧ ¬ Contains head segEnd.toNat :=
              ⟨notStarts, notEnds⟩
            have spec := ih restOrdered fun block member =>
              low block (List.mem_cons_of_mem _ member)
            generalize findOverlap segStart segEnd rest = overlap at spec ⊢
            cases spec with
            | none clear =>
                refine .none fun block member => ?_
                rcases List.mem_cons.mp member with rfl | later
                · exact headClear
                · exact clear block later
            | pass member starts ends => exact .pass (List.mem_cons_of_mem _ member) starts ends
            | overlapStart member starts below same =>
                exact .overlapStart (List.mem_cons_of_mem _ member) starts below same
            | overlapEnd member ends clear same =>
                refine .overlapEnd (List.mem_cons_of_mem _ member) ends ?_ same
                intro other otherMember
                rcases List.mem_cons.mp otherMember with rfl | later
                · exact headClear.1
                · exact clear other later

/-- The range that is left to map. -/
def Overlap.range (start stop : Nat) : Overlap → Nat × Nat
  | .none => (pageDown start, pageUp stop)
  | .pass => (0, 0)
  | .overlapStart memEnd => (memEnd.toNat, pageUp stop)
  | .overlapEnd memStart => (pageDown start, memStart.toNat)

section

variable {blocks : List MemRegion} {block : MemRegion} {start stop : Nat}

theorem fits_of_contains_both (ordered : Ordered blocks) (member : block ∈ blocks)
    (starts : Contains block start) (ends : Contains block stop) (nonempty : start < stop) :
    Fits blocks start stop := by
  have lowStart := Memory.pageDown_le start
  have highStop := Memory.le_pageUp stop
  have coversLow : block.first ≤ pageDown start :=
    (Memory.le_pageDown_iff block.aligned).mpr starts.1
  have coversHigh : pageUp stop ≤ block.limit :=
    (Memory.pageUp_le_iff block.stopAligned).mpr ends.2.le
  refine .inr ⟨block, member, .inl starts, ⟨by omega, by omega⟩, fun other otherMember meets => ?_⟩
  by_contra distinct
  have left := meets.1
  have right := meets.2
  rcases ordered.apart otherMember member distinct with before | behind <;> omega

theorem free_iff_fits_of_start (ordered : Ordered blocks) (member : block ∈ blocks)
    (starts : Contains block start) (below : block.limit ≤ stop) :
    (block.limit < pageUp stop → ∀ other ∈ blocks, ¬ other.Meets block.limit (pageUp stop)) ↔
      Fits blocks start stop := by
  have lowStart := Memory.pageDown_le start
  have highStop := Memory.le_pageUp stop
  have startsLow := starts.1
  have startsHigh := starts.2
  have covers : block.first ≤ pageDown start :=
    (Memory.le_pageDown_iff block.aligned).mpr startsLow
  have blockMeets : block.Meets (pageDown start) (pageUp stop) := ⟨by omega, by omega⟩
  constructor
  · intro free
    refine .inr ⟨block, member, .inl starts, blockMeets, fun other otherMember meets => ?_⟩
    by_contra distinct
    have left := meets.1
    have right := meets.2
    rcases ordered.apart otherMember member distinct with before | behind
    · omega
    · have otherFull := other.first_lt_limit
      exact free (by omega) other otherMember ⟨left, by omega⟩
  · rintro (free | ⟨single, _, _, _, unique⟩) _ other otherMember meets
    · exact free block member blockMeets
    · have left := meets.1
      have right := meets.2
      have isSingle := unique other otherMember ⟨left, by omega⟩
      have blockIsSingle := unique block member blockMeets
      rw [isSingle, ← blockIsSingle] at right
      omega

theorem free_iff_fits_of_end (ordered : Ordered blocks) (member : block ∈ blocks)
    (ends : Contains block stop) (clear : ∀ other ∈ blocks, ¬ Contains other start)
    (nonempty : start < stop) :
    (pageDown start < block.first → ∀ other ∈ blocks,
      ¬ other.Meets (pageDown start) block.first) ↔ Fits blocks start stop := by
  have lowStart := Memory.pageDown_le start
  have highStop := Memory.le_pageUp stop
  have endsLow := ends.1
  have endsHigh := ends.2
  have covers : pageUp stop ≤ block.limit :=
    (Memory.pageUp_le_iff block.stopAligned).mpr endsHigh.le
  have before : start < block.first := by
    by_contra inside
    exact clear block member ⟨by omega, by omega⟩
  constructor
  · intro free
    have others : ∀ other ∈ blocks, other.Meets (pageDown start) (pageUp stop) →
        other = block := by
      intro other otherMember meets
      by_contra distinct
      have left := meets.1
      have right := meets.2
      rcases ordered.apart otherMember member distinct with below | behind
      · have otherFull := other.first_lt_limit
        exact free (by omega) other otherMember ⟨by omega, right⟩
      · omega
    by_cases meets : block.Meets (pageDown start) (pageUp stop)
    · exact .inr ⟨block, member, .inr ends, meets, others⟩
    · refine .inl fun other otherMember otherMeets => meets ?_
      exact others other otherMember otherMeets ▸ otherMeets
  · intro fits _ other otherMember meets
    have left := meets.1
    have right := meets.2
    rcases fits with free | ⟨single, singleMember, touched, _, unique⟩
    · exact free other otherMember ⟨by omega, right⟩
    · have singleEnds := touched.resolve_left (clear single singleMember)
      have isSingle := unique other otherMember ⟨by omega, right⟩
      have blockIsSingle : single = block := by
        by_contra distinct
        have singleLow := singleEnds.1
        have singleHigh := singleEnds.2
        rcases ordered.apart singleMember member distinct with below | behind <;> omega
      rw [isSingle, blockIsSingle] at left
      omega

end

/-- What is left to map is free exactly when the segment fits. -/
theorem OverlapSpec.free_iff_fits {blocks : List MemRegion} {start stop : Nat}
    {overlap : Overlap} (spec : OverlapSpec blocks start stop overlap) (ordered : Ordered blocks)
    (nonempty : start < stop) :
    ((overlap.range start stop).1 < (overlap.range start stop).2 → ∀ block ∈ blocks,
      ¬ block.Meets (overlap.range start stop).1 (overlap.range start stop).2) ↔
    Fits blocks start stop := by
  cases spec with
  | none clear =>
      have lowStart := Memory.pageDown_le start
      have highStop := Memory.le_pageUp stop
      constructor
      · exact fun free => .inl (free (by simp only [Overlap.range]; omega))
      · rintro (free | ⟨block, member, touched, _⟩)
        · exact fun _ => free
        · rcases touched with starts | ends
          · exact absurd starts (clear block member).1
          · exact absurd ends (clear block member).2
  | pass member starts ends =>
      exact iff_of_true (by simp [Overlap.range])
        (fits_of_contains_both ordered member starts ends nonempty)
  | overlapStart member starts below same =>
      simp only [Overlap.range, same]
      exact free_iff_fits_of_start ordered member starts below
  | overlapEnd member ends clear same =>
      simp only [Overlap.range, same]
      exact free_iff_fits_of_end ordered member ends clear nonempty

/-- What is left to map completes the pages of the segment. -/
theorem OverlapSpec.covers {blocks : List MemRegion} {start stop : Nat} {overlap : Overlap}
    (spec : OverlapSpec blocks start stop overlap) {address : Nat}
    (above : pageDown start ≤ address) (below : address < pageUp stop) :
    (∃ block ∈ blocks, Contains block address) ∨
      ((overlap.range start stop).1 ≤ address ∧ address < (overlap.range start stop).2) := by
  cases spec with
  | none _ => exact .inr ⟨above, below⟩
  | @pass block member starts ends =>
      have first := (Memory.le_pageDown_iff block.aligned).mpr starts.1
      have limit := (Memory.pageUp_le_iff block.stopAligned).mpr ends.2.le
      exact .inl ⟨block, member, first.trans above, below.trans_le limit⟩
  | @overlapStart block memEnd member starts _ same =>
      have first := (Memory.le_pageDown_iff block.aligned).mpr starts.1
      by_cases inside : address < block.limit
      · exact .inl ⟨block, member, first.trans above, inside⟩
      · exact .inr ⟨by simp only [Overlap.range, same]; omega, below⟩
  | @overlapEnd block memStart member ends _ same =>
      have limit := (Memory.pageUp_le_iff block.stopAligned).mpr ends.2.le
      by_cases inside : block.first ≤ address
      · exact .inl ⟨block, member, inside, below.trans_le limit⟩
      · exact .inr ⟨above, by simp only [Overlap.range, same]; omega⟩

/-! ## One call of `uc_mem_map` -/

theorem alignPageDown_toNat (x : UInt64) : (alignPageDown x).toNat = pageDown x.toNat :=
  Memory.toNat_and_not_pageMask x

theorem alignPageUp_toNat {x : UInt64} (noWrap : x.toNat + 0xfff < 2 ^ 64) :
    (alignPageUp x).toNat = pageUp x.toNat := by
  have shifted : x + unicornPageSize - 1 = x + 0xfff := by
    rw [UInt64.sub_eq_add_neg, UInt64.add_assoc]
    rfl
  have value : (x + 0xfff).toNat = x.toNat + 0xfff := by
    rw [UInt64.toNat_add]
    exact Nat.mod_eq_of_lt noWrap
  rw [alignPageUp, shifted, pageUp, Memory.pageSize, ← value]
  exact Memory.toNat_and_not_pageMask _

def Ask.Free (ask : Ask) : Prop :=
  ∀ block ∈ ask.mapped, ¬ block.Meets ask.address.toNat (ask.address.toNat + ask.size.toNat)

/-- The outcome of `_map_segment` for the range `[low, high)` of whole pages. -/
inductive MapOutcome (load : EngineLoad) (low high : Nat) : EngineLoad → Prop where
  | nothing : high ≤ low → MapOutcome load low high load
  | mapped {emulator address size} : low < high → address.toNat = low →
      address.toNat + size.toNat = high →
      (∀ block ∈ load.emulator.mapped.blocks, ¬ block.Meets low high) →
      MapResult load.emulator emulator address size →
      MapOutcome load low high { load with
        emulator, asked := load.asked ++ [⟨load.emulator.ucMemRegions, address, size⟩] }
  | refused {error address size} : low < high → address.toNat = low →
      address.toNat + size.toNat = high →
      (∃ block ∈ load.emulator.mapped.blocks, block.Meets low high) →
      MapOutcome load low high { load with
        asked := load.asked ++ [⟨load.emulator.ucMemRegions, address, size⟩]
        failure := some (.uc error) }

theorem segPerms_valid (permissions : Permissions) :
    segPerms permissions &&& ~~~ucProtAll = 0 := by
  unfold segPerms
  cases permissions.r <;> cases permissions.w <;> cases permissions.x <;> decide

theorem EngineLoad.mapSegment_outcome (load : EngineLoad) (address : UInt64) {stop : UInt64}
    (permissions : Permissions) (noWrap : stop.toNat + 0xfff < 2 ^ 64) :
    MapOutcome load (pageDown address.toNat) (pageUp stop.toNat)
      (load.mapSegment address (stop - address) (segPerms permissions)) := by
  have stops : address + (stop - address) = stop := by
    rw [UInt64.add_comm, UInt64.sub_add_cancel]
  have low := alignPageDown_toNat address
  have high := alignPageUp_toNat noWrap
  simp only [EngineLoad.mapSegment, stops]
  rw [← low, ← high]
  split
  · next less =>
    have less := UInt64.lt_iff_toNat_lt.mp less
    have size : (alignPageUp stop - alignPageDown address).toNat =
        (alignPageUp stop).toNat - (alignPageDown address).toNat :=
      UInt64.toNat_sub_of_le _ _ (UInt64.le_iff_toNat_le.mpr less.le)
    have total : (alignPageDown address).toNat +
        (alignPageUp stop - alignPageDown address).toNat = (alignPageUp stop).toNat := by
      rw [size]
      omega
    have mappable : Mappable load.emulator (alignPageDown address)
        (alignPageUp stop - alignPageDown address) (segPerms permissions) ↔
          ∀ block ∈ load.emulator.mapped.blocks,
            ¬ block.Meets (alignPageDown address).toNat (alignPageUp stop).toNat := by
      rw [← total]
      refine ⟨Mappable.disjoint, fun free => ⟨?_, ?_, ?_, ?_, segPerms_valid permissions, free⟩⟩
      · intro zero
        rw [zero] at size
        change 0 = _ at size
        omega
      · rw [total]
        exact (alignPageUp stop).toNat_lt.le
      · rw [low]
        exact Memory.aligned_pageDown _
      · have first : Aligned (alignPageDown address).toNat := low ▸ Memory.aligned_pageDown _
        have last : Aligned (alignPageUp stop).toNat := high ▸ Memory.aligned_pageUp _
        rw [size]
        unfold Aligned Memory.pageSize at first last ⊢
        omega
    have isOk := load.emulator.ucMemMap_isOk_iff (alignPageDown address)
      (alignPageUp stop - alignPageDown address) (segPerms permissions)
    cases result : load.emulator.ucMemMap (alignPageDown address)
        (alignPageUp stop - alignPageDown address) (segPerms permissions) with
    | ok emulator =>
        exact .mapped less rfl total (mappable.mp (isOk.mp ⟨emulator, result⟩))
          (Emulator.ucMemMap_result result)
    | error error =>
        refine .refused less rfl total ?_
        by_contra free
        push Not at free
        obtain ⟨emulator, mapped⟩ := isOk.mpr (mappable.mpr free)
        rw [result] at mapped
        cases mapped
  · next notLess =>
    exact .nothing (UInt64.le_iff_toNat_le.mp (UInt64.not_lt.mp notLess))

/-- No block ends at the very end of the address space. -/
def Bounded (emulator : Emulator) : Prop :=
  ∀ block ∈ emulator.mapped.blocks, block.limit < 2 ^ 64

theorem EngineLoad.mapOverlapping_outcome (load : EngineLoad) (segStart segEnd : UInt64)
    (permissions : Permissions) (nonempty : segStart.toNat < segEnd.toNat)
    (noWrap : segEnd.toNat + 0xfff < 2 ^ 64) (bounded : Bounded load.emulator) :
    ∃ overlap, OverlapSpec load.emulator.mapped.blocks segStart.toNat segEnd.toNat overlap ∧
      MapOutcome load (overlap.range segStart.toNat segEnd.toNat).1
        (overlap.range segStart.toNat segEnd.toNat).2
        (load.mapOverlapping segStart segEnd (segPerms permissions)) := by
  have spec := findOverlap_spec nonempty load.emulator.mapped.ordered_limit bounded
  refine ⟨_, spec, ?_⟩
  unfold EngineLoad.mapOverlapping Emulator.ucMemRegions
  generalize findOverlap segStart segEnd load.emulator.mapped.blocks = overlap at spec ⊢
  cases spec with
  | none _ => exact load.mapSegment_outcome segStart permissions noWrap
  | pass _ _ _ => exact .nothing le_rfl
  | @overlapStart block memEnd member _ _ same =>
      have outcome := load.mapSegment_outcome memEnd permissions noWrap
      have aligned : Aligned memEnd.toNat := same ▸ block.stopAligned
      rwa [aligned.pageDown] at outcome
  | @overlapEnd block memStart member _ _ same =>
      have room : memStart.toNat + 0xfff < 2 ^ 64 := by
        have full := block.first_lt_limit
        have below := bounded block member
        have first : Aligned block.first := block.aligned
        have limit : Aligned block.limit := block.stopAligned
        unfold Aligned Memory.pageSize at first limit
        omega
      have outcome := load.mapSegment_outcome segStart permissions room
      have aligned : Aligned memStart.toNat := same ▸ block.aligned
      rwa [aligned.pageUp] at outcome

/-! ## One round -/

/-- The segments that the engine is meant for. -/
structure ValidSegment (segment : SegInfo) : Prop where
  nonempty : segment.start < segment.stop
  small : segment.stop - segment.start ≤ 1024 * 1024 * 1024
  noWrap : segment.stop + 0xfff < 2 ^ 64

theorem ValidSegment.words {segment : SegInfo} (valid : ValidSegment segment) :
    (UInt64.ofNat segment.start).toNat = segment.start ∧
      (UInt64.ofNat segment.stop).toNat = segment.stop := by
  obtain ⟨nonempty, _, noWrap⟩ := valid
  have stopWord : segment.stop < 2 ^ 64 := by omega
  exact ⟨UInt64.toNat_ofNat_of_lt' (nonempty.trans stopWord), UInt64.toNat_ofNat_of_lt' stopWord⟩

theorem skipped_iff {segment : SegInfo} (inOrder : segment.start ≤ segment.stop)
    (bounded : segment.stop < 2 ^ 64) :
    UInt64.ofNat segment.stop - UInt64.ofNat segment.start > maxAllowableSegSize ↔
      segment.stop - segment.start > 1024 * 1024 * 1024 := by
  have startValue := UInt64.toNat_ofNat_of_lt' (inOrder.trans_lt bounded)
  have stopValue := UInt64.toNat_ofNat_of_lt' bounded
  have words : UInt64.ofNat segment.start ≤ UInt64.ofNat segment.stop := by
    rw [UInt64.le_iff_toNat_le, startValue, stopValue]
    exact inOrder
  have limit : maxAllowableSegSize.toNat = 1024 * 1024 * 1024 := by decide
  rw [gt_iff_lt, UInt64.lt_iff_toNat_lt, UInt64.toNat_sub_of_le _ _ words, startValue, stopValue,
    limit]

theorem EngineLoad.segment_accepted (uncompress : Uncompress) (files : Files)
    {load mapped : EngineLoad} {segment : SegInfo} (valid : ValidSegment segment)
    (running : load.failure = none)
    (mapping : load.mapOverlapping (UInt64.ofNat segment.start) (UInt64.ofNat segment.stop)
      (segPerms segment.permissions) = mapped) :
    load.segment uncompress files segment =
      if mapped.failure.isSome then mapped
      else mapped.loadContent uncompress files (UInt64.ofNat segment.start)
        (UInt64.ofNat segment.stop) segment.contentFile := by
  obtain ⟨nonempty, small, noWrap⟩ := valid
  have acceptable : ¬ UInt64.ofNat segment.stop - UInt64.ofNat segment.start >
      maxAllowableSegSize := by
    rw [skipped_iff nonempty.le (by omega)]
    omega
  simp only [EngineLoad.segment, running, Option.isSome_none, Bool.false_eq_true, if_false,
    acceptable, mapping]

structure Grows (before after : EngineLoad) : Prop where
  asked : ∀ ask ∈ before.asked, ask ∈ after.asked
  mapped : ∀ address, before.emulator.Mapped address → after.emulator.Mapped address
  bounded : Bounded before.emulator → Bounded after.emulator

theorem Grows.refl (load : EngineLoad) : Grows load load :=
  ⟨fun _ member => member, fun _ mapped => mapped, id⟩

theorem Grows.trans {first second third : EngineLoad} (left : Grows first second)
    (right : Grows second third) : Grows first third :=
  ⟨fun ask member => right.asked ask (left.asked ask member),
    fun address mapped => right.mapped address (left.mapped address mapped),
    fun bounded => right.bounded (left.bounded bounded)⟩

theorem MapOutcome.grows {load after : EngineLoad} {low high : Nat}
    (outcome : MapOutcome load low high after) (inRange : high < 2 ^ 64) : Grows load after := by
  cases outcome with
  | nothing _ => exact Grows.refl load
  | mapped _ _ total _ result =>
      refine ⟨fun ask member => List.mem_append_left _ member,
        fun address was => (result.mapped_iff address).mpr (.inl was),
        fun bounded block member => ?_⟩
      rcases result.blocks block member with old | ⟨_, limit⟩
      · exact bounded block old
      · rw [limit, total]
        exact inRange
  | refused _ _ _ _ =>
      exact ⟨fun ask member => List.mem_append_left _ member, fun _ was => was, id⟩

def contentOf (uncompress : Uncompress) (files : Files) (contentFile : String) (room : Nat) :
    Except EngineFailure (List UInt8) :=
  if contentFile.length > 0 then
    match files contentFile with
    | none => .error (.noContextFile contentFile)
    | some compr =>
        match uncompress.decode compr room with
        | none => .error .uncompress
        | some dcompr => .ok dcompr
  else .ok []

theorem contentOf_error {uncompress : Uncompress} {files : Files} {contentFile : String}
    {room : Nat} {failure : EngineFailure}
    (content : contentOf uncompress files contentFile room = .error failure) (error : UcErr) :
    failure ≠ .uc error := by
  unfold contentOf at content
  split at content
  · split at content
    · cases content
      simp
    · split at content
      · cases content
        simp
      · cases content
  · cases content

inductive ContentOutcome (load : EngineLoad) (segStart : UInt64) :
    Except EngineFailure (List UInt8) → EngineLoad → Prop where
  | failed (failure) :
      ContentOutcome load segStart (.error failure) { load with failure := some failure }
  | written {data emulator} : WriteResult load.emulator emulator segStart data →
      ContentOutcome load segStart (.ok data) { load with emulator }

theorem EngineLoad.loadContent_outcome (uncompress : Uncompress) (files : Files)
    (load : EngineLoad) (segStart segEnd : UInt64) (contentFile : String)
    (inOrder : segStart.toNat ≤ segEnd.toNat)
    (mapped : ∀ address, segStart.toNat ≤ address → address < segEnd.toNat →
      load.emulator.Mapped address) :
    ContentOutcome load segStart
      (contentOf uncompress files contentFile (segEnd.toNat - segStart.toNat))
      (load.loadContent uncompress files segStart segEnd contentFile) := by
  have size : (segEnd - segStart).toNat = segEnd.toNat - segStart.toNat :=
    UInt64.toNat_sub_of_le _ _ (UInt64.le_iff_toNat_le.mpr inOrder)
  have last := segEnd.toNat_lt
  unfold EngineLoad.loadContent contentOf
  split
  · cases stored : files contentFile with
    | none => exact .failed _
    | some compr =>
        simp only [size]
        cases decoded : uncompress.decode compr (segEnd.toNat - segStart.toNat) with
        | none => exact .failed _
        | some dcompr =>
            have room := uncompress.bounded _ _ _ decoded
            obtain ⟨emulator, written, result⟩ := load.emulator.ucMemWrite_ok
              (by omega : segStart.toNat + dcompr.length ≤ 2 ^ 64)
              fun offset inside => mapped _ (Nat.le_add_right _ _) (by omega)
            simp only [written]
            exact .written result
  · have nothing : WriteResult load.emulator load.emulator segStart [] :=
      ⟨rfl, rfl, fun _ inside => absurd inside (Nat.not_lt_zero _), fun _ _ => rfl⟩
    exact .written nothing

theorem ContentOutcome.grows {load after : EngineLoad} {segStart : UInt64}
    {content : Except EngineFailure (List UInt8)}
    (outcome : ContentOutcome load segStart content after) : Grows load after := by
  cases outcome with
  | failed failure => exact ⟨fun _ member => member, fun _ was => was, id⟩
  | @written data emulator result =>
      refine ⟨fun _ member => member, ?_, ?_⟩
      · rintro address ⟨block, member, inside⟩
        exact ⟨block, by rw [result.mapped]; exact member, inside⟩
      · intro bounded block member
        change block ∈ emulator.mapped.blocks at member
        rw [result.mapped] at member
        exact bounded block member

theorem ContentOutcome.asked {load after : EngineLoad} {segStart : UInt64}
    {content : Except EngineFailure (List UInt8)}
    (outcome : ContentOutcome load segStart content after) : after.asked = load.asked := by
  cases outcome <;> rfl

theorem ContentOutcome.noUcError {load after : EngineLoad} {segStart : UInt64}
    {content : Except EngineFailure (List UInt8)}
    (outcome : ContentOutcome load segStart content after)
    (failures : ∀ failure, content = .error failure → ∀ error, failure ≠ .uc error)
    (running : load.failure = none) (error : UcErr) : after.failure ≠ some (.uc error) := by
  cases outcome with
  | failed failure => simpa using failures failure rfl error
  | written _ => simp [running]

structure FittingRound (load after : EngineLoad) (segment : SegInfo) : Prop where
  free : ∀ ask ∈ after.asked, ask ∈ load.asked ∨ ask.Free
  covered : ∀ address, pageDown segment.start ≤ address → address < pageUp segment.stop →
    after.emulator.Mapped address
  accepted : ∀ error, after.failure ≠ some (.uc error)

theorem OverlapSpec.range_lt {blocks : List MemRegion} {start stop : Nat} {overlap : Overlap}
    (spec : OverlapSpec blocks start stop overlap) (noWrap : stop + 0xfff < 2 ^ 64) :
    (overlap.range start stop).2 < 2 ^ 64 := by
  have top : pageUp stop < 2 ^ 64 := (Memory.pageDown_le _).trans_lt noWrap
  cases spec with
  | none _ => exact top
  | pass _ _ _ => exact Nat.two_pow_pos 64
  | overlapStart _ _ _ _ => exact top
  | overlapEnd _ _ _ _ => exact UInt64.toNat_lt _

theorem EngineLoad.segment_of_mapped (uncompress : Uncompress) (files : Files)
    {load mapped : EngineLoad} {segment : SegInfo} (valid : ValidSegment segment)
    (running : load.failure = none)
    (mapping : load.mapOverlapping (UInt64.ofNat segment.start) (UInt64.ofNat segment.stop)
      (segPerms segment.permissions) = mapped)
    (accepted : mapped.failure = none)
    (covered : ∀ address, pageDown segment.start ≤ address → address < pageUp segment.stop →
      mapped.emulator.Mapped address)
    (free : ∀ ask ∈ mapped.asked, ask ∈ load.asked ∨ ask.Free) :
    Grows mapped (load.segment uncompress files segment) ∧
      FittingRound load (load.segment uncompress files segment) segment := by
  obtain ⟨startValue, stopValue⟩ := valid.words
  have nonempty := valid.nonempty
  have inSegment : ∀ address, (UInt64.ofNat segment.start).toNat ≤ address →
      address < (UInt64.ofNat segment.stop).toNat → mapped.emulator.Mapped address := by
    intro address above below
    rw [startValue] at above
    rw [stopValue] at below
    exact covered address ((Memory.pageDown_le _).trans above)
      (below.trans_le (Memory.le_pageUp _))
  have written := mapped.loadContent_outcome uncompress files _ _ segment.contentFile
    (by omega) inSegment
  rw [EngineLoad.segment_accepted uncompress files valid running mapping, accepted]
  simp only [Option.isSome_none, Bool.false_eq_true, if_false]
  refine ⟨written.grows, written.asked ▸ free, fun address above below =>
    written.grows.mapped address (covered address above below), fun error => ?_⟩
  exact written.noUcError (fun _ => contentOf_error) accepted error

theorem EngineLoad.segment_round (uncompress : Uncompress) (files : Files) {load : EngineLoad}
    {segment : SegInfo} (valid : ValidSegment segment) (running : load.failure = none)
    (bounded : Bounded load.emulator) :
    Grows load (load.segment uncompress files segment) ∧
      (Fits load.emulator.mapped.blocks segment.start segment.stop →
        FittingRound load (load.segment uncompress files segment) segment) ∧
      (¬ Fits load.emulator.mapped.blocks segment.start segment.stop →
        ∃ ask ∈ (load.segment uncompress files segment).asked, ¬ ask.Free) := by
  obtain ⟨startValue, stopValue⟩ := valid.words
  have nonempty := valid.nonempty
  have noWrap := valid.noWrap
  obtain ⟨overlap, spec, outcome⟩ := load.mapOverlapping_outcome
    (UInt64.ofNat segment.start) (UInt64.ofNat segment.stop) segment.permissions
    (by rw [startValue, stopValue]; exact nonempty) (by rw [stopValue]; exact noWrap) bounded
  rw [startValue, stopValue] at spec outcome
  have fits := spec.free_iff_fits load.emulator.mapped.ordered_limit nonempty
  have grows := outcome.grows (spec.range_lt noWrap)
  have covers := fun address above below =>
    @OverlapSpec.covers _ _ _ _ spec address above below
  generalize mapping : load.mapOverlapping (UInt64.ofNat segment.start)
    (UInt64.ofNat segment.stop) (segPerms segment.permissions) = mapped at outcome grows
  cases outcome with
  | nothing empty =>
      have free : Fits load.emulator.mapped.blocks segment.start segment.stop :=
        fits.mp fun full => by omega
      have covered : ∀ address, pageDown segment.start ≤ address →
          address < pageUp segment.stop → load.emulator.Mapped address := by
        intro address above below
        rcases covers address above below with already | within
        · exact already
        · omega
      obtain ⟨growsOn, round⟩ := EngineLoad.segment_of_mapped uncompress files valid running
        mapping running covered fun ask member => .inl member
      exact ⟨growsOn, fun _ => round, fun bad => absurd free bad⟩
  | @mapped _ address size less low total isFree result =>
      have free : Fits load.emulator.mapped.blocks segment.start segment.stop :=
        fits.mp fun _ => isFree
      have covered := fun address above below =>
        (result.mapped_iff address).mpr ((covers address above below).imp_right fun within =>
          ⟨low ▸ within.1, total ▸ within.2⟩)
      have asksFree : ∀ ask ∈ load.asked ++ [⟨load.emulator.ucMemRegions, address, size⟩],
          ask ∈ load.asked ∨ ask.Free := by
        intro ask member
        rcases List.mem_append.mp member with old | new
        · exact .inl old
        · obtain rfl := List.mem_singleton.mp new
          refine .inr fun block present => ?_
          rw [total, low]
          exact isFree block present
      obtain ⟨growsOn, round⟩ := EngineLoad.segment_of_mapped uncompress files valid running
        mapping running covered asksFree
      exact ⟨grows.trans growsOn, fun _ => round, fun bad => absurd free bad⟩
  | refused less low total taken =>
      rw [EngineLoad.segment_accepted uncompress files valid running mapping]
      simp only [Option.isSome_some, if_true]
      obtain ⟨block, member, meets⟩ := taken
      have notFree : ¬ Fits load.emulator.mapped.blocks segment.start segment.stop :=
        fun free => fits.mpr free less block member meets
      refine ⟨grows, fun free => absurd free notFree, fun _ => ?_⟩
      refine ⟨_, List.mem_append_right _ List.mem_cons_self, fun askFree => ?_⟩
      have clear := askFree block member
      rw [total, low] at clear
      exact clear meets

/-! ## All rounds -/

section

variable (uncompress : Uncompress) (files : Files) (emulator : Emulator)

/-- Every segment that is reached fits the blocks mapped so far. -/
def AllFit (segmentList : List SegInfo) : Prop :=
  ∀ before segment after, segmentList = before ++ segment :: after →
    (mapSegments uncompress files emulator before).failure = none →
    Fits (mapSegments uncompress files emulator before).emulator.mapped.blocks
      segment.start segment.stop

/-- Unicorn is asked for free ranges only and refuses nothing, and when the
segments are loaded all their pages are mapped. -/
structure MapsApart (segmentList : List SegInfo) : Prop where
  free : ∀ ask ∈ (mapSegments uncompress files emulator segmentList).asked, ask.Free
  covered : (mapSegments uncompress files emulator segmentList).failure = none →
    ∀ segment ∈ segmentList, ∀ address, pageDown segment.start ≤ address →
      address < pageUp segment.stop →
      (mapSegments uncompress files emulator segmentList).emulator.Mapped address
  accepted : ∀ error,
    (mapSegments uncompress files emulator segmentList).failure ≠ some (.uc error)

theorem mapSegments_snoc (init : List SegInfo) (last : SegInfo) :
    mapSegments uncompress files emulator (init ++ [last]) =
      (mapSegments uncompress files emulator init).segment uncompress files last := by
  rw [mapSegments, List.foldl_append]
  rfl

variable {emulator}

theorem EngineLoad.segment_stopped {load : EngineLoad} {failure : EngineFailure}
    (stopped : load.failure = some failure) (segment : SegInfo) :
    load.segment uncompress files segment = load := by
  simp [EngineLoad.segment, stopped]

theorem EngineLoad.segment_grows {load : EngineLoad} {segment : SegInfo}
    (valid : ValidSegment segment) (bounded : Bounded load.emulator) :
    Grows load (load.segment uncompress files segment) := by
  cases running : load.failure with
  | none => exact (load.segment_round uncompress files valid running bounded).1
  | some failure =>
      rw [EngineLoad.segment_stopped uncompress files running]
      exact Grows.refl load

/-- Everything asked for and mapped stays so, however many segments follow. -/
theorem foldl_segment_grows {segmentList : List SegInfo} {load : EngineLoad}
    (valid : ∀ segment ∈ segmentList, ValidSegment segment) (bounded : Bounded load.emulator) :
    Grows load (segmentList.foldl (EngineLoad.segment uncompress files) load) := by
  induction segmentList generalizing load with
  | nil => exact Grows.refl load
  | cons head rest ih =>
      have first := EngineLoad.segment_grows uncompress files
        (valid head List.mem_cons_self) bounded
      exact first.trans (ih (fun segment member => valid segment (List.mem_cons_of_mem _ member))
        (first.bounded bounded))

theorem mapSegments_bounded {segmentList : List SegInfo} (start : Bounded emulator)
    (valid : ∀ segment ∈ segmentList, ValidSegment segment) :
    Bounded (mapSegments uncompress files emulator segmentList).emulator :=
  (foldl_segment_grows uncompress files valid start).bounded start

variable {uncompress files}

theorem allFit_of_free {segmentList : List SegInfo} (start : Bounded emulator)
    (valid : ∀ segment ∈ segmentList, ValidSegment segment)
    (free : ∀ ask ∈ (mapSegments uncompress files emulator segmentList).asked, ask.Free) :
    AllFit uncompress files emulator segmentList := by
  rintro before segment after rfl running
  have inOrder : ∀ other ∈ before, ValidSegment other := fun other member =>
    valid other (List.mem_append_left _ member)
  have later : ∀ other ∈ after, ValidSegment other := fun other member =>
    valid other (List.mem_append_right _ (List.mem_cons_of_mem _ member))
  have segmentValid := valid segment (List.mem_append_right _ List.mem_cons_self)
  have bounded := mapSegments_bounded uncompress files start inOrder
  obtain ⟨grows, _, overlaps⟩ := EngineLoad.segment_round uncompress files segmentValid running
    bounded
  by_contra bad
  obtain ⟨ask, member, taken⟩ := overlaps bad
  have rest := foldl_segment_grows uncompress files later
    (grows.bounded bounded)
  refine taken (free ask ?_)
  rw [mapSegments, List.foldl_append]
  exact rest.asked ask member

theorem mapsApart_of_allFit {segmentList : List SegInfo} (start : Bounded emulator)
    (valid : ∀ segment ∈ segmentList, ValidSegment segment)
    (fit : AllFit uncompress files emulator segmentList) :
    MapsApart uncompress files emulator segmentList := by
  induction segmentList using List.reverseRecOn with
  | nil => exact ⟨by simp [mapSegments], by simp, by simp [mapSegments]⟩
  | append_singleton init last ih =>
      have initValid : ∀ segment ∈ init, ValidSegment segment := fun segment member =>
        valid segment (List.mem_append_left _ member)
      have initFit : AllFit uncompress files emulator init := by
        rintro before segment after rfl running
        exact fit before segment (after ++ [last]) (by simp) running
      obtain ⟨free, covered, accepted⟩ := ih initValid initFit
      have lastValid := valid last (List.mem_append_right _ List.mem_cons_self)
      have bounded := mapSegments_bounded uncompress files start initValid
      cases running : (mapSegments uncompress files emulator init).failure with
      | some failure =>
          have same := EngineLoad.segment_stopped uncompress files running last
          refine ⟨?_, ?_, ?_⟩ <;> rw [mapSegments_snoc uncompress files emulator, same]
          · exact free
          · rw [running]
            exact fun none => by cases none
          · exact accepted
      | none =>
          obtain ⟨grows, fits, _⟩ := EngineLoad.segment_round uncompress files lastValid running
            bounded
          obtain ⟨newFree, newCovered, newAccepted⟩ := fits (fit init last [] rfl running)
          refine ⟨?_, ?_, ?_⟩ <;> rw [mapSegments_snoc uncompress files emulator]
          · exact fun ask member => (newFree ask member).elim (free ask) id
          · intro _ segment member address above below
            rcases List.mem_append.mp member with old | new
            · exact grows.mapped address (covered running segment old address above below)
            · obtain rfl := List.mem_singleton.mp new
              exact newCovered address above below
          · exact newAccepted

end

/-- A fresh engine is only asked for free ranges, and maps all pages of the
segments, exactly as long as every segment that it reaches fits. -/
theorem mapSegments_apart_iff (uncompress : Uncompress) (files : Files) {emulator : Emulator}
    {segmentList : List SegInfo} (fresh : emulator.mapped.blocks = [])
    (valid : ∀ segment ∈ segmentList, ValidSegment segment) :
    MapsApart uncompress files emulator segmentList ↔
      AllFit uncompress files emulator segmentList := by
  have start : Bounded emulator := by
    intro block member
    rw [fresh] at member
    cases member
  exact ⟨fun apart => allFit_of_free start valid apart.free, mapsApart_of_allFit start valid⟩

/-! ## Segments that meet -/

def noZlib : Uncompress := ⟨fun _ _ => none, by simp⟩

def noFiles : Files := fun _ => none

def blankSegment (start stop : Nat) : SegInfo :=
  { name := "", start, stop, permissions := ⟨true, false, false⟩, contentFile := "" }

def codeSegment : SegInfo := blankSegment 0x2000 0x3000

/-- Begins inside the code. -/
def tailSegment : SegInfo := blankSegment 0x2800 0x5000

/-- Has the code inside. -/
def wholeSegment : SegInfo := blankSegment 0x1000 0x4000

theorem mapSegments_apart_iff_tail :
    MapsApart noZlib noFiles Emulator.opened [codeSegment, tailSegment] := by
  have valid : ∀ segment ∈ [codeSegment, tailSegment], ValidSegment segment := by
    intro segment member
    rcases List.mem_pair.mp member with rfl | rfl
    · exact ⟨by decide, by decide, by decide⟩
    · exact ⟨by decide, by decide, by decide⟩
  refine (mapSegments_apart_iff noZlib noFiles rfl valid).mpr ?_
  intro before segment after split _
  cases before with
  | nil => exact .inl (by simp [mapSegments, Emulator.opened])
  | cons first rest =>
      obtain ⟨rfl, tail⟩ := List.cons_eq_cons.mp split
      cases rest with
      | nil =>
          obtain ⟨rfl, rfl⟩ := List.cons_eq_cons.mp tail
          refine .inr ⟨_, List.mem_cons_self, .inl ⟨by decide, by decide⟩,
            ⟨by decide, by decide⟩, ?_⟩
          intro other member _
          exact List.mem_singleton.mp member
      | cons second rest => simp at tail

/-- The segment around an earlier one is mapped over it, which Unicorn refuses. -/
theorem wholeSegment_overlaps : ¬ ∀ uncompress files emulator segmentList,
    emulator.mapped.blocks = [] → (∀ segment ∈ segmentList, ValidSegment segment) →
      MapsApart uncompress files emulator segmentList := by
  intro apart
  have valid : ∀ segment ∈ [codeSegment, wholeSegment], ValidSegment segment := by
    intro segment member
    rcases List.mem_pair.mp member with rfl | rfl
    · exact ⟨by decide, by decide, by decide⟩
    · exact ⟨by decide, by decide, by decide⟩
  have refused : (mapSegments noZlib noFiles Emulator.opened
      [codeSegment, wholeSegment]).failure = some (.uc .map) := by decide
  exact (apart noZlib noFiles Emulator.opened _ rfl valid).accepted .map refused

end SbFuzz.SandboxFuzzer
