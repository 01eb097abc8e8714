import Mathlib.Data.List.Pairwise
import SbFuzz.UnicornMode.SimpleHeapProperties

/-! The contents of the chunks of `UnicornSimpleHeap`, and the accesses to them. -/

set_option autoImplicit false

namespace SbFuzz.UnicornMode.SimpleHeap

open Memory (pageSize pageUp le_pageUp Aligned)
open Systems

/-! ## Regions as bytes -/

/-- The bytes of a chunk, guard pages included. -/
def HeapChunk.Covers (chunk : HeapChunk) (byte : Nat) : Prop :=
  chunk.actualAddr ≤ byte ∧ byte < chunk.actualAddr + chunk.totalSize

/-- The size of a chunk is one that `ctypes` does not cut. -/
def Fits (size : Nat) : Prop := totalChunkSize size < 2 ^ 64

instance (size : Nat) : Decidable (Fits size) := inferInstanceAs (Decidable (_ < _))

theorem inRegion_of_mem {address size byte : Nat} (aligned : Aligned address)
    (whole : size % 2 ^ 64 % pageSize = 0) (low : address ≤ byte)
    (high : byte < address + size % 2 ^ 64) : InRegion address size (byte / pageSize) := by
  refine ⟨Nat.div_le_div_right low, ?_⟩
  unfold Aligned at aligned
  unfold pageSize at aligned whole ⊢
  omega

theorem Mapped.memory_of_isMapped {uc next : Uc} {address size byte : Nat}
    (region : Mapped uc address size next) (aligned : Aligned address)
    (mapped : uc.isMapped byte = true) : next.memory byte = uc.memory byte := by
  refine region.memory byte fun inside => ?_
  have unused := region.unused _ (inRegion_of_mem aligned region.whole inside.1 inside.2)
  exact Bool.false_ne_true (unused.symm.trans mapped)

theorem HeapChunk.Shaped.owns_of_covers {chunk : HeapChunk} (shaped : chunk.Shaped)
    (fits : Fits chunk.dataSize) {byte : Nat} (covers : chunk.Covers byte) :
    chunk.Owns (byte / pageSize) := by
  have small : chunk.totalSize < 2 ^ 64 := shaped.total ▸ fits
  refine inRegion_of_mem shaped.aligned shaped.whole covers.1 ?_
  rw [Nat.mod_eq_of_lt small]
  exact covers.2

theorem HeapChunk.Shaped.covers_data {chunk : HeapChunk} (shaped : chunk.Shaped) {k : Nat}
    (below : k < pageUp chunk.dataSize + pageSize) : chunk.Covers (chunk.dataAddr + k) := by
  have total : chunk.totalSize = pageSize + pageUp chunk.dataSize + pageSize := shaped.total
  unfold Covers dataAddr
  rw [total]
  omega

theorem lt_of_lt_dataSize {k size : Nat} (below : k < size) : k < pageUp size + pageSize :=
  Nat.lt_add_right _ (Nat.lt_of_lt_of_le below (le_pageUp size))

theorem Heap.malloc_memory (config : Config) (heap : Heap) (size : Nat) {byte : Nat}
    (mapped : heap.uc.isMapped byte = true) :
    (heap.malloc config size).1.uc.memory byte = heap.uc.memory byte := by
  obtain same | ⟨addr, uc, -, found, ⟨-, same⟩ | ⟨uafCheck, check, same⟩⟩ :=
    Heap.malloc_cases config heap size
  · rw [same]
  all_goals
    rw [same]
    obtain ⟨aligned, -, region⟩ := Heap.findSpace_spec found
    exact region.memory_of_isMapped aligned mapped

/-- Every live chunk has a size that is not cut. -/
structure Heap.Sized (config : Config) (heap : Heap) : Prop where
  valid : heap.Valid config
  fits : ∀ chunk ∈ heap.chunks, Fits chunk.dataSize

namespace Heap.Sized

variable {config : Config} {heap : Heap}

theorem owns_of_covers (sized : heap.Sized config) {chunk : HeapChunk} (member : chunk ∈ heap.chunks)
    {byte : Nat} (covers : chunk.Covers byte) : chunk.Owns (byte / pageSize) :=
  (sized.valid.shaped chunk member).owns_of_covers (sized.fits chunk member) covers

theorem disjoint (sized : heap.Sized config) :
    heap.chunks.Pairwise fun a b => ∀ byte, a.Covers byte → ¬ b.Covers byte := by
  refine List.Pairwise.imp_of_mem ?_ sized.valid.apart
  intro a b first second apart byte left right
  exact apart (byte / pageSize) (sized.owns_of_covers first left) (sized.owns_of_covers second right)

theorem eq_of_covers (sized : heap.Sized config) {a b : HeapChunk} (first : a ∈ heap.chunks)
    (second : b ∈ heap.chunks) {byte : Nat} (left : a.Covers byte) (right : b.Covers byte) :
    a = b := by
  by_contra different
  have symmetric : Std.Symm fun a b : HeapChunk => ∀ byte, a.Covers byte → ¬ b.Covers byte :=
    ⟨fun _ _ apart byte inside other => apart byte other inside⟩
  exact sized.disjoint.forall first second different byte left right

theorem isMapped_of_covers (sized : heap.Sized config) {chunk : HeapChunk}
    (member : chunk ∈ heap.chunks) {byte : Nat} (covers : chunk.Covers byte) :
    heap.uc.isMapped byte = true :=
  sized.valid.owned chunk member _ (sized.owns_of_covers member covers)

theorem covers_of_isBufferInChunk (sized : heap.Sized config) {chunk : HeapChunk}
    (member : chunk ∈ heap.chunks) {addr size : Nat} (positive : 0 < size)
    (inside : chunk.isBufferInChunk addr size = true) : chunk.Covers addr := by
  obtain ⟨low, high⟩ := HeapChunk.isBufferInChunk_iff.mp inside
  have covers := (sized.valid.shaped chunk member).covers_data
    (lt_of_lt_dataSize (k := addr - chunk.dataAddr) (by omega))
  rwa [Nat.add_sub_cancel' low] at covers

end Heap.Sized

/-! ## Contents -/

/-- What is read from the data of a chunk. -/
def Uc.contents (uc : Uc) (chunk : HeapChunk) : Option (List UInt8) :=
  uc.memRead chunk.dataAddr chunk.dataSize

namespace Heap.Sized

variable {config : Config} {heap : Heap}

theorem isMapped_data (sized : heap.Sized config) {chunk : HeapChunk}
    (member : chunk ∈ heap.chunks) {k : Nat} (below : k < chunk.dataSize) :
    heap.uc.isMapped (chunk.dataAddr + k) = true :=
  sized.isMapped_of_covers member
    ((sized.valid.shaped chunk member).covers_data (lt_of_lt_dataSize below))

theorem contents_eq (sized : heap.Sized config) {chunk : HeapChunk} (member : chunk ∈ heap.chunks) :
    heap.uc.contents chunk =
      some ((List.range chunk.dataSize).map fun k => heap.uc.memory (chunk.dataAddr + k)) :=
  Uc.memRead_eq fun _ below => sized.isMapped_data member below

theorem contents_of_memory (sized : heap.Sized config) {after : Heap}
    (sizedAfter : after.Sized config) {chunk : HeapChunk} (member : chunk ∈ heap.chunks)
    (left : chunk ∈ after.chunks)
    (memory : ∀ k < chunk.dataSize,
      after.uc.memory (chunk.dataAddr + k) = heap.uc.memory (chunk.dataAddr + k)) :
    after.uc.contents chunk = heap.uc.contents chunk := by
  rw [sizedAfter.contents_eq left, sized.contents_eq member]
  refine congrArg some (List.map_congr_left fun k below => ?_)
  exact memory k (List.mem_range.mp below)

/-! ### What the calls keep -/

theorem add (sized : heap.Sized config) {size addr : Nat} {uc : Uc} {uafCheck : Bool}
    (positive : size ≠ 0) (fits : Fits size) (found : heap.findSpace config size = some (addr, uc))
    (check : config.uafCheck = some uafCheck) : (heap.add uc uafCheck addr size).Sized config where
  valid := sized.valid.add positive found check
  fits chunk member := by
    rcases List.mem_append.mp member with old | new
    · exact sized.fits chunk old
    · cases List.mem_singleton.mp new
      exact fits

theorem malloc (sized : heap.Sized config) {size : Nat} (fits : Fits size) :
    (heap.malloc config size).1.Sized config := by
  refine ⟨sized.valid.malloc size, ?_⟩
  obtain same | ⟨addr, uc, positive, found, ⟨-, same⟩ | ⟨uafCheck, check, same⟩⟩ :=
    Heap.malloc_cases config heap size
  · rw [same]
    exact sized.fits
  · rw [same]
    exact sized.fits
  · rw [same]
    exact (sized.add positive fits found check).fits

theorem free (sized : heap.Sized config) (addr : Nat) :
    (heap.free config addr).1.Sized config ∧
      (heap.free config addr).1.uc.memory = heap.uc.memory := by
  obtain ⟨-, same⟩ | ⟨-, same⟩ | ⟨chunk, member, -, ⟨-, same⟩ | ⟨uc, check, -, -, region, same⟩⟩ :=
    sized.valid.free_cases addr
  · rw [same]
    exact ⟨sized, rfl⟩
  · rw [same]
    exact ⟨sized, rfl⟩
  · rw [same]
    exact ⟨sized, rfl⟩
  · rw [same]
    refine ⟨⟨sized.valid.release member region, fun other left => ?_⟩, region.memory⟩
    exact sized.fits other (List.mem_of_mem_erase left)

theorem memWrite (sized : heap.Sized config) {address : Nat} {data : List UInt8} {uc : Uc}
    (written : heap.uc.memWrite address data = some uc) : Heap.Sized config { heap with uc } :=
  ⟨sized.valid.memWrite written, sized.fits⟩

end Heap.Sized

/-! ## `realloc` of a live chunk -/

theorem Heap.oldChunk_spec {heap : Heap} {ptr : Nat} {chunk : HeapChunk}
    (found : heap.oldChunk ptr = some chunk) : chunk ∈ heap.chunks ∧ chunk.dataAddr = ptr := by
  have member := List.mem_reverse.mp (List.mem_of_find?_eq_some found)
  have same : (chunk.dataAddr == ptr) = true :=
    List.find?_some (p := fun chunk : HeapChunk => chunk.dataAddr == ptr) found
  exact ⟨member, eq_of_beq same⟩

theorem Heap.malloc_of_space {config : Config} {heap : Heap} {size addr : Nat} {uc : Uc}
    {uafCheck : Bool} (positive : size ≠ 0) (found : heap.findSpace config size = some (addr, uc))
    (check : config.uafCheck = some uafCheck) :
    heap.malloc config size = (heap.add uc uafCheck addr size, .ok (addr + pageSize)) := by
  unfold malloc
  rw [if_neg positive, found]
  dsimp only
  rw [check]
  rfl

/-- What a `realloc` of a live chunk needs to be one: the copy, which is as long as the old data,
ends in the region of the new chunk. -/
structure Heap.ReallocProper (heap : Heap) (config : Config) (oldChunk : HeapChunk)
    (newSize : Nat) : Prop where
  positive : newSize ≠ 0
  room : (heap.findSpace config newSize).isSome = true
  text : ∀ data, heap.uc.contents oldChunk = some data → config.str data = some data
  copied : oldChunk.dataSize ≤ pageUp newSize + pageSize
  silent : config.debugPrint = false

namespace Heap.Sized

variable {config : Config} {heap : Heap}

theorem free_dataAddr (sized : heap.Sized config) {chunk : HeapChunk}
    (member : chunk ∈ heap.chunks) (silent : config.debugPrint = false) :
    ∃ uc uafCheck, chunk.Unmapped heap.uc uc ∧
      heap.free config chunk.dataAddr = (heap.release uc uafCheck chunk, .ok true) := by
  have inside := sized.valid.isBufferInChunk_dataAddr member
  obtain ⟨zero, -⟩ | ⟨missing, -⟩ | ⟨found, present, contains, ⟨debug, -⟩ |
    ⟨uc, uafCheck, -, -, region, same⟩⟩ := sized.valid.free_cases chunk.dataAddr
  · exact (Heap.Live.ne_zero ⟨chunk, member, rfl⟩ zero).elim
  · rw [missing chunk member] at inside
    cases inside
  · rw [silent] at debug
    cases debug
  · have covers := sized.covers_of_isBufferInChunk present Nat.one_pos contains
    have own := sized.covers_of_isBufferInChunk member Nat.one_pos inside
    cases sized.eq_of_covers present member covers own
    exact ⟨uc, uafCheck, region, same⟩

/-- The new chunk has the old bytes, and the bytes of all live chunks stay. -/
theorem realloc_spec (sized : heap.Sized config) {ptr newSize : Nat} {oldChunk : HeapChunk}
    (found : heap.oldChunk ptr = some oldChunk) (fits : Fits newSize)
    (proper : heap.ReallocProper config oldChunk newSize) :
    ∃ newChunk after, heap.realloc config ptr newSize = (after, .ok newChunk.dataAddr) ∧
      after.Sized config ∧ newChunk ∈ after.chunks ∧ newChunk.dataSize = newSize ∧
      (∀ k < oldChunk.dataSize,
        after.uc.memory (newChunk.dataAddr + k) = heap.uc.memory (oldChunk.dataAddr + k)) ∧
      ∀ chunk ∈ heap.chunks, ∀ k < chunk.dataSize,
        after.uc.memory (chunk.dataAddr + k) = heap.uc.memory (chunk.dataAddr + k) := by
  obtain ⟨old, -⟩ := Heap.oldChunk_spec found
  obtain ⟨⟨addr, uc⟩, space⟩ := Option.isSome_iff_exists.mp proper.room
  obtain ⟨uafCheck, check⟩ :=
    Option.ne_none_iff_exists'.mp (sized.valid.checked (List.ne_nil_of_mem old))
  obtain ⟨aligned, -, region⟩ := Heap.findSpace_spec space
  -- The new chunk.
  let newChunk : HeapChunk := ⟨addr, totalChunkSize newSize, newSize⟩
  have allocated := sized.add proper.positive fits space check
  have new : newChunk ∈ (heap.add uc uafCheck addr newSize).chunks :=
    List.mem_append_right _ (List.mem_singleton.mpr rfl)
  have stays : ∀ chunk ∈ heap.chunks, chunk ∈ (heap.add uc uafCheck addr newSize).chunks :=
    fun chunk member => List.mem_append_left _ member
  have different : ∀ chunk ∈ heap.chunks, chunk ≠ newChunk := by
    intro chunk member same
    have shaped := sized.valid.shaped chunk member
    have used := sized.valid.owned chunk member _ shaped.owns_first
    rw [region.unused _ (same ▸ shaped.owns_first)] at used
    cases used
  have kept : ∀ chunk ∈ heap.chunks, ∀ k < chunk.dataSize,
      uc.memory (chunk.dataAddr + k) = heap.uc.memory (chunk.dataAddr + k) :=
    fun chunk member k below =>
      region.memory_of_isMapped aligned (sized.isMapped_data member below)
  -- The copy.
  have read : uc.memRead oldChunk.dataAddr oldChunk.dataSize = heap.uc.contents oldChunk :=
    sized.contents_of_memory allocated old (stays _ old) (kept _ old)
  let data := (List.range oldChunk.dataSize).map fun k => heap.uc.memory (oldChunk.dataAddr + k)
  have contents : heap.uc.contents oldChunk = some data := sized.contents_eq old
  have text := proper.text data contents
  have length : data.length = oldChunk.dataSize := by simp [data]
  have room : ∀ k < data.length, uc.isMapped (newChunk.dataAddr + k) = true := by
    intro k below
    exact allocated.isMapped_of_covers new
      ((allocated.valid.shaped _ new).covers_data
        (Nat.lt_of_lt_of_le (length ▸ below) proper.copied))
  obtain ⟨copied, written⟩ := Uc.memWrite_isSome room
  have copy := Uc.memWrite_spec written
  have holds : Heap.Sized config { heap.add uc uafCheck addr newSize with uc := copied } :=
    allocated.memWrite written
  -- The old chunk.
  obtain ⟨freed, _, gone, same⟩ := holds.free_dataAddr (stays _ old) proper.silent
  have after := holds.free oldChunk.dataAddr
  rw [same] at after
  refine ⟨newChunk, _, ?_, after.1, ?_, rfl, ?_, ?_⟩
  · unfold Heap.realloc
    rw [Heap.malloc_of_space proper.positive space check]
    dsimp only
    rw [found]
    dsimp only
    unfold Heap.replace
    rw [show (heap.add uc uafCheck addr newSize).uc = uc from rfl, read, contents]
    dsimp only
    rw [text]
    dsimp only
    rw [show addr + pageSize = newChunk.dataAddr from rfl, written]
    dsimp only
    rw [same]
  · exact (List.mem_erase_of_ne (different _ old).symm).mpr new
  · intro k below
    rw [after.2]
    refine (copy.inside k (length.symm ▸ below)).trans ?_
    simp [data]
  · intro chunk member k below
    rw [after.2]
    refine (copy.outside _ fun j inside same => ?_).trans (kept chunk member k below)
    rw [length] at inside
    have mine := (allocated.valid.shaped _ (stays _ member)).covers_data (lt_of_lt_dataSize below)
    have its := (allocated.valid.shaped _ new).covers_data (Nat.lt_of_lt_of_le inside proper.copied)
    rw [same] at mine
    exact different chunk member (allocated.eq_of_covers (stays _ member) new mine its)

end Heap.Sized

/-! ## Runs -/

/-- A call: not a store of the program. -/
def Action.IsCall : Action → Prop
  | .store _ _ => False
  | _ => True

/-- Sizes are not cut, and a `realloc` of a live chunk is proper. -/
def Heap.Admits (config : Config) (heap : Heap) : Action → Prop
  | .malloc size => Fits size
  | .calloc size count => Fits (size * count)
  | .realloc ptr newSize => Fits newSize ∧
      ∀ oldChunk, heap.oldChunk ptr = some oldChunk → heap.ReallocProper config oldChunk newSize
  | .free _ => True
  | .store _ _ => True

/-- What a call does with the contents of chunks. -/
structure Heap.Keeps (heap : Heap) (config : Config) (action : Action) : Prop where
  frame : ∀ chunk ∈ heap.chunks, chunk ∈ (heap.apply config action).chunks →
    (heap.apply config action).uc.contents chunk = heap.uc.contents chunk
  realloc : ∀ ptr newSize, action = .realloc ptr newSize → ∀ oldChunk,
    heap.oldChunk ptr = some oldChunk →
    ∃ newChunk ∈ (heap.apply config action).chunks,
      (heap.realloc config ptr newSize).2 = .ok newChunk.dataAddr ∧
      newChunk.dataSize = newSize ∧
      ∃ before after, heap.uc.contents oldChunk = some before ∧
        (heap.apply config action).uc.contents newChunk = some after ∧
        after.take (min oldChunk.dataSize newSize) = before.take (min oldChunk.dataSize newSize)

namespace Heap.Sized

variable {config : Config} {heap : Heap}

theorem realloc_of_none {ptr newSize : Nat} (missing : heap.oldChunk ptr = none) :
    (heap.realloc config ptr newSize).1 = (heap.malloc config newSize).1 := by
  unfold Heap.realloc
  split
  · next same => rw [same]
  · next same => rw [missing, same]

theorem apply (sized : heap.Sized config) {action : Action} (admits : heap.Admits config action) :
    (heap.apply config action).Sized config := by
  cases action with
  | malloc size => exact sized.malloc admits
  | calloc size count => exact @malloc _ _ sized (size * count) admits
  | realloc ptr newSize =>
    cases found : heap.oldChunk ptr with
    | none =>
      have allocated := sized.malloc admits.1
      rwa [← realloc_of_none found] at allocated
    | some oldChunk =>
      obtain ⟨_, after, same, valid, -⟩ :=
        sized.realloc_spec found admits.1 (admits.2 oldChunk found)
      have reached : heap.apply config (.realloc ptr newSize) = after := congrArg Prod.fst same
      rw [reached]
      exact valid
  | free addr => exact (sized.free addr).1
  | store address data =>
    unfold Heap.apply
    dsimp only
    split
    · exact sized
    · next written => exact sized.memWrite written

theorem memory_of_call (sized : heap.Sized config) {action : Action} (call : action.IsCall)
    (admits : heap.Admits config action) {chunk : HeapChunk} (member : chunk ∈ heap.chunks) {k : Nat}
    (below : k < chunk.dataSize) :
    (heap.apply config action).uc.memory (chunk.dataAddr + k) =
      heap.uc.memory (chunk.dataAddr + k) := by
  have mapped := sized.isMapped_data member below
  cases action with
  | malloc size => exact Heap.malloc_memory config heap size mapped
  | calloc size count => exact Heap.malloc_memory config heap (size * count) mapped
  | realloc ptr newSize =>
    unfold Heap.apply
    dsimp only
    cases found : heap.oldChunk ptr with
    | none =>
      rw [realloc_of_none found]
      exact Heap.malloc_memory config heap newSize mapped
    | some oldChunk =>
      obtain ⟨_, after, same, -, -, -, -, kept⟩ :=
        sized.realloc_spec found admits.1 (admits.2 oldChunk found)
      rw [same]
      exact kept chunk member k below
  | free addr => exact congrFun (sized.free addr).2 _
  | store address data => exact call.elim

theorem keeps (sized : heap.Sized config) {action : Action} (call : action.IsCall)
    (admits : heap.Admits config action) : heap.Keeps config action where
  frame chunk member left :=
    sized.contents_of_memory (sized.apply admits) member left fun _ below =>
      sized.memory_of_call call admits member below
  realloc ptr newSize same oldChunk found := by
    cases same
    obtain ⟨newChunk, after, same, valid, new, size, copied, -⟩ :=
      sized.realloc_spec found admits.1 (admits.2 oldChunk found)
    have reached : heap.apply config (.realloc ptr newSize) = after := congrArg Prod.fst same
    rw [reached]
    refine ⟨newChunk, new, congrArg Prod.snd same, size, _, _,
      sized.contents_eq (Heap.oldChunk_spec found).1, valid.contents_eq new, ?_⟩
    rw [← List.map_take, ← List.map_take, List.take_range, List.take_range, size,
      Nat.min_eq_left (Nat.min_le_right _ _), Nat.min_eq_left (Nat.min_le_left _ _)]
    refine List.map_congr_left fun k below => copied k ?_
    exact Nat.lt_of_lt_of_le (List.mem_range.mp below) (Nat.min_le_left _ _)

end Heap.Sized

end SbFuzz.UnicornMode.SimpleHeap
