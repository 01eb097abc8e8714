import SbFuzz.UnicornMode.SimpleHeapContents

/-! Accesses to the data of live chunks of `UnicornSimpleHeap`, and the chunks that the
use-after-free check remembers. -/

set_option autoImplicit false

namespace SbFuzz.UnicornMode.SimpleHeap

open Memory (pageSize)
open Systems

/-- The bytes that the caller asked for. -/
def HeapChunk.Holds (chunk : HeapChunk) (byte : Nat) : Prop :=
  chunk.dataAddr ≤ byte ∧ byte < chunk.dataAddr + chunk.dataSize

/-- Where a chunk is placed, no freed chunk has bytes of it but the one that is forgotten:
the first with the first byte of the new data. -/
def Heap.Reconciled (heap : Heap) (config : Config) (size : Nat) : Prop :=
  ∀ addr uc, heap.findSpace config size = some (addr, uc) →
    ∀ freed ∈ heap.chunksFreed.eraseP fun freed => freed.isBufferInChunk (addr + pageSize) 1,
      ∀ byte, addr + pageSize ≤ byte → byte < addr + pageSize + size → ¬ freed.Holds byte

def Heap.AdmitsReuse (config : Config) (heap : Heap) : Action → Prop
  | .malloc size => Fits size ∧ heap.Reconciled config size
  | .calloc size count => Fits (size * count) ∧ heap.Reconciled config (size * count)
  | .realloc _ newSize => Fits newSize ∧ heap.Reconciled config newSize
  | .free _ => True
  | .store _ _ => True

theorem Heap.Sized.owns_of_holds {config : Config} {heap : Heap} (sized : heap.Sized config)
    {chunk : HeapChunk} (member : chunk ∈ heap.chunks) {byte : Nat} (holds : chunk.Holds byte) :
    chunk.Owns (byte / pageSize) := by
  have inside : chunk.isBufferInChunk byte 1 = true :=
    HeapChunk.isBufferInChunk_iff.mpr ⟨holds.1, holds.2⟩
  exact sized.owns_of_covers member
    (sized.covers_of_isBufferInChunk member Nat.one_pos inside)

/-- No byte of a live chunk is remembered as freed. -/
structure Heap.Watched (config : Config) (heap : Heap) : Prop where
  sized : heap.Sized config
  forgotten : ∀ freed ∈ heap.chunksFreed, ∀ chunk ∈ heap.chunks, ∀ byte,
    chunk.Holds byte → ¬ freed.Holds byte

namespace Heap.Watched

variable {config : Config} {heap : Heap} (enabled : config.uafCheck = some true)

include enabled in
theorem malloc (watched : heap.Watched config) {size : Nat} (fits : Fits size)
    (reconciled : heap.Reconciled config size) : (heap.malloc config size).1.Watched config := by
  refine ⟨watched.sized.malloc fits, ?_⟩
  obtain same | ⟨addr, uc, -, found, ⟨-, same⟩ | ⟨uafCheck, check, same⟩⟩ :=
    Heap.malloc_cases config heap size
  · rw [same]
    exact watched.forgotten
  · rw [same]
    exact watched.forgotten
  · cases enabled.symm.trans check
    rw [same]
    intro freed remembered chunk member byte holds
    rcases List.mem_append.mp member with old | new
    · exact watched.forgotten freed (List.mem_of_mem_eraseP remembered) chunk old byte holds
    · cases List.mem_singleton.mp new
      exact reconciled addr uc found freed remembered byte holds.1 holds.2

theorem free (watched : heap.Watched config) (addr : Nat) :
    (heap.free config addr).1.Watched config := by
  refine ⟨(watched.sized.free addr).1, ?_⟩
  obtain ⟨-, same⟩ | ⟨-, same⟩ | ⟨chunk, member, -, ⟨-, same⟩ | ⟨uc, check, -, -, -, same⟩⟩ :=
    watched.sized.valid.free_cases addr
  · rw [same]
    exact watched.forgotten
  · rw [same]
    exact watched.forgotten
  · rw [same]
    exact watched.forgotten
  · rw [same]
    intro freed remembered other left byte holds
    have live := List.mem_of_mem_erase left
    -- The freed chunks are the old ones and at most the one that is freed now.
    have before : freed ∈ heap.chunksFreed ++ [chunk] := by
      unfold Heap.release at remembered
      dsimp only at remembered
      split at remembered
      · exact remembered
      · exact List.mem_append_left _ remembered
    rcases List.mem_append.mp before with old | new
    · exact watched.forgotten freed old other live byte holds
    · cases List.mem_singleton.mp new
      intro shared
      have mine := watched.sized.owns_of_holds live holds
      have its := watched.sized.owns_of_holds member shared
      exact watched.sized.valid.apart_of_mem_erase member left _ mine its

theorem memWrite (watched : heap.Watched config) {address : Nat} {data : List UInt8} {uc : Uc}
    (written : heap.uc.memWrite address data = some uc) : Heap.Watched config { heap with uc } :=
  ⟨watched.sized.memWrite written, watched.forgotten⟩

theorem replace (watched : heap.Watched config) (oldChunk : HeapChunk) (newChunkAddr : Nat) :
    (heap.replace config oldChunk newChunkAddr).1.Watched config := by
  unfold Heap.replace
  split
  · exact watched
  · split
    · exact watched
    · split
      · exact watched
      · next uc written =>
        have freed := (watched.memWrite written).free oldChunk.dataAddr
        split
        · next same => exact (congrArg Prod.fst same) ▸ freed
        · next same => exact (congrArg Prod.fst same) ▸ freed

include enabled in
theorem apply (watched : heap.Watched config) {action : Action}
    (admits : heap.AdmitsReuse config action) : (heap.apply config action).Watched config := by
  cases action with
  | malloc size => exact watched.malloc enabled admits.1 admits.2
  | calloc size count => exact watched.malloc enabled admits.1 admits.2
  | realloc ptr newSize =>
    have allocated := watched.malloc enabled admits.1 admits.2
    unfold Heap.apply Heap.realloc
    dsimp only
    split
    · next same => exact (congrArg Prod.fst same) ▸ allocated
    · next same =>
      rw [same] at allocated
      split
      · exact allocated
      · exact allocated.replace _ _
  | free addr => exact watched.free addr
  | store address data =>
    unfold Heap.apply
    dsimp only
    split
    · exact watched
    · next written => exact watched.memWrite written

/-- An access to bytes of a live chunk is in the data of each region that has it, and in those of
no freed chunk. -/
theorem checkMemAccess_eq_false (watched : heap.Watched config) {chunk : HeapChunk}
    (member : chunk ∈ heap.chunks) {address size : Nat} (positive : 0 < size)
    (inside : chunk.isBufferInChunk address size = true) :
    heap.checkMemAccess config address size = false := by
  obtain ⟨low, high⟩ := HeapChunk.isBufferInChunk_iff.mp inside
  unfold Heap.checkMemAccess
  rw [Bool.or_eq_false_iff, Bool.and_eq_false_iff]
  constructor
  · refine List.any_eq_false.mpr fun other live reported => ?_
    obtain ⟨region, outside⟩ := Bool.and_eq_true_iff.mp reported
    obtain ⟨first, last⟩ := of_decide_eq_true region
    have covers := watched.sized.covers_of_isBufferInChunk member positive inside
    cases watched.sized.eq_of_covers live member ⟨first, by omega⟩ covers
    rw [inside] at outside
    cases outside
  · refine .inr (List.any_eq_false.mpr fun freed remembered reported => ?_)
    obtain ⟨-, contains⟩ := Bool.and_eq_true_iff.mp reported
    obtain ⟨start, stop⟩ := HeapChunk.isBufferInChunk_iff.mp contains
    exact watched.forgotten freed remembered chunk member address ⟨low, by omega⟩
      ⟨start, by omega⟩

end Heap.Watched

/-- With the checks on, in a run whose new chunks are reconciled with the freed ones no access
to the data of a live chunk is reported. -/
theorem live_access_not_reported {config : Config} {uc : Uc} {actions : List Action} {heap : Heap}
    (enabled : config.uafCheck = some true)
    (admitted : (simpleHeap config uc).Admitted (Heap.AdmitsReuse config) ⟨uc, [], []⟩ actions)
    (ran : (simpleHeap config uc).run actions = some heap) :
    ∀ chunk ∈ heap.chunks, ∀ address size, 0 < size →
      chunk.isBufferInChunk address size = true →
      heap.checkMemAccess config address size = false := by
  have watched : heap.Watched config := by
    refine (simpleHeap config uc).runFrom_invariant_of_admitted (Heap.Watched config) ?_ ?_
      admitted ran
    · intro state action next watched admits stepped
      exact Option.some.inj stepped ▸ watched.apply enabled admits
    · exact ⟨⟨valid_of_reachable ⟨[], rfl⟩, fun _ member => (List.not_mem_nil member).elim⟩,
        fun _ member => (List.not_mem_nil member).elim⟩
  intro chunk member address size positive inside
  exact watched.checkMemAccess_eq_false member positive inside

/-- A chunk over two that were freed: the second is still remembered. -/
theorem reused_access_reported : ∃ heap : Heap,
    (simpleHeap ⟨some true, false, some, fun _ => true⟩ .empty).Reachable heap ∧
      ∃ chunk ∈ heap.chunks, chunk.isBufferInChunk 0x6000 1 = true ∧
        heap.checkMemAccess ⟨some true, false, some, fun _ => true⟩ 0x6000 1 = true := by
  refine ⟨_, ⟨[.malloc 8, .malloc 8, .free 0x3000, .free 0x6000, .malloc 0x3008], rfl⟩, ?_⟩
  exact ⟨⟨0x2000, 0x6000, 0x3008⟩, by decide +kernel, by decide, by decide +kernel⟩

theorem live_access_not_reported_reused : ∃ heap : Heap,
    (simpleHeap ⟨some true, false, some, fun _ => true⟩ .empty).run
      [.malloc 8, .free 0x3000, .malloc 16] = some heap ∧
    heap.checkMemAccess ⟨some true, false, some, fun _ => true⟩ 0x3008 8 = false := by
  refine ⟨_, rfl, @live_access_not_reported _ _ [_, _, _] _ rfl ?_ rfl ⟨0x2000, 0x3000, 16⟩
    (by decide +kernel) _ _ (by decide) (by decide)⟩
  have eight : Fits 8 := by decide
  have sixteen : Fits 16 := by decide
  refine .cons ⟨eight, fun _ _ _ _ remembered => ?_⟩ rfl (.cons trivial rfl
    (.cons ⟨sixteen, fun addr uc found freed remembered => ?_⟩ rfl trivial))
  · exact (List.not_mem_nil remembered).elim
  · have place : addr = 0x2000 :=
      congrArg Prod.fst (Option.some.inj (found.symm.trans (by rfl)))
    subst place
    exact (List.not_mem_nil remembered).elim

end SbFuzz.UnicornMode.SimpleHeap
