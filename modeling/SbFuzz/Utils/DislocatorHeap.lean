import SbFuzz.Utils.DislocatorAlignment
import SbFuzz.Utils.DislocatorBlocks
import Mathlib.Algebra.Order.BigOperators.Group.List
import Mathlib.Data.List.Pairwise

/-! The heap of libdislocator as its target sees it: what every call promises, the invariant behind
it, and the calls that allocate. -/

set_option autoImplicit false

namespace SbFuzz.Utils.Dislocator

open SbFuzz.Memory

/-- The memory, and the blocks that the target holds. -/
structure Heap where
  st : State
  live : List Block

/-- What the target does. `map` is the page at which `mmap` answers. -/
inductive Call where
  | malloc (map : Option Nat) (len : UInt64)
  | calloc (map : Option Nat) (elemLen elemCnt : UInt64)
  | realloc (map : Option Nat) (ptr : Nat) (len : UInt64)
  | memalign (map : Option Nat) (call : AlignedCall) (align len : UInt64)
  | free (ptr : Nat)
  /-- Bytes are written to a block. -/
  | store (pos : Nat) (bytes : List UInt8)

/-- The block that was returned is held, with the last mapping that was made. -/
def Heap.hold (heap : Heap) (len : Nat) (result : State × Nat) : Heap × Nat :=
  (⟨result.1, if result.2 = 0 then heap.live
    else heap.live ++ [⟨result.2, len, result.1.maps.getLastD ⟨0, 0⟩⟩]⟩, result.2)

def Heap.release (heap : Heap) (ptr : Nat) : Heap :=
  { heap with live := heap.live.eraseP fun block => block.ptr == ptr }

variable (config : Config)

def Heap.call (heap : Heap) : Call → Except Stop (Heap × Nat)
  | .malloc map len => (malloc config heap.st map len.toNat).map (heap.hold len.toNat)
  | .calloc map elemLen elemCnt =>
      (calloc config heap.st map elemLen.toNat elemCnt.toNat).map
        (heap.hold (elemLen.toNat * elemCnt.toNat % 2 ^ 64))
  | .realloc map ptr len =>
      (realloc config heap.st map ptr len.toNat).map fun result =>
        let (heap, ret) := heap.hold len.toNat result
        (if ret = 0 then heap else heap.release ptr, ret)
  | .memalign map call align len =>
      (call.run config heap.st map align.toNat len.toNat).map
        (heap.hold (alignUp align.toNat len.toNat % 2 ^ 64))
  | .free ptr => (Dislocator.free config heap.st ptr).map fun st =>
      ({ heap with st := st }.release ptr, 0)
  | .store pos bytes => .ok ({ heap with st := heap.st.write pos bytes }, 0)

/-! ## What is promised -/

/-- The length up to the end of the tail. -/
def tailedLen (len : Nat) : Nat := if config.alignAllocations then (len + 15) / 16 * 16 else len

structure Sound (heap : Heap) : Prop where
  total : heap.st.totalMem = (heap.live.map Block.len).sum
  limit : heap.st.totalMem ≤ config.maxMem
  guarded : ∀ block ∈ heap.live, ∃ guard, ⟨guard, pageSize⟩ ∈ heap.st.protects ∧
    block.ptr + tailedLen config block.len = guard ∧
      guard + pageSize = block.map.start + block.map.len

/-- The process ends over what it asks for. -/
def Stop.refuses : Stop → Bool
  | .totalAllocs | .mmapFailed | .callocOverflow | .divisionByZero => true
  | .mprotectFailed | .badCanary | .badTailCanary | .endless => false

structure Served (heap : Heap) (call : Call) (outcome : Except Stop (Heap × Nat)) : Prop where
  returns : ∀ reason, outcome = .error reason → reason.refuses = true
  sound : ∀ after ret, outcome = .ok (after, ret) → Sound config after
  freed : ∀ block ∈ heap.live, call = .free block.ptr →
    ∀ after ret, outcome = .ok (after, ret) →
      after.st.protects = heap.st.protects ++ [block.dataPages]
  reallocated : ∀ block ∈ heap.live, ∀ map len, call = .realloc map block.ptr len →
    ∀ after ret, outcome = .ok (after, ret) → ret ≠ 0 →
      (∃ guard, after.st.protects = heap.st.protects ++ [⟨guard, pageSize⟩, block.dataPages]) ∧
        ∀ k < min block.len len.toNat, after.st.mem (ret + k) = heap.st.mem (block.ptr + k)

/-- A block that is released is short enough. -/
def Call.Fits (heap : Heap) : Call → Prop
  | .free ptr => ∀ block ∈ heap.live, block.ptr = ptr → block.Releasable config
  | .realloc map ptr len =>
      map ≠ none → heap.st.totalMem + len.toNat ≤ config.maxMem →
        ∀ block ∈ heap.live, block.ptr = ptr → block.Releasable config
  | _ => True

/-! ## What is assumed -/

/-- `mmap` answers with pages that are free. -/
def Answers (heap : Heap) (map : Option Nat) (len : Nat) : Prop :=
  ∀ page, map = some page → heap.st.totalMem + len ≤ config.maxMem →
    page * pageSize + (mapping config page len).len ≤ 2 ^ 64 ∧
      ∀ region ∈ heap.st.maps, (mapping config page len).Apart region

/-- The target uses its own blocks. -/
def Call.Admitted (heap : Heap) : Call → Prop
  | .malloc map len => Answers config heap map len.toNat
  | .calloc map elemLen elemCnt =>
      Answers config heap map (elemLen.toNat * elemCnt.toNat % 2 ^ 64)
  | .realloc map ptr len =>
      Answers config heap map len.toNat ∧ (ptr = 0 ∨ ∃ block ∈ heap.live, block.ptr = ptr)
  | .memalign map _ align len =>
      Answers config heap map (alignUp align.toNat len.toNat % 2 ^ 64)
  | .free ptr => ptr = 0 ∨ ∃ block ∈ heap.live, block.ptr = ptr
  | .store pos bytes => ∃ block ∈ heap.live,
      block.ptr ≤ pos ∧ pos + bytes.length ≤ block.ptr + block.len

/-! ## The invariant -/

structure Inv (heap : Heap) : Prop where
  total : heap.st.totalMem = (heap.live.map Block.len).sum
  limit : heap.st.totalMem ≤ config.maxMem
  placed : ∀ block ∈ heap.live, Placed config heap.st block
  apart : heap.live.Pairwise fun block other => block.map.Apart other.map

variable {config}

theorem Inv.sound {heap : Heap} (inv : Inv config heap) : Sound config heap where
  total := inv.total
  limit := inv.limit
  guarded := fun block member => by
    have placed := inv.placed block member
    have same : tailedLen config block.len = roundLen config block.len :=
      (roundLen_eq placed.small).symm
    rw [same]
    exact ⟨_, placed.guarded, rfl, placed.bounds.2⟩

theorem Inv.apart_of_ne {heap : Heap} (inv : Inv config heap) {block other : Block}
    (member : block ∈ heap.live) (otherMember : other ∈ heap.live) (ne : block ≠ other) :
    block.map.Apart other.map :=
  have : Std.Symm fun block other : Block => block.map.Apart other.map := ⟨fun _ _ => Or.symm⟩
  inv.apart.forall member otherMember ne

/-- Blocks are told apart by their pointers. -/
theorem Inv.eq_of_ptr {heap : Heap} (inv : Inv config heap) {block other : Block}
    (member : block ∈ heap.live) (otherMember : other ∈ heap.live) (same : block.ptr = other.ptr) :
    block = other := by
  by_contra ne
  have apart := inv.apart_of_ne member otherMember ne
  have bounds := (inv.placed block member).bounds
  have otherBounds := (inv.placed other otherMember).bounds
  have size : pageSize = 4096 := rfl
  unfold Region.Apart at apart
  omega

theorem Inv.ptr_ne_zero {heap : Heap} (inv : Inv config heap) {block : Block}
    (member : block ∈ heap.live) : block.ptr ≠ 0 := by
  have bounds := (inv.placed block member).bounds
  omega

theorem Inv.counted {heap : Heap} (inv : Inv config heap) {block : Block}
    (member : block ∈ heap.live) : block.len ≤ heap.st.totalMem := by
  rw [inv.total]
  exact List.le_sum_of_mem (List.mem_map_of_mem member)

theorem Inv.write {heap : Heap} (inv : Inv config heap) {block : Block}
    (member : block ∈ heap.live) {pos : Nat} {bytes : List UInt8} (above : block.ptr ≤ pos)
    (below : pos + bytes.length ≤ block.ptr + block.len) :
    Inv config { heap with st := heap.st.write pos bytes } where
  total := inv.total
  limit := inv.limit
  apart := inv.apart
  placed := fun other otherMember => by
    have bounds := (inv.placed block member).bounds
    have longer := (le_roundLen (inv.placed block member).small).1
    refine (inv.placed other otherMember).frame (fun _ => id) (fun _ => id)
      fun k fromStart toEnd outside => ?_
    have apart : k < pos ∨ pos + bytes.length ≤ k := by
      by_cases same : block = other
      · subst same
        omega
      · have apart := inv.apart_of_ne member otherMember same
        unfold Region.Apart at apart
        omega
    rcases apart with before | behind
    · exact put_before _ _ before
    · exact put_outside _ behind

theorem Inv.allocated {heap : Heap} (inv : Inv config heap) {page len : Nat}
    (fits : heap.st.totalMem + len ≤ config.maxMem)
    (fresh : ∀ region ∈ heap.st.maps, (mapping config page len).Apart region) :
    Inv config ⟨Dislocator.allocated config heap.st page len,
      heap.live ++ [blockAt config page len]⟩ where
  total := by
    rw [List.map_append, List.sum_append, ← inv.total]
    rfl
  limit := fits
  placed := fun block member => by
    have small : len ≤ config.maxMem := Nat.le_trans (Nat.le_add_left _ _) fits
    rcases List.mem_append.mp member with old | new
    · have placed := inv.placed block old
      have apart := fresh block.map placed.mapped
      unfold Region.Apart at apart
      refine placed.frame (List.subset_append_left _ _) (List.subset_append_left _ _)
        fun k fromStart toEnd _ => allocated_outside heap.st page small ?_
      omega
    · rw [List.mem_singleton.mp new]
      exact placed_allocated heap.st page small
  apart := by
    rw [List.pairwise_append]
    refine ⟨inv.apart, List.pairwise_singleton _ _, fun block member other isNew => ?_⟩
    rw [List.mem_singleton.mp isNew]
    exact Or.symm (fresh block.map (inv.placed block member).mapped)

theorem release_total {heap : Heap} (inv : Inv config heap) {block : Block}
    (member : block ∈ heap.live) :
    ((heap.release block.ptr).live.map Block.len).sum + block.len =
      (heap.live.map Block.len).sum := by
  obtain ⟨found, before, behind, -, isPtr, parts, rest⟩ :=
    List.exists_of_eraseP (p := fun other => other.ptr == block.ptr) member (by simp)
  have same : found = block :=
    inv.eq_of_ptr (by rw [parts]; simp) member (by simpa using isPtr)
  subst same
  simp only [Heap.release, rest]
  simp only [parts, List.map_append, List.map_cons, List.sum_append, List.sum_cons]
  omega

theorem Inv.release {heap : Heap} (inv : Inv config heap) {block : Block}
    (member : block ∈ heap.live) (protects : List Region) :
    Inv config (Heap.release { heap with
      st := { heap.st with
        totalMem := heap.st.totalMem - block.len
        protects := heap.st.protects ++ protects } } block.ptr) := by
  have erased := List.eraseP_sublist (p := fun other => other.ptr == block.ptr) (l := heap.live)
  refine ⟨?_, Nat.le_trans (Nat.sub_le _ _) inv.limit, fun other kept => ?_,
    inv.apart.sublist erased⟩
  · have rest := release_total inv member
    rw [← inv.total] at rest
    exact Nat.sub_eq_of_eq_add rest.symm
  · exact (inv.placed other (erased.subset kept)).frame (fun _ => id)
      (List.subset_append_left _ _) fun _ _ _ _ => rfl

/-! ## Allocation -/

/-- What an allocating function returns: nothing, or a new block that was written to. -/
inductive Allocates (config : Config) (st : State) (map : Option Nat) (len : Nat) :
    Except Stop (State × Nat) → Prop
  | refused {reason : Stop} (refuses : reason.refuses = true) :
      Allocates config st map len (.error reason)
  | null : Allocates config st map len (.ok (st, 0))
  | block {page : Nat} {bytes : List UInt8} (mapped : map = some page)
      (fits : st.totalMem + len ≤ config.maxMem) (short : bytes.length ≤ len) :
      Allocates config st map len
        (.ok ((allocated config st page len).write (blockPtr config page len) bytes,
          blockPtr config page len))

theorem blockPtr_ne_zero (page len : Nat) : blockPtr config page len ≠ 0 := by
  have place := blockPtr_add config page len
  omega

theorem dislocatorAlloc_cases (st : State) (map : Option Nat) {len : Nat} (word : len < 2 ^ 64) :
    (∃ reason, reason.refuses = true ∧ dislocatorAlloc config st map len = .error reason) ∨
      dislocatorAlloc config st map len = .ok (st, 0) ∨
      ∃ page, map = some page ∧ st.totalMem + len ≤ config.maxMem ∧
        dislocatorAlloc config st map len =
          .ok (allocated config st page len, blockPtr config page len) := by
  have failed {reason : Stop} (refuses : reason.refuses = true) :
      (∃ reason', reason'.refuses = true ∧ allocFails config st reason = .error reason') ∨
        allocFails config st reason = .ok (st, 0) := by
    unfold allocFails
    split
    · exact .inl ⟨reason, refuses, rfl⟩
    · exact .inr rfl
  rw [dislocatorAlloc_eq st map word]
  split
  · next fits =>
    cases map with
    | none => exact (failed rfl).imp id .inl
    | some page => exact .inr (.inr ⟨page, rfl, fits, rfl⟩)
  · exact (failed rfl).imp id .inl

theorem allocates_dislocatorAlloc (st : State) (map : Option Nat) {len : Nat}
    (word : len < 2 ^ 64) : Allocates config st map len (dislocatorAlloc config st map len) := by
  rcases dislocatorAlloc_cases st map word with
    ⟨reason, refuses, same⟩ | same | ⟨page, mapped, fits, same⟩
  · rw [same]
    exact .refused refuses
  · rw [same]
    exact .null
  · have unwritten : (allocated config st page len).write (blockPtr config page len) [] =
        allocated config st page len := by rw [State.write, put_nil]
    rw [same, ← unwritten]
    exact .block mapped fits (Nat.zero_le _)

theorem allocates_clobber (st : State) (map : Option Nat) {len : Nat} (word : len < 2 ^ 64) :
    Allocates config st map len
      ((dislocatorAlloc config st map len).map fun result => clobber result len) := by
  rcases dislocatorAlloc_cases st map word with
    ⟨reason, refuses, same⟩ | same | ⟨page, mapped, fits, same⟩
  · rw [same]
    exact .refused refuses
  · rw [same]
    exact .null
  · rw [same, Except.map, clobber, if_neg (blockPtr_ne_zero page len)]
    exact .block mapped fits (by rw [List.length_replicate])

theorem allocates_calloc (st : State) (map : Option Nat) (elemLen elemCnt : Nat) :
    Allocates config st map (elemLen * elemCnt % 2 ^ 64)
      (calloc config st map elemLen elemCnt) := by
  rw [calloc]
  split
  · split
    · exact .null
    · exact .refused rfl
  · exact allocates_dislocatorAlloc st map (Nat.mod_lt _ (by decide))

theorem allocates_aligned (st : State) (map : Option Nat) (align : Nat) {len : Nat}
    (word : len < 2 ^ 64) (call : AlignedCall) :
    Allocates config st map (alignUp align len % 2 ^ 64) (call.run config st map align len) := by
  have posix : Allocates config st map (alignUp align len % 2 ^ 64)
      (AlignedCall.run config st map align len .posixMemalign) := by
    by_cases accepted : acceptsAlign align = true
    · by_cases zero : align = 0
      · subst zero
        rw [run_zero]
        split
        · exact .null
        · exact .refused rfl
      · rw [run_posixMemalign st map accepted zero word]
        split
        · exact .null
        · exact allocates_clobber st map (Nat.mod_lt _ (by decide))
    · rw [run_refused st map len accepted]
      exact .null
  cases call with
  | posixMemalign => exact posix
  | memalign =>
      rw [run_memalign]
      exact posix
  | alignedAlloc =>
      rw [run_alignedAlloc]
      split
      · exact .refused rfl
      · split
        · exact .null
        · exact posix

theorem hold_allocated (heap : Heap) (page len : Nat) (bytes : List UInt8) :
    heap.hold len ((allocated config heap.st page len).write (blockPtr config page len) bytes,
        blockPtr config page len) =
      (⟨(allocated config heap.st page len).write (blockPtr config page len) bytes,
        heap.live ++ [blockAt config page len]⟩, blockPtr config page len) := by
  have last : (allocated config heap.st page len).maps.getLastD ⟨0, 0⟩ =
      mapping config page len := by
    simp only [allocated, mapping, List.getLastD_concat]
  simp only [Heap.hold, if_neg (blockPtr_ne_zero page len), State.write, last, blockAt]

theorem Inv.hold {heap : Heap} (inv : Inv config heap) {map : Option Nat} {len : Nat}
    {outcome : Except Stop (State × Nat)} (answers : Answers config heap map len)
    (allocates : Allocates config heap.st map len outcome) {after : Heap} {ret : Nat}
    (held : outcome.map (heap.hold len) = .ok (after, ret)) : Inv config after := by
  cases allocates with
  | refused => exact nomatch held
  | null =>
      cases held
      exact inv
  | @block page bytes mapped fits short =>
      rw [Except.map, hold_allocated] at held
      cases held
      exact (inv.allocated fits (answers page mapped fits).2).write
        (List.mem_append_right _ List.mem_cons_self) (Nat.le_refl _) (Nat.add_le_add_left short _)

end SbFuzz.Utils.Dislocator
