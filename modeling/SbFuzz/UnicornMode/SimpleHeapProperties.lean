import SbFuzz.UnicornMode.SimpleHeap

/-! What the calls on `UnicornSimpleHeap` keep: chunks in regions of their own, the
contents of live chunks, and which pointers and accesses are accepted. -/

set_option autoImplicit false

namespace SbFuzz.UnicornMode.SimpleHeap

open Memory (pageSize pageUp Aligned)
open Systems

/-! ## The engine -/

/-- The pages of a region. -/
def InRegion (address size page : Nat) : Prop :=
  address / pageSize ≤ page ∧ page < address / pageSize + size % 2 ^ 64 / pageSize

/-- A region that was mapped. -/
structure Mapped (uc : Uc) (address size : Nat) (next : Uc) : Prop where
  positive : size % 2 ^ 64 ≠ 0
  whole : size % 2 ^ 64 % pageSize = 0
  unused : ∀ page, InRegion address size page → uc.pages page = false
  pages : ∀ page, next.pages page = true ↔ uc.pages page = true ∨ InRegion address size page
  zeros : ∀ byte, address ≤ byte → byte < address + size % 2 ^ 64 → next.memory byte = 0
  memory : ∀ byte, ¬ (address ≤ byte ∧ byte < address + size % 2 ^ 64) →
    next.memory byte = uc.memory byte

theorem Uc.memMap_spec {uc next : Uc} {config : Config} {address size : Nat}
    (mapped : uc.memMap config address size = some next) : Mapped uc address size next := by
  unfold memMap at mapped
  dsimp only at mapped
  split at mapped
  · cases mapped
  · next proper =>
    split at mapped
    · cases mapped
    · next whole =>
      split at mapped
      · cases mapped
      · next unused =>
        split at mapped
        · cases mapped
          refine ⟨fun zero => proper (.inl zero), not_not.mp whole, fun page inside => ?_,
            fun page => ?_, fun byte low high => if_pos ⟨low, high⟩, fun byte outside =>
            if_neg outside⟩
          · obtain ⟨low, high⟩ := inside
            by_contra used
            refine unused (List.any_eq_true.mpr ⟨page - address / pageSize, ?_, ?_⟩)
            · exact List.mem_range.mpr (by omega)
            · rw [Nat.add_sub_cancel' low]
              exact Bool.eq_true_of_not_eq_false used
          · dsimp only
            rw [Bool.or_eq_true, decide_eq_true_iff]
            exact Iff.rfl
        · cases mapped

theorem Uc.memUnmap_spec {uc next : Uc} {address size : Nat}
    (unmapped : uc.memUnmap address size = some next) :
    next.memory = uc.memory ∧
      ∀ page, next.pages page = true ↔ uc.pages page = true ∧ ¬ InRegion address size page := by
  unfold memUnmap at unmapped
  dsimp only at unmapped
  split at unmapped
  · cases unmapped
  · split at unmapped
    · cases unmapped
      refine ⟨rfl, fun page => ?_⟩
      dsimp only
      rw [Bool.and_eq_true, Bool.not_eq_true', decide_eq_false_iff_not]
      exact Iff.rfl
    · cases unmapped

theorem Uc.memUnmap_isSome {uc : Uc} {address size : Nat} (whole : size % 2 ^ 64 % pageSize = 0)
    (used : ∀ page, InRegion address size page → uc.pages page = true) :
    ∃ next, uc.memUnmap address size = some next := by
  unfold memUnmap
  dsimp only
  rw [if_neg (not_not.mpr whole), if_pos]
  · exact ⟨_, rfl⟩
  · refine List.all_eq_true.mpr fun k member => used _ ⟨Nat.le_add_right _ _, ?_⟩
    exact Nat.add_lt_add_left (List.mem_range.mp member) _

theorem Uc.memRead_eq {uc : Uc} {address size : Nat}
    (mapped : ∀ k < size, uc.isMapped (address + k) = true) :
    uc.memRead address size = some ((List.range size).map fun k => uc.memory (address + k)) :=
  if_pos (List.all_eq_true.mpr fun k member => mapped k (List.mem_range.mp member))

/-- The bytes are written, and nothing else changes. -/
structure Written (uc : Uc) (address : Nat) (data : List UInt8) (next : Uc) : Prop where
  pages : next.pages = uc.pages
  inside : ∀ k (below : k < data.length), next.memory (address + k) = data[k]
  outside : ∀ byte, (∀ k < data.length, byte ≠ address + k) → next.memory byte = uc.memory byte

theorem Uc.memWrite_spec {uc next : Uc} {address : Nat} {data : List UInt8}
    (written : uc.memWrite address data = some next) : Written uc address data next := by
  unfold memWrite at written
  split at written
  · cases written
    refine ⟨rfl, fun k below => ?_, fun byte apart => ?_⟩
    · dsimp only
      rw [if_pos (Nat.le_add_right _ _), Nat.add_sub_cancel_left, List.getD_eq_getElem _ _ below]
    · dsimp only
      split
      · next above =>
        refine List.getD_eq_default _ _ (Nat.le_of_not_lt fun below => ?_)
        exact apart _ below (Nat.add_sub_cancel' above).symm
      · rfl
  · cases written

theorem Uc.memWrite_isSome {uc : Uc} {address : Nat} {data : List UInt8}
    (mapped : ∀ k < data.length, uc.isMapped (address + k) = true) :
    ∃ next, uc.memWrite address data = some next :=
  ⟨_, if_pos (List.all_eq_true.mpr fun k member => mapped k (List.mem_range.mp member))⟩

/-! ## Heaps -/

/-- The pages that were mapped for a chunk. -/
def HeapChunk.Owns (chunk : HeapChunk) (page : Nat) : Prop :=
  InRegion chunk.actualAddr chunk.totalSize page

structure HeapChunk.Shaped (chunk : HeapChunk) : Prop where
  total : chunk.totalSize = totalChunkSize chunk.dataSize
  positive : 0 < chunk.dataSize
  aligned : Aligned chunk.actualAddr
  high : heapMinAddr ≤ chunk.actualAddr
  mapped : chunk.totalSize % 2 ^ 64 ≠ 0
  whole : chunk.totalSize % 2 ^ 64 % pageSize = 0

/-- Every live chunk has its pages to itself. -/
structure Heap.Valid (config : Config) (heap : Heap) : Prop where
  shaped : ∀ chunk ∈ heap.chunks, chunk.Shaped
  owned : ∀ chunk ∈ heap.chunks, ∀ page, chunk.Owns page → heap.uc.pages page = true
  apart : heap.chunks.Pairwise fun a b => ∀ page, a.Owns page → ¬ b.Owns page
  checked : heap.chunks ≠ [] → config.uafCheck ≠ none

theorem HeapChunk.Shaped.owns_first {chunk : HeapChunk} (shaped : chunk.Shaped) :
    chunk.Owns (chunk.actualAddr / pageSize) := by
  have positive := shaped.mapped
  have whole := shaped.whole
  refine ⟨Nat.le_refl _, Nat.lt_add_of_pos_right (Nat.div_pos ?_ (by decide))⟩
  exact Nat.le_of_dvd (Nat.pos_of_ne_zero positive) (Nat.dvd_of_mod_eq_zero whole)

theorem mem_addresses {addr : Nat} (member : addr ∈ addresses) :
    Aligned addr ∧ heapMinAddr ≤ addr := by
  obtain ⟨i, -, rfl⟩ := List.mem_range'.mp member
  refine ⟨?_, Nat.le_add_right _ _⟩
  unfold Aligned heapMinAddr pageSize
  omega

theorem Heap.findSpace_spec {heap : Heap} {config : Config} {size addr : Nat} {uc : Uc}
    (found : heap.findSpace config size = some (addr, uc)) :
    Aligned addr ∧ heapMinAddr ≤ addr ∧ Mapped heap.uc addr (totalChunkSize size) uc := by
  obtain ⟨candidate, member, mapped⟩ := List.exists_of_findSome?_eq_some found
  obtain ⟨next, mapped, same⟩ := Option.map_eq_some_iff.mp mapped
  cases same
  obtain ⟨aligned, high⟩ := mem_addresses member
  exact ⟨aligned, high, Uc.memMap_spec mapped⟩

/-- The new chunk, and the lists with it. -/
def Heap.add (heap : Heap) (uc : Uc) (uafCheck : Bool) (addr size : Nat) : Heap where
  uc
  chunks := heap.chunks ++ [⟨addr, totalChunkSize size, size⟩]
  chunksFreed :=
    if uafCheck then
      heap.chunksFreed.eraseP fun freed => freed.isBufferInChunk (addr + pageSize) 1
    else heap.chunksFreed

theorem Heap.malloc_cases (config : Config) (heap : Heap) (size : Nat) :
    heap.malloc config size = (heap, .ok 0) ∨
    ∃ addr uc, size ≠ 0 ∧ heap.findSpace config size = some (addr, uc) ∧
      ((config.uafCheck = none ∧
        heap.malloc config size = ({ heap with uc }, .error .attributeError)) ∨
      ∃ uafCheck, config.uafCheck = some uafCheck ∧
        heap.malloc config size = (heap.add uc uafCheck addr size, .ok (addr + pageSize))) := by
  unfold malloc
  split
  · exact .inl rfl
  · next positive =>
    split
    · exact .inl rfl
    · next addr uc found =>
      refine .inr ⟨addr, uc, positive, found, ?_⟩
      cases check : config.uafCheck with
      | none => exact .inl ⟨rfl, rfl⟩
      | some uafCheck => exact .inr ⟨uafCheck, rfl, rfl⟩

/-- The heap without a chunk that was unmapped. -/
def Heap.release (heap : Heap) (uc : Uc) (uafCheck : Bool) (chunk : HeapChunk) : Heap where
  uc
  chunks := heap.chunks.erase chunk
  chunksFreed := if uafCheck then heap.chunksFreed ++ [chunk] else heap.chunksFreed

/-- The engine without the pages of a chunk. -/
structure HeapChunk.Unmapped (chunk : HeapChunk) (uc next : Uc) : Prop where
  memory : next.memory = uc.memory
  pages : ∀ page, next.pages page = true ↔ uc.pages page = true ∧ ¬ chunk.Owns page

namespace Heap.Valid

variable {config : Config} {heap : Heap}

theorem memUnmap_chunk (valid : heap.Valid config) {chunk : HeapChunk}
    (member : chunk ∈ heap.chunks) :
    ∃ next, heap.uc.memUnmap chunk.actualAddr chunk.totalSize = some next ∧
      chunk.Unmapped heap.uc next := by
  have whole := (valid.shaped chunk member).whole
  obtain ⟨next, unmapped⟩ := Uc.memUnmap_isSome whole (valid.owned chunk member)
  obtain ⟨memory, pages⟩ := Uc.memUnmap_spec unmapped
  exact ⟨next, unmapped, memory, pages⟩

/-- Every way in which `free` ends. -/
theorem free_cases (valid : heap.Valid config) (addr : Nat) :
    (addr = 0 ∧ heap.free config addr = (heap, .ok false)) ∨
    ((∀ chunk : HeapChunk, chunk ∈ heap.chunks → chunk.isBufferInChunk addr 1 = false) ∧
      heap.free config addr = (heap, .error .crash)) ∨
    ∃ chunk ∈ heap.chunks, chunk.isBufferInChunk addr 1 = true ∧
      ((config.debugPrint = true ∧ heap.free config addr = (heap, .error .attributeError)) ∨
      ∃ uc uafCheck, config.debugPrint = false ∧ config.uafCheck = some uafCheck ∧
        chunk.Unmapped heap.uc uc ∧
        heap.free config addr = (heap.release uc uafCheck chunk, .ok true)) := by
  unfold free
  split
  · next zero => exact .inl ⟨zero, rfl⟩
  · split
    · next missing =>
      refine .inr (.inl ⟨fun chunk member => ?_, rfl⟩)
      exact Bool.eq_false_of_not_eq_true (List.find?_eq_none.mp missing chunk member)
    · next chunk found =>
      have member := List.mem_of_find?_eq_some found
      have inside : chunk.isBufferInChunk addr 1 = true :=
        List.find?_some (p := fun chunk : HeapChunk => chunk.isBufferInChunk addr 1) found
      refine .inr (.inr ⟨chunk, member, inside, ?_⟩)
      cases debug : config.debugPrint with
      | true => exact .inl ⟨rfl, rfl⟩
      | false =>
        obtain ⟨uc, unmapped, region⟩ := valid.memUnmap_chunk member
        obtain ⟨uafCheck, check⟩ :=
          Option.ne_none_iff_exists'.mp (valid.checked (List.ne_nil_of_mem member))
        rw [unmapped, check]
        exact .inr ⟨uc, uafCheck, rfl, rfl, region, rfl⟩

/-! ### What the calls keep -/

theorem of_pages (valid : heap.Valid config) {uc : Uc}
    (more : ∀ page, heap.uc.pages page = true → uc.pages page = true) :
    Heap.Valid config { heap with uc } where
  shaped := valid.shaped
  owned chunk member page owns := more page (valid.owned chunk member page owns)
  apart := valid.apart
  checked := valid.checked

theorem add (valid : heap.Valid config) {size addr : Nat} {uc : Uc} {uafCheck : Bool}
    (positive : size ≠ 0) (found : heap.findSpace config size = some (addr, uc))
    (check : config.uafCheck = some uafCheck) : (heap.add uc uafCheck addr size).Valid config := by
  obtain ⟨aligned, high, mapped⟩ := Heap.findSpace_spec found
  constructor
  case shaped =>
    intro chunk member
    rcases List.mem_append.mp member with old | new
    · exact valid.shaped chunk old
    · cases List.mem_singleton.mp new
      exact ⟨rfl, Nat.pos_of_ne_zero positive, aligned, high, mapped.positive, mapped.whole⟩
  case owned =>
    intro chunk member page owns
    rcases List.mem_append.mp member with old | new
    · exact (mapped.pages page).mpr (.inl (valid.owned chunk old page owns))
    · cases List.mem_singleton.mp new
      exact (mapped.pages page).mpr (.inr owns)
  case apart =>
    refine List.pairwise_append.mpr ⟨valid.apart, List.pairwise_singleton _ _, ?_⟩
    intro chunk old new member page owns shared
    cases List.mem_singleton.mp member
    have unused := mapped.unused page shared
    rw [valid.owned chunk old page owns] at unused
    cases unused
  case checked =>
    intro _ missing
    rw [check] at missing
    cases missing

theorem apart_of_mem_erase (valid : heap.Valid config) {chunk other : HeapChunk}
    (member : chunk ∈ heap.chunks) (left : other ∈ heap.chunks.erase chunk) :
    ∀ page, other.Owns page → ¬ chunk.Owns page := by
  have reordered : (chunk :: heap.chunks.erase chunk).Pairwise
      fun a b => ∀ page, a.Owns page → ¬ b.Owns page :=
    (List.perm_cons_erase member).pairwise valid.apart fun apart page inside shared =>
      apart page shared inside
  intro page inside shared
  exact List.rel_of_pairwise_cons reordered left page shared inside

theorem release (valid : heap.Valid config) {uc : Uc} {uafCheck : Bool} {chunk : HeapChunk}
    (member : chunk ∈ heap.chunks) (region : chunk.Unmapped heap.uc uc) :
    (heap.release uc uafCheck chunk).Valid config := by
  constructor
  case shaped =>
    intro other left
    exact valid.shaped other (List.mem_of_mem_erase left)
  case owned =>
    intro other left page owns
    refine (region.pages page).mpr ⟨valid.owned other (List.mem_of_mem_erase left) page owns, ?_⟩
    exact valid.apart_of_mem_erase member left page owns
  case apart => exact valid.apart.sublist List.erase_sublist
  case checked =>
    intro _
    exact valid.checked (List.ne_nil_of_mem member)

theorem malloc (valid : heap.Valid config) (size : Nat) :
    (heap.malloc config size).1.Valid config := by
  obtain same | ⟨addr, uc, positive, found, ⟨-, same⟩ | ⟨uafCheck, check, same⟩⟩ :=
    Heap.malloc_cases config heap size
  · rw [same]
    exact valid
  · rw [same]
    obtain ⟨-, -, mapped⟩ := Heap.findSpace_spec found
    exact valid.of_pages fun page used => (mapped.pages page).mpr (.inl used)
  · rw [same]
    exact valid.add positive found check

theorem free (valid : heap.Valid config) (addr : Nat) : (heap.free config addr).1.Valid config := by
  obtain ⟨-, same⟩ | ⟨-, same⟩ | ⟨chunk, member, -, ⟨-, same⟩ | ⟨uc, check, -, -, region, same⟩⟩ :=
    valid.free_cases addr
  · rw [same]
    exact valid
  · rw [same]
    exact valid
  · rw [same]
    exact valid
  · rw [same]
    exact valid.release member region

theorem memWrite (valid : heap.Valid config) {address : Nat} {data : List UInt8} {uc : Uc}
    (written : heap.uc.memWrite address data = some uc) : Heap.Valid config { heap with uc } := by
  have pages := (Uc.memWrite_spec written).pages
  exact valid.of_pages fun page used => pages ▸ used

theorem replace (valid : heap.Valid config) (oldChunk : HeapChunk) (newChunkAddr : Nat) :
    (heap.replace config oldChunk newChunkAddr).1.Valid config := by
  unfold Heap.replace
  split
  · exact valid
  · split
    · exact valid
    · split
      · exact valid
      · next uc written =>
        have freed := (valid.memWrite written).free oldChunk.dataAddr
        split
        · next same => exact (congrArg Prod.fst same) ▸ freed
        · next same => exact (congrArg Prod.fst same) ▸ freed

theorem apply (valid : heap.Valid config) (action : Action) : (heap.apply config action).Valid config := by
  cases action with
  | malloc size => exact valid.malloc size
  | calloc size count => exact valid.malloc (size * count)
  | realloc ptr newSize =>
    have allocated := valid.malloc newSize
    unfold Heap.apply Heap.realloc
    dsimp only
    split
    · next same => exact (congrArg Prod.fst same) ▸ allocated
    · next same =>
      rw [same] at allocated
      split
      · exact allocated
      · exact allocated.replace _ _
  | free addr => exact valid.free addr
  | store address data =>
    unfold Heap.apply
    dsimp only
    split
    · exact valid
    · next written => exact valid.memWrite written

end Heap.Valid

/-- Chunks have their pages to themselves after any calls and stores. -/
theorem valid_of_reachable {config : Config} {uc : Uc} {heap : Heap}
    (reachable : (simpleHeap config uc).Reachable heap) : heap.Valid config := by
  refine (simpleHeap config uc).reachable_invariant (Heap.Valid config) ?_ ?_ reachable
  · exact ⟨fun _ member => (List.not_mem_nil member).elim,
      fun _ member => (List.not_mem_nil member).elim, List.Pairwise.nil, fun some => (some rfl).elim⟩
  · intro state action next valid stepped
    exact Option.some.inj stepped ▸ valid.apply action

/-! ## Which pointers are freed -/

theorem HeapChunk.isBufferInChunk_iff {chunk : HeapChunk} {addr size : Nat} :
    chunk.isBufferInChunk addr size = true ↔
      chunk.dataAddr ≤ addr ∧ addr + size ≤ chunk.dataAddr + chunk.dataSize := decide_eq_true_iff

/-- The address that `malloc` returned for a live chunk. -/
def Heap.Live (heap : Heap) (addr : Nat) : Prop := ∃ chunk ∈ heap.chunks, chunk.dataAddr = addr

instance (heap : Heap) (addr : Nat) : Decidable (heap.Live addr) :=
  inferInstanceAs (Decidable (∃ chunk ∈ _, _))

theorem Heap.Valid.isBufferInChunk_dataAddr {config : Config} {heap : Heap}
    (valid : heap.Valid config) {chunk : HeapChunk} (member : chunk ∈ heap.chunks) :
    chunk.isBufferInChunk chunk.dataAddr 1 = true := by
  have positive := (valid.shaped chunk member).positive
  exact HeapChunk.isBufferInChunk_iff.mpr ⟨Nat.le_refl _, Nat.add_le_add_left positive _⟩

theorem Heap.Live.ne_zero {heap : Heap} {addr : Nat} (live : heap.Live addr) : addr ≠ 0 := by
  obtain ⟨chunk, -, rfl⟩ := live
  exact Nat.ne_of_gt (Nat.lt_of_lt_of_le (by decide) (Nat.le_add_left pageSize _))

/-- `free` succeeds for the pointers to live chunks, and else changes nothing. -/
structure Heap.FreesExactly (heap : Heap) (config : Config) (addr : Nat) : Prop where
  succeeds : (heap.free config addr).2 = .ok true ↔ heap.Live addr
  keeps : (heap.free config addr).2 ≠ .ok true →
    (heap.free config addr).1.chunks = heap.chunks ∧
      (heap.free config addr).1.chunksFreed = heap.chunksFreed ∧
      (heap.free config addr).1.uc.pages = heap.uc.pages

/-- In the data of a live chunk only the first address is freed, and nothing is printed where
a chunk is freed. -/
def Heap.FreeProper (heap : Heap) (config : Config) (addr : Nat) : Prop :=
  (config.debugPrint = false →
    ∀ chunk ∈ heap.chunks, chunk.isBufferInChunk addr 1 = true → heap.Live addr) ∧
  (config.debugPrint = true → ¬ heap.Live addr)

theorem Heap.freesExactly_of_same {config : Config} {heap : Heap} {addr : Nat}
    (same : (heap.free config addr).1 = heap)
    (failed : (heap.free config addr).2 ≠ .ok true) (dead : ¬ heap.Live addr) :
    heap.FreesExactly config addr where
  succeeds := ⟨fun freed => (failed freed).elim, fun live => (dead live).elim⟩
  keeps _ := ⟨congrArg Heap.chunks same, congrArg Heap.chunksFreed same,
    congrArg (fun heap => heap.uc.pages) same⟩

/-- What `free` does with a pointer is right if and only if the pointer is not an inner one of
a live chunk, with printing off, or not one of a live chunk at all, with printing on. -/
theorem freesExactly_iff {config : Config} {uc : Uc} {heap : Heap}
    (reachable : (simpleHeap config uc).Reachable heap) (addr : Nat) :
    heap.FreesExactly config addr ↔ heap.FreeProper config addr := by
  have valid := valid_of_reachable reachable
  obtain ⟨zero, same⟩ | ⟨missing, same⟩ | ⟨chunk, member, inside, ⟨debug, same⟩ |
    ⟨uc, uafCheck, debug, -, -, same⟩⟩ := valid.free_cases addr
  · have dead : ¬ heap.Live addr := fun live => live.ne_zero zero
    have exactly : heap.FreesExactly config addr :=
      Heap.freesExactly_of_same (by rw [same]) (by rw [same]; simp) dead
    refine iff_of_true exactly ⟨fun _ chunk member inside => ?_, fun _ => dead⟩
    have low := (HeapChunk.isBufferInChunk_iff.mp inside).1
    have positive := Heap.Live.ne_zero ⟨chunk, member, rfl⟩
    exact (positive (Nat.le_zero.mp (zero ▸ low))).elim
  · have dead : ¬ heap.Live addr := by
      intro live
      obtain ⟨chunk, member, rfl⟩ := live
      have outside := missing chunk member
      rw [valid.isBufferInChunk_dataAddr member] at outside
      cases outside
    have exactly : heap.FreesExactly config addr :=
      Heap.freesExactly_of_same (by rw [same]) (by rw [same]; simp) dead
    refine iff_of_true exactly ⟨fun _ chunk member inside => ?_, fun _ => dead⟩
    rw [missing chunk member] at inside
    cases inside
  · constructor
    · intro exactly
      refine ⟨fun silent => ?_, fun _ live => ?_⟩
      · rw [debug] at silent
        cases silent
      · have freed := exactly.succeeds.mpr live
        rw [same] at freed
        cases freed
    · intro proper
      exact Heap.freesExactly_of_same (by rw [same]) (by rw [same]; simp) (proper.2 debug)
  · have freed : (heap.free config addr).2 = .ok true := by rw [same]
    constructor
    · intro exactly
      refine ⟨fun _ _ _ _ => exactly.succeeds.mp freed, fun loud => ?_⟩
      rw [debug] at loud
      cases loud
    · intro proper
      have live := proper.1 debug chunk member inside
      exact ⟨iff_of_true freed live, fun failed => (failed freed).elim⟩

/-- A pointer to the second of eight bytes. -/
theorem inner_pointer_freed : ∃ heap,
    (simpleHeap ⟨some false, false, some, fun _ => true⟩ .empty).Reachable heap ∧
      ¬ heap.FreesExactly ⟨some false, false, some, fun _ => true⟩ 0x3001 := by
  refine ⟨_, ⟨[.malloc 8], rfl⟩, fun exactly => ?_⟩
  have live := exactly.succeeds.mp (by decide +kernel)
  revert live
  decide +kernel

theorem freesExactly_eight : ∃ heap : Heap,
    (simpleHeap ⟨some false, false, some, fun _ => true⟩ .empty).Reachable heap ∧
      heap.FreesExactly ⟨some false, false, some, fun _ => true⟩ 0x3000 := by
  have reachable : (simpleHeap ⟨some false, false, some, fun _ => true⟩ .empty).Reachable _ :=
    ⟨[.malloc 8], rfl⟩
  refine ⟨_, reachable, (freesExactly_iff reachable 0x3000).mpr ?_⟩
  unfold Heap.FreeProper
  decide +kernel

end SbFuzz.UnicornMode.SimpleHeap
