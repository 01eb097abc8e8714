import SbFuzz.Utils.DislocatorHeap

/-! Runs of a target on the heap of libdislocator: the accounting and the guard pages stay right as
long as no block is released that is too long for the arithmetic of `free`. -/

set_option autoImplicit false

namespace SbFuzz.Utils.Dislocator

open SbFuzz.Memory

variable {config : Config}

/-! ## Release -/

theorem tailLoop_error {mem : Cells} {ptr rlen fuel len : Nat} {reason : Stop}
    (stopped : tailLoop mem ptr rlen fuel len = .error reason) : reason.refuses = false := by
  induction fuel generalizing len with
  | zero =>
      cases stopped
      rfl
  | succ fuel ih =>
      rw [tailLoop] at stopped
      split at stopped
      · split at stopped
        · cases stopped
          rfl
        · exact ih stopped
      · cases stopped

/-- When `free` ends the process, it is not over a request. -/
theorem free_error {st : State} {block : Block} (placed : Placed config st block) {reason : Stop}
    (stopped : Dislocator.free config st block.ptr = .error reason) : reason.refuses = false := by
  rw [free_placed placed] at stopped
  cases checked : checkTail config st block.ptr (block.len % 2 ^ 32) with
  | error other =>
      rw [checked] at stopped
      cases stopped
      rw [checkTail] at checked
      split at checked
      · exact tailLoop_error checked
      · cases checked
  | ok len =>
      rw [checked] at stopped
      simp only [Except.bind, State.mprotect] at stopped
      split at stopped
      · cases stopped
      · cases stopped
        rfl

theorem release_of_absent {heap : Heap} {ptr : Nat} (absent : ∀ block ∈ heap.live, block.ptr ≠ ptr) :
    heap.release ptr = heap := by
  have same : heap.live.eraseP (fun block => block.ptr == ptr) = heap.live :=
    List.eraseP_of_forall_not fun block member => by simpa using absent block member
  simp only [Heap.release, same]

theorem served_free_iff {heap : Heap} (inv : Inv config heap) {block : Block}
    (member : block ∈ heap.live) :
    Served config heap (.free block.ptr) (heap.call config (.free block.ptr)) ↔
      block.Releasable config := by
  have placed := inv.placed block member
  have counted := inv.counted member
  constructor
  · intro served
    by_contra wide
    cases outcome : Dislocator.free config heap.st block.ptr with
    | error reason =>
        have refuses := served.returns reason (by rw [Heap.call, outcome]; rfl)
        rw [free_error placed outcome] at refuses
        exact Bool.false_ne_true refuses
    | ok after =>
        have returned : heap.call config (.free block.ptr) =
            .ok ({ heap with st := after }.release block.ptr, 0) := by
          rw [Heap.call, outcome]
          rfl
        have total := (served.sound _ _ returned).total
        have protects := served.freed block member rfl _ _ returned
        have rest := release_total inv member
        rw [← inv.total] at rest
        obtain ⟨-, region, appended, missed⟩ :=
          free_misses placed wide counted inv.limit outcome
        rcases missed with length | pages
        · exact length ((congrArg (· + block.len) total).trans rest)
        · have isLast : heap.st.protects ++ [region] = heap.st.protects ++ [block.dataPages] :=
            appended.symm.trans protects
          exact pages (List.singleton_inj.mp (List.append_cancel_left isLast))
  · intro releasable
    have outcome := free_eq placed releasable counted inv.limit
    have returned : heap.call config (.free block.ptr) = .ok (Heap.release { heap with
        st := { heap.st with
          totalMem := heap.st.totalMem - block.len
          protects := heap.st.protects ++ [block.dataPages] } } block.ptr, 0) := by
      rw [Heap.call, outcome]
      rfl
    rw [returned]
    refine ⟨fun reason same => (nomatch same), fun after ret same => ?_,
      fun other otherMember same after ret outcome => ?_, fun _ _ _ _ same => (nomatch same)⟩
    · cases same
      exact (inv.release member _).sound
    · cases outcome
      have isBlock : block = other := inv.eq_of_ptr member otherMember (Call.free.inj same)
      rw [← isBlock]
      rfl

/-! ## Reallocation -/

/-- The heap behind the allocation of a block that holds clobber bytes. -/
def Heap.grow (config : Config) (heap : Heap) (page len : Nat) : Heap :=
  ⟨(allocated config heap.st page len).write (blockPtr config page len)
      (List.replicate len allocClobber), heap.live ++ [blockAt config page len]⟩

/-- The heap behind the copy of an old block to the new one. -/
def Heap.copy (config : Config) (heap : Heap) (page len : Nat) (block : Block) : Heap :=
  let grown := heap.grow config page len
  { grown with
    st := grown.st.write (blockPtr config page len)
      ((List.range (min len (block.len % 2 ^ 32))).map fun k => grown.st.mem (block.ptr + k)) }

theorem Inv.grow {heap : Heap} (inv : Inv config heap) {page len : Nat}
    (fits : heap.st.totalMem + len ≤ config.maxMem)
    (fresh : ∀ region ∈ heap.st.maps, (mapping config page len).Apart region) :
    Inv config (heap.grow config page len) :=
  (inv.allocated fits fresh).write (List.mem_append_right _ List.mem_cons_self) (Nat.le_refl _)
    (by rw [List.length_replicate]; exact Nat.le_refl _)

theorem Inv.copy {heap : Heap} (inv : Inv config heap) {page len : Nat}
    (fits : heap.st.totalMem + len ≤ config.maxMem)
    (fresh : ∀ region ∈ heap.st.maps, (mapping config page len).Apart region) (block : Block) :
    Inv config (heap.copy config page len block) :=
  (inv.grow fits fresh).write (List.mem_append_right _ List.mem_cons_self) (Nat.le_refl _)
    (by
      rw [List.length_map, List.length_range]
      exact Nat.add_le_add_left (Nat.min_le_left _ _) _)

/-- The old blocks are not written to. -/
theorem grow_mem {heap : Heap} {page len k : Nat} (small : len ≤ config.maxMem)
    (outside : k < (mapping config page len).start ∨
      (mapping config page len).start + (mapping config page len).len ≤ k) :
    (heap.grow config page len).st.mem k = heap.st.mem k := by
  have place := blockPtr_add config page len
  have longer := (le_roundLen small).1
  refine Eq.trans ?_ (allocated_outside heap.st page small outside)
  unfold guardPage at place
  simp only [mapping] at outside
  rcases outside with before | behind
  · exact put_before _ _ (by omega)
  · exact put_outside _ (by rw [List.length_replicate]; omega)

theorem copy_mem (heap : Heap) {page len k : Nat} {block : Block}
    (inside : k < min len (block.len % 2 ^ 32)) :
    (heap.copy config page len block).st.mem (blockPtr config page len + k) =
      (heap.grow config page len).st.mem (block.ptr + k) := by
  refine (put_at _ _ (by rwa [List.length_map, List.length_range])).trans ?_
  rw [List.getElem_map, List.getElem_range]

theorem malloc_some (heap : Heap) (page : Nat) {len : Nat}
    (fits : heap.st.totalMem + len ≤ config.maxMem) :
    malloc config heap.st (some page) len =
      .ok ((heap.grow config page len).st, blockPtr config page len) := by
  have limit := maxMem_lt config
  rw [malloc, dislocatorAlloc_eq _ _ (by omega), if_pos fits]
  exact congrArg Except.ok (by rw [clobber, if_neg (blockPtr_ne_zero page len)]; rfl)

theorem realloc_ok {st after : State} {map : Option Nat} {ptr len ret : Nat}
    (allocates : malloc config st map len = .ok (after, ret)) (some_ : ret ≠ 0) (nonNull : ptr ≠ 0)
    (canary : after.ptrC ptr = config.allocCanary) :
    realloc config st map ptr len =
      (Dislocator.free config (after.write ret
        ((List.range (min len (after.ptrL ptr))).map fun k => after.mem (ptr + k))) ptr).map
          fun st => (st, ret) := by
  rw [realloc, allocates]
  simp only [bind, Except.bind]
  rw [if_pos ⟨some_, nonNull⟩, if_neg (not_not.mpr canary)]
  cases Dislocator.free config (after.write ret
    ((List.range (min len (after.ptrL ptr))).map fun k => after.mem (ptr + k))) ptr with
  | error reason => rfl
  | ok freed => rfl

theorem realloc_some {heap : Heap} (inv : Inv config heap) {page len : Nat} {block : Block}
    (member : block ∈ heap.live) (fits : heap.st.totalMem + len ≤ config.maxMem)
    (fresh : ∀ region ∈ heap.st.maps, (mapping config page len).Apart region) :
    realloc config heap.st (some page) block.ptr len =
      (Dislocator.free config (heap.copy config page len block).st block.ptr).map fun st =>
        (st, blockPtr config page len) := by
  have placed := (inv.grow fits fresh).placed block (List.mem_append_left _ member)
  rw [realloc_ok (malloc_some heap page fits) (blockPtr_ne_zero page len) (inv.ptr_ne_zero member)
    placed.canary, placed.length, Heap.copy]

/-- Without a new block the old one stays as it is. -/
theorem realloc_cases (st : State) (map : Option Nat) (ptr : Nat) {len : Nat}
    (word : len < 2 ^ 64) (fails : map = none ∨ ¬ st.totalMem + len ≤ config.maxMem) :
    (∃ reason, reason.refuses = true ∧ realloc config st map ptr len = .error reason) ∨
      realloc config st map ptr len = .ok (st, 0) := by
  rcases @dislocatorAlloc_cases config st map len word with
    ⟨reason, refuses, same⟩ | same | ⟨page, mapped, fits, -⟩
  · refine .inl ⟨reason, refuses, ?_⟩
    rw [realloc, malloc, same]
    rfl
  · refine .inr ?_
    rw [realloc, malloc, same]
    rfl
  · rcases fails with unmapped | exceeded
    · exact nomatch unmapped.symm.trans mapped
    · exact absurd fits exceeded

theorem call_realloc_some {heap : Heap} (inv : Inv config heap) {page : Nat} {len : UInt64}
    {block : Block} (member : block ∈ heap.live)
    (fits : heap.st.totalMem + len.toNat ≤ config.maxMem)
    (fresh : ∀ region ∈ heap.st.maps, (mapping config page len.toNat).Apart region)
    {after : State}
    (freed : Dislocator.free config (heap.copy config page len.toNat block).st block.ptr =
      .ok after)
    (maps : after.maps = (heap.copy config page len.toNat block).st.maps) :
    heap.call config (.realloc (some page) block.ptr len) =
      .ok ({ heap.copy config page len.toNat block with st := after }.release block.ptr,
        blockPtr config page len.toNat) := by
  have last : after.maps.getLastD ⟨0, 0⟩ = mapping config page len.toNat := by
    rw [maps]
    exact List.getLastD_concat
  rw [Heap.call, realloc_some inv member fits fresh, freed]
  simp only [Except.map, Heap.hold, if_neg (blockPtr_ne_zero page len.toNat), last]
  rfl

theorem served_realloc_iff {heap : Heap} (inv : Inv config heap) {page : Nat} {len : UInt64}
    {block : Block} (member : block ∈ heap.live)
    (fits : heap.st.totalMem + len.toNat ≤ config.maxMem)
    (fresh : ∀ region ∈ heap.st.maps, (mapping config page len.toNat).Apart region) :
    Served config heap (.realloc (some page) block.ptr len)
        (heap.call config (.realloc (some page) block.ptr len)) ↔
      block.Releasable config := by
  have copyInv := inv.copy fits fresh block
  have copyMember : block ∈ (heap.copy config page len.toNat block).live :=
    List.mem_append_left _ member
  have placed := copyInv.placed block copyMember
  have counted := copyInv.counted copyMember
  have guards : (heap.copy config page len.toNat block).st.protects =
      heap.st.protects ++ [⟨guardPage config page len.toNat, pageSize⟩] := rfl
  constructor
  · intro served
    by_contra wide
    cases outcome : Dislocator.free config (heap.copy config page len.toNat block).st block.ptr with
    | error reason =>
        have refuses := served.returns reason (by
          rw [Heap.call, realloc_some inv member fits fresh, outcome]
          rfl)
        rw [free_error placed outcome] at refuses
        exact Bool.false_ne_true refuses
    | ok after =>
        obtain ⟨maps, region, appended, missed⟩ :=
          free_misses placed wide counted copyInv.limit outcome
        have returned := call_realloc_some inv member fits fresh outcome maps
        have total := (served.sound _ _ returned).total
        obtain ⟨⟨guard, protects⟩, -⟩ := served.reallocated block member _ _ rfl _ _ returned
          (blockPtr_ne_zero page len.toNat)
        have rest := release_total copyInv copyMember
        rw [← copyInv.total] at rest
        rcases missed with length | pages
        · exact length ((congrArg (· + block.len) total).trans rest)
        · rw [guards, List.append_assoc] at appended
          have isLast := List.append_cancel_left (appended.symm.trans protects)
          exact pages (List.cons.inj (List.cons.inj isLast).2).1
  · intro releasable
    have outcome := free_eq placed releasable counted copyInv.limit
    rw [call_realloc_some inv member fits fresh outcome rfl]
    refine ⟨fun reason same => (nomatch same), fun after ret same => ?_,
      fun _ _ same => (nomatch same), fun other otherMember map otherLen same after ret outcome _ =>
        ?_⟩
    · cases same
      exact (copyInv.release copyMember _).sound
    · cases outcome
      obtain ⟨-, samePtr, sameLen⟩ := Call.realloc.inj same
      have isBlock : block = other := inv.eq_of_ptr member otherMember samePtr
      subst isBlock sameLen
      refine ⟨⟨guardPage config page len.toNat, ?_⟩, fun k inside => ?_⟩
      · simp only [Heap.release, guards, List.append_assoc, List.singleton_append]
      · have old := inv.placed block member
        have bounds := old.bounds
        have longer := (le_roundLen old.small).1
        have apart := fresh block.map old.mapped
        unfold Region.Apart at apart
        have word : block.len % 2 ^ 32 = block.len := by
          unfold Block.Releasable at releasable
          exact Nat.mod_eq_of_lt (by omega)
        rw [Nat.min_comm, ← word] at inside
        refine (copy_mem heap inside).trans (grow_mem (Nat.le_trans (Nat.le_add_left _ _) fits) ?_)
        omega

/-! ## Calls -/

theorem hold_error {heap : Heap} {map : Option Nat} {len : Nat}
    {outcome : Except Stop (State × Nat)} (allocates : Allocates config heap.st map len outcome)
    {reason : Stop} (stopped : outcome.map (heap.hold len) = .error reason) :
    reason.refuses = true := by
  cases allocates with
  | refused refuses =>
      cases stopped
      exact refuses
  | null => exact nomatch stopped
  | block => exact nomatch stopped

theorem allocates_malloc (st : State) (map : Option Nat) (len : UInt64) :
    Allocates config st map len.toNat (malloc config st map len.toNat) :=
  allocates_clobber st map len.toNat_lt

theorem call_realloc_null {heap : Heap} (inv : Inv config heap) {map : Option Nat} {len : UInt64}
    (answers : Answers config heap map len.toNat) :
    heap.call config (.realloc map 0 len) = heap.call config (.malloc map len) := by
  have same : realloc config heap.st map 0 len.toNat = malloc config heap.st map len.toNat := by
    rw [realloc]
    cases malloc config heap.st map len.toNat with
    | error reason => rfl
    | ok result => simp [bind, Except.bind, pure, Except.pure]
  rw [Heap.call, Heap.call, same]
  cases outcome : malloc config heap.st map len.toNat with
  | error reason => rfl
  | ok result =>
      have keeps : Inv config (heap.hold len.toNat result).1 :=
        inv.hold answers (allocates_malloc heap.st map len) (by rw [outcome]; rfl)
      have kept : (heap.hold len.toNat result).1.release 0 = (heap.hold len.toNat result).1 :=
        release_of_absent fun block member => keeps.ptr_ne_zero member
      simp only [Except.map, kept, ite_self]

/-- What one call does, while the invariant holds. -/
structure Steps (config : Config) (heap : Heap) (call : Call) : Prop where
  served_iff : Served config heap call (heap.call config call) ↔ call.Fits config heap
  keeps : call.Fits config heap →
    ∀ after ret, heap.call config call = .ok (after, ret) → Inv config after

/-- A call that releases no block. -/
theorem steps_of_keeps {heap : Heap} (inv : Inv config heap) {call : Call}
    (fits : call.Fits config heap)
    (returns : ∀ reason, heap.call config call = .error reason → reason.refuses = true)
    (keeps : ∀ after ret, heap.call config call = .ok (after, ret) → Inv config after)
    (notFree : ∀ ptr, ptr ≠ 0 → call ≠ .free ptr)
    (null : ∀ map ptr len, ptr ≠ 0 → call = .realloc map ptr len →
      ∀ after ret, heap.call config call = .ok (after, ret) → ret = 0) :
    Steps config heap call where
  served_iff := iff_of_true
    { returns := returns
      sound := fun after ret returned => (keeps after ret returned).sound
      freed := fun _ member same => absurd same (notFree _ (inv.ptr_ne_zero member))
      reallocated := fun _ member _ _ same after ret returned some_ =>
        absurd (null _ _ _ (inv.ptr_ne_zero member) same after ret returned) some_ } fits
  keeps := fun _ => keeps

theorem steps_allocates {heap : Heap} (inv : Inv config heap) {call : Call} {map : Option Nat}
    {len : Nat} {outcome : Except Stop (State × Nat)} (answers : Answers config heap map len)
    (allocates : Allocates config heap.st map len outcome)
    (called : heap.call config call = outcome.map (heap.hold len))
    (fits : call.Fits config heap) (notFree : ∀ ptr, ptr ≠ 0 → call ≠ .free ptr)
    (notRealloc : ∀ map ptr len, ptr ≠ 0 → call ≠ .realloc map ptr len) :
    Steps config heap call := by
  refine steps_of_keeps inv fits ?_ ?_ notFree fun map ptr len nonNull same =>
    absurd same (notRealloc map ptr len nonNull)
  · rw [called]
    exact fun reason => hold_error allocates
  · rw [called]
    exact fun after ret => inv.hold answers allocates

theorem steps_free {heap : Heap} (inv : Inv config heap) {ptr : Nat}
    (owned : ptr = 0 ∨ ∃ block ∈ heap.live, block.ptr = ptr) : Steps config heap (.free ptr) := by
  rcases owned with rfl | ⟨block, member, rfl⟩
  · have absent := release_of_absent fun _ member => inv.ptr_ne_zero member
    have called : heap.call config (.free 0) = .ok (heap, 0) :=
      congrArg (fun heap => Except.ok (heap, 0)) absent
    have fits : Call.Fits config heap (.free 0) := fun block member same =>
      absurd same (inv.ptr_ne_zero member)
    refine steps_of_keeps inv fits ?_ ?_ (fun ptr nonNull same => ?_) fun _ _ _ _ same => nomatch same
    · rw [called]
      exact fun reason same => nomatch same
    · rw [called]
      intro after ret same
      cases same
      exact inv
    · exact nonNull (Call.free.inj same).symm
  · have fits_iff : Call.Fits config heap (.free block.ptr) ↔ block.Releasable config := by
      constructor
      · exact fun fits => fits block member rfl
      · intro releasable other otherMember same
        rwa [inv.eq_of_ptr otherMember member same]
    refine ⟨(served_free_iff inv member).trans fits_iff.symm, fun fits after ret returned => ?_⟩
    rw [Heap.call, free_eq (inv.placed block member) (fits_iff.mp fits) (inv.counted member)
      inv.limit] at returned
    cases returned
    exact inv.release member _

theorem steps_realloc {heap : Heap} (inv : Inv config heap) {map : Option Nat} {ptr : Nat}
    {len : UInt64} (answers : Answers config heap map len.toNat)
    (owned : ptr = 0 ∨ ∃ block ∈ heap.live, block.ptr = ptr) :
    Steps config heap (.realloc map ptr len) := by
  rcases owned with rfl | ⟨block, member, rfl⟩
  · have fits : Call.Fits config heap (.realloc map 0 len) := fun _ _ block member same =>
      absurd same (inv.ptr_ne_zero member)
    have called := call_realloc_null inv answers
    have allocates := @allocates_malloc config heap.st map len
    refine steps_of_keeps inv fits ?_ ?_ (fun _ _ same => nomatch same)
      fun map ptr len nonNull same => absurd (Call.realloc.inj same).2.1.symm nonNull
    · rw [called]
      exact fun reason => hold_error allocates
    · rw [called]
      exact fun after ret => inv.hold answers allocates
  · by_cases fails : map = none ∨ ¬ heap.st.totalMem + len.toNat ≤ config.maxMem
    · have fits : Call.Fits config heap (.realloc map block.ptr len) := fun mapped small => by
        rcases fails with unmapped | exceeded
        · exact absurd unmapped mapped
        · exact absurd small exceeded
      have called : (∃ reason, reason.refuses = true ∧
          heap.call config (.realloc map block.ptr len) = .error reason) ∨
            heap.call config (.realloc map block.ptr len) = .ok (heap, 0) := by
        rcases @realloc_cases config heap.st map block.ptr _ len.toNat_lt fails with
          ⟨reason, refuses, same⟩ | same
        · exact .inl ⟨reason, refuses, by rw [Heap.call, same]; rfl⟩
        · exact .inr (by rw [Heap.call, same]; rfl)
      have returned {after : Heap} {ret : Nat}
          (same : heap.call config (.realloc map block.ptr len) = .ok (after, ret)) :
          after = heap ∧ ret = 0 := by
        rcases called with ⟨reason, -, stopped⟩ | null
        · exact nomatch stopped.symm.trans same
        · cases null.symm.trans same
          exact ⟨rfl, rfl⟩
      refine steps_of_keeps inv fits (fun reason stopped => ?_)
        (fun after ret same => (returned same).1 ▸ inv) (fun _ _ same => nomatch same)
        fun _ _ _ _ _ after ret same => (returned same).2
      rcases called with ⟨other, refuses, same⟩ | null
      · cases same.symm.trans stopped
        exact refuses
      · exact nomatch null.symm.trans stopped
    · obtain ⟨mapped, small⟩ := not_or.mp fails
      obtain ⟨page, rfl⟩ := Option.ne_none_iff_exists'.mp mapped
      have within := not_not.mp small
      have fresh := (answers page rfl within).2
      have fits_iff : Call.Fits config heap (.realloc (some page) block.ptr len) ↔
          block.Releasable config := by
        constructor
        · exact fun fits => fits mapped within block member rfl
        · intro releasable _ _ other otherMember same
          rwa [inv.eq_of_ptr otherMember member same]
      refine ⟨(served_realloc_iff inv member within fresh).trans fits_iff.symm,
        fun fits after ret returned => ?_⟩
      have copyInv := inv.copy within fresh block
      have copyMember : block ∈ (heap.copy config page len.toNat block).live :=
        List.mem_append_left _ member
      have freed := free_eq (copyInv.placed block copyMember) (fits_iff.mp fits)
        (copyInv.counted copyMember) copyInv.limit
      rw [call_realloc_some inv member within fresh freed rfl] at returned
      cases returned
      exact copyInv.release copyMember _

theorem steps {heap : Heap} (inv : Inv config heap) {call : Call}
    (admitted : call.Admitted config heap) : Steps config heap call := by
  cases call with
  | malloc map len =>
      exact steps_allocates inv admitted (allocates_malloc heap.st map len) rfl trivial
        (fun _ _ same => nomatch same) fun _ _ _ _ same => nomatch same
  | calloc map elemLen elemCnt =>
      exact steps_allocates inv admitted (allocates_calloc heap.st map _ _) rfl trivial
        (fun _ _ same => nomatch same) fun _ _ _ _ same => nomatch same
  | realloc map ptr len => exact steps_realloc inv admitted.1 admitted.2
  | memalign map call align len =>
      exact steps_allocates inv admitted (allocates_aligned heap.st map _ len.toNat_lt call) rfl
        trivial (fun _ _ same => nomatch same) fun _ _ _ _ same => nomatch same
  | free ptr => exact steps_free inv admitted
  | store pos bytes =>
      obtain ⟨block, member, above, below⟩ := admitted
      refine steps_of_keeps inv trivial (fun _ same => nomatch same) (fun after ret same => ?_)
        (fun _ _ same => nomatch same) fun _ _ _ _ same => nomatch same
      cases same
      exact inv.write member above below

/-! ## Runs -/

/-- The heap of a process that has allocated nothing. -/
def Heap.start (mem : Cells) (maps : List Region) : Heap := ⟨⟨0, mem, maps, []⟩, []⟩

def AllAdmitted (config : Config) : Heap → List Call → Prop
  | _, [] => True
  | heap, call :: rest => call.Admitted config heap ∧
      ∀ after ret, heap.call config call = .ok (after, ret) → AllAdmitted config after rest

def AllServed (config : Config) : Heap → List Call → Prop
  | _, [] => True
  | heap, call :: rest => Served config heap call (heap.call config call) ∧
      ∀ after ret, heap.call config call = .ok (after, ret) → AllServed config after rest

def AllFit (config : Config) : Heap → List Call → Prop
  | _, [] => True
  | heap, call :: rest => call.Fits config heap ∧
      ∀ after ret, heap.call config call = .ok (after, ret) → AllFit config after rest

theorem inv_start (mem : Cells) (maps : List Region) : Inv config (Heap.start mem maps) where
  total := rfl
  limit := Nat.zero_le _
  placed := fun _ member => nomatch member
  apart := .nil

theorem allServed_iff {heap : Heap} (inv : Inv config heap) {calls : List Call}
    (admitted : AllAdmitted config heap calls) :
    AllServed config heap calls ↔ AllFit config heap calls := by
  induction calls generalizing heap with
  | nil => exact Iff.rfl
  | cons call rest ih =>
      obtain ⟨first, later⟩ := admitted
      have step := steps inv first
      constructor
      · intro served
        have fits := step.served_iff.mp served.1
        exact ⟨fits, fun after ret returned =>
          (ih (step.keeps fits after ret returned) (later after ret returned)).mp
            (served.2 after ret returned)⟩
      · intro fits
        exact ⟨step.served_iff.mpr fits.1, fun after ret returned =>
          (ih (step.keeps fits.1 after ret returned) (later after ret returned)).mpr
            (fits.2 after ret returned)⟩

theorem call_malloc_some (heap : Heap) (page : Nat) {len : UInt64}
    (fits : heap.st.totalMem + len.toNat ≤ config.maxMem) :
    heap.call config (.malloc (some page) len) =
      .ok (heap.grow config page len.toNat, blockPtr config page len.toNat) := by
  rw [Heap.call, malloc_some heap page fits]
  exact congrArg Except.ok (hold_allocated heap page len.toNat _)

/-- A run that allocates a block in a process without mappings and frees it. -/
theorem admitted_malloc_free (mem : Cells) (page : Nat) {len : UInt64}
    (fits : len.toNat ≤ config.maxMem)
    (word : page * pageSize + (mapping config page len.toNat).len ≤ 2 ^ 64) :
    AllAdmitted config (Heap.start mem [])
      [.malloc (some page) len, .free (blockPtr config page len.toNat)] := by
  have within : (Heap.start mem []).st.totalMem + len.toNat ≤ config.maxMem := by
    rwa [Heap.start, Nat.zero_add]
  refine ⟨fun other same _ => ?_, fun after ret returned => ⟨.inr ?_, fun _ _ _ => trivial⟩⟩
  · cases same
    exact ⟨word, fun _ member => nomatch member⟩
  · rw [call_malloc_some _ page within] at returned
    cases returned
    exact ⟨blockAt config page len.toNat, List.mem_append_right _ List.mem_cons_self, rfl⟩

theorem allFit_malloc_free_iff (mem : Cells) (page : Nat) {len : UInt64}
    (fits : len.toNat ≤ config.maxMem) :
    AllFit config (Heap.start mem [])
        [.malloc (some page) len, .free (blockPtr config page len.toNat)] ↔
      (blockAt config page len.toNat).Releasable config := by
  have within : (Heap.start mem []).st.totalMem + len.toNat ≤ config.maxMem := by
    rwa [Heap.start, Nat.zero_add]
  constructor
  · intro allFit
    exact (allFit.2 _ _ (call_malloc_some _ page within)).1 _
      (List.mem_append_right _ List.mem_cons_self) rfl
  · intro releasable
    refine ⟨trivial, fun after ret returned => ⟨fun block member _ => ?_, fun _ _ _ => trivial⟩⟩
    rw [call_malloc_some _ page within] at returned
    cases returned
    rw [List.mem_singleton.mp member]
    exact releasable

/-- The default limit, without the mode that aligns the ends of blocks. -/
def defaultConfig : Config where
  maxMem := 0x40000000
  hardFail := false
  noCallocOver := false
  alignAllocations := false
  allocCanary := 0xaaccaacc
  limit := by decide
  word := by decide

/-- More than 4 GiB may be allocated. -/
def wideConfig : Config :=
  { defaultConfig with
    maxMem := 0x200000000
    limit := by decide }

/-- The calls of a run are served exactly when the blocks that are released are short enough. -/
theorem calls_served_iff (config : Config) (mem : Cells) (maps : List Region) (calls : List Call)
    (admitted : AllAdmitted config (Heap.start mem maps) calls) :
    AllServed config (Heap.start mem maps) calls ↔ AllFit config (Heap.start mem maps) calls :=
  allServed_iff (inv_start mem maps) admitted

theorem calls_served_malloc_free :
    AllServed defaultConfig (Heap.start (fun _ => 0) [])
      [.malloc (some 1) 24, .free (blockPtr defaultConfig 1 24)] :=
  (calls_served_iff defaultConfig (fun _ => 0) [] _
    (admitted_malloc_free (fun _ => 0) 1 (by decide) (by decide))).mpr
      ((allFit_malloc_free_iff (fun _ => 0) 1 (by decide)).mpr
        (by unfold Block.Releasable; decide))

/-- The header of a block of 4 GiB holds the length 0. -/
theorem calls_not_served :
    ¬ ∀ (config : Config) (mem : Cells) (maps : List Region) (calls : List Call),
      AllAdmitted config (Heap.start mem maps) calls →
        AllServed config (Heap.start mem maps) calls := by
  intro all
  have admitted := @admitted_malloc_free wideConfig (fun _ => 0) 1 0x100000000 (by decide)
    (by decide)
  have served := all wideConfig (fun _ => 0) [] _ admitted
  have allFit := (allServed_iff (inv_start _ _) admitted).mp served
  exact absurd ((allFit_malloc_free_iff (fun _ => 0) 1 (by decide)).mp allFit)
    (by unfold Block.Releasable; decide)

end SbFuzz.Utils.Dislocator
