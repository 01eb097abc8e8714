import Mathlib.Data.List.Perm.Subperm
import SbFuzz.Memory.ElementList

/-! The pool hands out elements that are not in use, and counts those of its buffer. -/

set_option autoImplicit false

namespace SbFuzz.Memory.ElementList

open Function (update)

def Pointer.isBuf : Pointer → Bool
  | .buf _ => true
  | .heap _ => false

@[simp] theorem Pointer.isBuf_buf (index : Fin listPreallocSize) :
    (Pointer.buf index).isBuf = true := rfl

@[simp] theorem Pointer.isBuf_heap (address : Nat) : (Pointer.heap address).isBuf = false := rfl

theorem heap_ne_buf (address : Nat) (index : Fin listPreallocSize) :
    Pointer.heap address ≠ .buf index := by
  simp

@[simp] theorem countP_buf (index : Fin listPreallocSize) (live : List Pointer) :
    (Pointer.buf index :: live).countP Pointer.isBuf = live.countP Pointer.isBuf + 1 :=
  List.countP_cons_of_pos rfl

@[simp] theorem countP_heap (address : Nat) (live : List Pointer) :
    (Pointer.heap address :: live).countP Pointer.isBuf = live.countP Pointer.isBuf :=
  List.countP_cons_of_neg (by simp)

/-- The elements in use are those the pool takes for used and those `malloc` returned. -/
structure Pool (st : State) (live : List Pointer) : Prop where
  nodup : live.Nodup
  buffer : ∀ index, st.preStatus (.buf index) = if .buf index ∈ live then .used else .unused
  heap : ∀ address, .heap address ∈ live → st.preStatus (.heap address) = .malloc
  allocated : ∀ address, address ∈ st.allocated ↔ .heap address ∈ live
  counted : st.elementPreallocCount = live.countP Pointer.isBuf

/-- The pool leaves the lists alone. -/
structure SameFields (st after : State) : Prop where
  prev : after.prev = st.prev
  next : after.next = st.next
  data : after.data = st.data

namespace Pool

variable {st other : State} {live others : List Pointer} {box : Pointer}

theorem congr (pool : Pool st live) (preStatus : other.preStatus = st.preStatus)
    (count : other.elementPreallocCount = st.elementPreallocCount)
    (allocated : other.allocated = st.allocated) : Pool other live where
  nodup := pool.nodup
  buffer := by rw [preStatus]; exact pool.buffer
  heap := by rw [preStatus]; exact pool.heap
  allocated := by rw [allocated]; exact pool.allocated
  counted := count.trans pool.counted

theorem perm (pool : Pool st live) (same : live.Perm others) : Pool st others where
  nodup := same.nodup_iff.mp pool.nodup
  buffer index := by simp only [pool.buffer, same.mem_iff]
  heap address member := pool.heap address (same.mem_iff.mpr member)
  allocated address := (pool.allocated address).trans same.mem_iff
  counted := by rw [pool.counted, same.countP_eq]

/-- Assignments to fields do not free an element. -/
theorem deref_eq (pool : Pool st live) (member : box ∈ live)
    (allocated : other.allocated = st.allocated) : deref other (some box) = .ok box := by
  cases box with
  | buf index => rfl
  | heap address => simp only [deref, allocated, (pool.allocated address).mpr member, if_true]

/-- The buffer has an element to hand out unless the counter says that it has none. -/
theorem exists_unused (pool : Pool st live)
    (room : st.elementPreallocCount < (listPreallocSize : Int)) :
    ∃ index, Pointer.buf index ∉ live := by
  by_contra full
  push Not at full
  have inUse : (List.finRange listPreallocSize).map Pointer.buf ⊆ live.filter Pointer.isBuf := by
    intro box member
    obtain ⟨index, -, rfl⟩ := List.mem_map.mp member
    exact List.mem_filter.mpr ⟨full index, rfl⟩
  have distinct : ((List.finRange listPreallocSize).map Pointer.buf).Nodup :=
    (List.nodup_finRange _).map fun _ _ same => Pointer.buf.inj same
  have many := (List.subperm_of_subset distinct inUse).length_le
  rw [List.length_map, List.length_finRange, ← List.countP_eq_length_filter] at many
  have counted := pool.counted
  omega

theorem takeBuf {index : Fin listPreallocSize} (pool : Pool st live)
    (unused : Pointer.buf index ∉ live) :
    Pool { st with
      preStatus := update st.preStatus (.buf index) .used
      elementPreallocCount := st.elementPreallocCount + 1 } (.buf index :: live) where
  nodup := List.nodup_cons.mpr ⟨unused, pool.nodup⟩
  buffer other := by
    by_cases same : other = index
    · subst same
      simp
    · have different : Pointer.buf other ≠ .buf index := fun equal => same (Pointer.buf.inj equal)
      simp only [Function.update_of_ne different, pool.buffer, List.mem_cons, different, false_or]
  heap address member := by
    simp only [List.mem_cons, reduceCtorEq, false_or] at member
    simp only [Function.update_of_ne (heap_ne_buf address index)]
    exact pool.heap address member
  allocated address := by simp [pool.allocated]
  counted := by simp [pool.counted]

theorem takeHeap {address : Nat} (pool : Pool st live) (fresh : address ∉ st.allocated) :
    Pool { st with
      preStatus := update st.preStatus (.heap address) .malloc
      allocated := address :: st.allocated
      mallocs := st.mallocs + 1 } (.heap address :: live) where
  nodup := by
    refine List.nodup_cons.mpr ⟨fun member => ?_, pool.nodup⟩
    exact fresh ((pool.allocated address).mpr member)
  buffer index := by simp [pool.buffer]
  heap other member := by
    by_cases same : other = address
    · subst same
      simp
    · have different : Pointer.heap other ≠ .heap address := by simpa using same
      simp only [Function.update_of_ne different]
      exact pool.heap other (List.mem_of_ne_of_mem different member)
  allocated other := by simp [pool.allocated]
  counted := by simp [pool.counted]

/-- `PRE_ALLOC` hands out an element that is not in use, unless `malloc` has none. -/
theorem preAlloc_cases (malloc : Malloc) (pool : Pool st live) :
    (preAlloc malloc st = .error .outOfMemory ∧ malloc.answer st.mallocs st.allocated = none) ∨
      ∃ box after, preAlloc malloc st = .ok (box, after) ∧ box ∉ live ∧ Pool after (box :: live) ∧
        SameFields st after := by
  by_cases full : (listPreallocSize : Int) ≤ st.elementPreallocCount
  · cases answered : malloc.answer st.mallocs st.allocated with
    | none => exact .inl ⟨by simp only [preAlloc, full, if_true, answered], rfl⟩
    | some address =>
        have fresh := malloc.fresh answered
        have taken := pool.takeHeap fresh
        have notLive := (List.nodup_cons.mp taken.nodup).1
        refine .inr ⟨.heap address, _, ?_, notLive, taken, ⟨rfl, rfl, rfl⟩⟩
        simp only [preAlloc, full, if_true, answered]
  · have statusUnused (index : Fin listPreallocSize) :
        st.preStatus (.buf index) = .unused ↔ Pointer.buf index ∉ live := by
      rw [pool.buffer]
      split <;> simp_all
    cases found : (List.finRange listPreallocSize).find? fun i =>
        st.preStatus (.buf i) = .unused with
    | none =>
        obtain ⟨index, unused⟩ := pool.exists_unused (not_le.mp full)
        have used := List.find?_eq_none.mp found index (List.mem_finRange index)
        exact absurd ((statusUnused index).mpr unused) (by simpa using used)
    | some index =>
        have unused : Pointer.buf index ∉ live :=
          (statusUnused index).mp (by simpa using List.find?_some found)
        refine .inr ⟨.buf index, _, ?_, unused, pool.takeBuf unused, ⟨rfl, rfl, rfl⟩⟩
        simp only [preAlloc, full, if_false, found]

theorem dropBuf {index : Fin listPreallocSize} (pool : Pool st (.buf index :: live)) :
    Pool { st with
      preStatus := update st.preStatus (.buf index) .unused
      elementPreallocCount := st.elementPreallocCount - 1 } live where
  nodup := pool.nodup.of_cons
  buffer other := by
    by_cases same : other = index
    · subst same
      simp [(List.nodup_cons.mp pool.nodup).1]
    · have different : Pointer.buf other ≠ .buf index := fun equal => same (Pointer.buf.inj equal)
      simp only [Function.update_of_ne different, pool.buffer, List.mem_cons, different, false_or]
  heap address member := by
    simp only [Function.update_of_ne (heap_ne_buf address index)]
    exact pool.heap address (List.mem_cons_of_mem _ member)
  allocated address := by simp [pool.allocated]
  counted := by simp [pool.counted]

theorem dropHeap {address : Nat} (pool : Pool st (.heap address :: live)) :
    Pool { st with
      preStatus := update st.preStatus (.heap address) .unused
      allocated := st.allocated.filter (· ≠ address) } live where
  nodup := pool.nodup.of_cons
  buffer index := by simp [pool.buffer]
  heap other member := by
    have different : Pointer.heap other ≠ .heap address := by
      intro same
      exact (List.nodup_cons.mp pool.nodup).1 (same ▸ member)
    simp only [Function.update_of_ne different]
    exact pool.heap other (List.mem_cons_of_mem _ member)
  allocated other := by
    have back : Pointer.heap other ∈ live → other ≠ address := by
      rintro member rfl
      exact (List.nodup_cons.mp pool.nodup).1 member
    simp only [List.mem_filter, pool.allocated, List.mem_cons, Pointer.heap.injEq,
      decide_eq_true_eq]
    tauto
  counted := by simp [pool.counted]

/-- `PRE_FREE` takes back an element that is in use. -/
theorem preFree_ok (pool : Pool st (box :: live)) :
    ∃ after, preFree st box = .ok after ∧ Pool after live ∧ SameFields st after := by
  cases box with
  | buf index =>
      have used : st.preStatus (.buf index) = .used := by
        rw [pool.buffer, if_pos List.mem_cons_self]
      have nonneg : ¬st.elementPreallocCount - 1 < 0 := by
        have counted := pool.counted
        rw [countP_buf] at counted
        omega
      refine ⟨_, ?_, pool.dropBuf, ⟨rfl, rfl, rfl⟩⟩
      simp only [preFree, used, nonneg, if_false]
  | heap address =>
      have status := pool.heap address List.mem_cons_self
      refine ⟨_, ?_, pool.dropHeap, ⟨rfl, rfl, rfl⟩⟩
      simp only [preFree, status, free]

end Pool

end SbFuzz.Memory.ElementList
