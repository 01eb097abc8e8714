import SbFuzz.Memory.Cells
import SbFuzz.Memory.Pages
import SbFuzz.Memory.Regions

/-! The allocator of libdislocator: every block ends at a page that cannot be accessed. -/

set_option autoImplicit false

namespace SbFuzz.Utils.Dislocator

open SbFuzz.Memory

/-- `_Alignof(max_align_t)`. -/
def allocAlignSize : Nat := 16

def allocClobber : UInt8 := 0xcc

def tailAllocCanary : UInt8 := 0xac

/-- `PG_COUNT`, in words of so many bits. -/
def pgCount (bits len : Nat) : Nat := (len + (pageSize - 1)) % 2 ^ bits / pageSize

structure Config where
  maxMem : Nat
  hardFail : Bool
  noCallocOver : Bool
  alignAllocations : Bool
  allocCanary : Nat
  /-- `__dislocator_init` refuses more megabytes. -/
  limit : maxMem ≤ (2 ^ 64 - 1) / 1024 / 1024 * 1024 * 1024
  word : allocCanary < 2 ^ 32

/-- The memory of the process. `maps` are the mappings, which are all kept, and `protects` is
history: the ranges that `mprotect` has made inaccessible. -/
structure State where
  totalMem : Nat
  mem : Cells
  maps : List Region
  protects : List Region

inductive Stop where
  | totalAllocs
  | mmapFailed
  | mprotectFailed
  | callocOverflow
  | badCanary
  | badTailCanary
  /-- The loop over the tail canary does not end. -/
  | endless
  | divisionByZero
deriving DecidableEq, Repr

/-! ## Memory -/

/-- A new mapping holds zeros. -/
def State.mmap (st : State) (base tlen : Nat) : State :=
  { st with
    mem := fun k => if base ≤ k ∧ k < base + tlen then 0 else st.mem k
    maps := st.maps ++ [⟨base, tlen⟩] }

/-- `mprotect` with `PROT_NONE`, of pages that are mapped. -/
def State.mprotect (st : State) (start len : Nat) : Except Stop State :=
  if start % pageSize = 0 ∧
      (st.maps.any fun map => map.start ≤ start && start + len ≤ map.start + map.len) then
    .ok { st with protects := st.protects ++ [⟨start, len⟩] }
  else .error .mprotectFailed

def State.write (st : State) (pos : Nat) (bytes : List UInt8) : State :=
  { st with mem := put st.mem pos bytes }

def State.ptrC (st : State) (ptr : Nat) : Nat := dword st.mem (ptr - 4)

def State.ptrL (st : State) (ptr : Nat) : Nat := dword st.mem (ptr - 8)

section

variable (config : Config)

/-! ## Allocation -/

def exceeds (st : State) (len : Nat) : Bool :=
  config.maxMem < (st.totalMem + len) % 2 ^ 64 || (st.totalMem + len) % 2 ^ 64 < st.totalMem

/-- `rlen` of `__dislocator_alloc`. -/
def roundLen (len : Nat) : Nat :=
  if config.alignAllocations ∧ len % allocAlignSize ≠ 0 then
    (len / allocAlignSize * allocAlignSize + allocAlignSize) % 2 ^ 64
  else len

/-- NULL, or the end of the process. -/
def allocFails (st : State) (reason : Stop) : Except Stop (State × Nat) :=
  if config.hardFail then .error reason else .ok (st, 0)

/-- `__dislocator_alloc`; `map` is the page at which `mmap` answers. -/
def dislocatorAlloc (st : State) (map : Option Nat) (len : Nat) : Except Stop (State × Nat) :=
  if exceeds config st len then allocFails config st .totalAllocs
  else
    let rlen := roundLen config len
    let tlen := (1 + pgCount 64 (rlen + 8)) * pageSize % 2 ^ 64
    match map with
    | none => allocFails config st .mmapFailed
    | some page => do
        let base := page * pageSize
        let st ← (st.mmap base tlen).mprotect (base + pgCount 64 (rlen + 8) * pageSize) pageSize
        let ret := base + wrap 64 (pageSize * pgCount 64 (rlen + 8) - rlen - 8) + 8
        let st := st.write (ret - 8) (dwordBytes len)
        let st := st.write (ret - 4) (dwordBytes config.allocCanary)
        let st := { st with totalMem := st.totalMem + len }
        return (st.write (ret + len) (List.replicate (rlen - len) tailAllocCanary), ret)

/-- `memset` with the clobber byte, of a block that was allocated. -/
def clobber (result : State × Nat) (len : Nat) : State × Nat :=
  if result.2 = 0 then result
  else (result.1.write result.2 (List.replicate len allocClobber), result.2)

def malloc (st : State) (map : Option Nat) (len : Nat) : Except Stop (State × Nat) := do
  let result ← dislocatorAlloc config st map len
  return clobber result len

def calloc (st : State) (map : Option Nat) (elemLen elemCnt : Nat) : Except Stop (State × Nat) :=
  let len := elemLen * elemCnt % 2 ^ 64
  if elemCnt ≠ 0 ∧ len / elemCnt ≠ elemLen then
    if config.noCallocOver then .ok (st, 0) else .error .callocOverflow
  else dislocatorAlloc config st map len

/-! ## Release -/

/-- The loop over the tail canary, from `len`, a word of 32 bits, up to `rlen`. -/
def tailLoop (mem : Cells) (ptr rlen : Nat) : Nat → Nat → Except Stop Nat
  | 0, _ => .error .endless
  | fuel + 1, len =>
      if len < rlen then
        if mem (ptr + len) ≠ tailAllocCanary then .error .badTailCanary
        else tailLoop mem ptr rlen fuel ((len + 1) % 2 ^ 32)
      else .ok len

/-- The length from the header, or with its tail; each `len` is met once before one is met again. -/
def checkTail (st : State) (ptr len : Nat) : Except Stop Nat :=
  if config.alignAllocations ∧ len % allocAlignSize ≠ 0 then
    tailLoop st.mem ptr (len / allocAlignSize * allocAlignSize + allocAlignSize) (2 ^ 32 + 1) len
  else .ok len

def free (st : State) (ptr : Nat) : Except Stop State :=
  if ptr = 0 then .ok st
  else if st.ptrC ptr ≠ config.allocCanary then .error .badCanary
  else do
    let st' := { st with totalMem := wrap 64 (st.totalMem - st.ptrL ptr) }
    let len ← checkTail config st' ptr (st.ptrL ptr)
    let start := ptr - wrap 32 (pageSize * pgCount 32 (len + 8) - len - 8) - 8
    st'.mprotect start (pgCount 32 (len + 8) * pageSize % 2 ^ 32)

def realloc (st : State) (map : Option Nat) (ptr len : Nat) : Except Stop (State × Nat) := do
  let (st, ret) ← malloc config st map len
  if ret ≠ 0 ∧ ptr ≠ 0 then
    if st.ptrC ptr ≠ config.allocCanary then .error .badCanary
    else
      let copied := (List.range (min len (st.ptrL ptr))).map fun k => st.mem (ptr + k)
      let st ← free config (st.write ret copied) ptr
      return (st, ret)
  else return (st, ret)

/-! ## Alignment -/

/-- The check of `posix_memalign` on its alignment. -/
def acceptsAlign (align : Nat) : Bool := align % 2 = 0 && align % 8 = 0

def einval : Nat := 22

/-- The number that the function returns, and what it stores in `*ptr`, which holds `ptr`. -/
def posixMemalign (st : State) (map : Option Nat) (ptr align len : Nat) :
    Except Stop (State × Nat × Nat) :=
  if !acceptsAlign align then .ok (st, einval, ptr)
  else if len = 0 then .ok (st, 0, 0)
  else if align = 0 then .error .divisionByZero
  else do
    let rem := len % align
    let len := if rem ≠ 0 then (len + (align - rem)) % 2 ^ 64 else len
    let result ← dislocatorAlloc config st map len
    let (st, ptr) := clobber result len
    return (st, 0, ptr)

def memalign (st : State) (map : Option Nat) (align len : Nat) : Except Stop (State × Nat) := do
  let (st, _, ret) ← posixMemalign config st map 0 align len
  return (st, ret)

def alignedAlloc (st : State) (map : Option Nat) (align len : Nat) :
    Except Stop (State × Nat) :=
  if align = 0 then .error .divisionByZero
  else if len % align ≠ 0 then .ok (st, 0)
  else do
    let (st, _, ret) ← posixMemalign config st map 0 align len
    return (st, ret)

end

/-! Where libdislocator places a block, and the alignments that it reaches that way. -/

section

variable (config : Config)

/-! ## Lengths -/

theorem maxMem_lt : config.maxMem ≤ 2 ^ 64 - 2 ^ 20 := Nat.le_trans config.limit (by decide)

variable {config}

theorem exceeds_eq_false_iff (st : State) {len : Nat} (word : len < 2 ^ 64) :
    exceeds config st len = false ↔ st.totalMem + len ≤ config.maxMem := by
  have limit := maxMem_lt config
  simp only [exceeds, Bool.or_eq_false_iff, decide_eq_false_iff_not, Nat.not_lt]
  omega

theorem roundLen_eq {len : Nat} (small : len ≤ config.maxMem) :
    roundLen config len =
      if config.alignAllocations then (len + 15) / 16 * 16 else len := by
  have limit := maxMem_lt config
  unfold roundLen allocAlignSize
  cases config.alignAllocations with
  | false => simp
  | true =>
      simp only [true_and, if_true]
      split <;> omega

theorem le_roundLen {len : Nat} (small : len ≤ config.maxMem) :
    len ≤ roundLen config len ∧ roundLen config len ≤ len + 15 := by
  rw [roundLen_eq small]
  split <;> omega

theorem pgCount_mul {bits len : Nat} (small : len + pageSize ≤ 2 ^ bits) :
    pgCount bits len * pageSize = pageUp len := by
  have below : len + (pageSize - 1) < 2 ^ bits := by
    unfold pageSize at small ⊢
    omega
  rw [pgCount, pageUp, pageDown, Nat.mod_eq_of_lt below]

theorem pageUp_bounds (len : Nat) : len ≤ pageUp len ∧ pageUp len < len + pageSize := by
  unfold pageUp pageDown pageSize
  omega

/-- The distance from the start of the mapping to the header. -/
theorem wrap_offset {bits rlen : Nat} (small : rlen + 8 + pageSize ≤ 2 ^ bits) :
    wrap bits (pageSize * pgCount bits (rlen + 8) - rlen - 8) = pageUp (rlen + 8) - rlen - 8 := by
  have bounds := pageUp_bounds (rlen + 8)
  have natural : ((pageSize * pgCount bits (rlen + 8) : Int) - rlen - 8) =
      ((pageUp (rlen + 8) - rlen - 8 : Nat) : Int) := by
    rw [← Int.natCast_mul, Nat.mul_comm, pgCount_mul small]
    omega
  rw [natural, wrap_of_lt (by omega)]

/-! ## Blocks -/

variable (config)

/-- The address of the page behind the block. -/
def guardPage (page len : Nat) : Nat := page * pageSize + pageUp (roundLen config len + 8)

def blockPtr (page len : Nat) : Nat := guardPage config page len - roundLen config len

/-- The state behind the request, with the header in front of the block. -/
def allocated (st : State) (page len : Nat) : State :=
  let ptr := blockPtr config page len
  let tlen := pageUp (roundLen config len + 8) + pageSize
  let mem := put (st.mmap (page * pageSize) tlen).mem (ptr - 8) (dwordBytes len)
  let mem := put mem (ptr - 4) (dwordBytes config.allocCanary)
  { totalMem := st.totalMem + len
    mem := put mem (ptr + len) (List.replicate (roundLen config len - len) tailAllocCanary)
    maps := st.maps ++ [⟨page * pageSize, tlen⟩]
    protects := st.protects ++ [⟨guardPage config page len, pageSize⟩] }

variable {config}

theorem blockPtr_add (config : Config) (page len : Nat) :
    blockPtr config page len + roundLen config len = guardPage config page len ∧
      page * pageSize + 8 ≤ blockPtr config page len := by
  have above := (pageUp_bounds (roundLen config len + 8)).1
  unfold blockPtr guardPage
  omega

/-- No sum of `__dislocator_alloc` wraps around behind its check. -/
theorem dislocatorAlloc_eq (st : State) (map : Option Nat) {len : Nat} (word : len < 2 ^ 64) :
    dislocatorAlloc config st map len =
      if st.totalMem + len ≤ config.maxMem then
        match map with
        | none => allocFails config st .mmapFailed
        | some page => .ok (allocated config st page len, blockPtr config page len)
      else allocFails config st .totalAllocs := by
  have limit := maxMem_lt config
  unfold dislocatorAlloc
  by_cases fits : st.totalMem + len ≤ config.maxMem
  · have notExceeds := (exceeds_eq_false_iff st word).mpr fits
    rw [if_neg (by rw [notExceeds]; exact Bool.false_ne_true), if_pos fits]
    cases map with
    | none => rfl
    | some page =>
        have rounded : len ≤ roundLen config len ∧ roundLen config len ≤ len + 15 :=
          le_roundLen (by omega)
        have size : pageSize = 4096 := rfl
        have small : roundLen config len + 8 + pageSize ≤ 2 ^ 64 := by omega
        have count := pgCount_mul small
        have bounds := pageUp_bounds (roundLen config len + 8)
        have total : (1 + pgCount 64 (roundLen config len + 8)) * pageSize % 2 ^ 64 =
            pageUp (roundLen config len + 8) + pageSize := by
          rw [Nat.add_mul, Nat.one_mul, count, Nat.add_comm, Nat.mod_eq_of_lt (by omega)]
        have ret : page * pageSize + wrap 64 (pageSize * pgCount 64 (roundLen config len + 8) -
            roundLen config len - 8) + 8 = blockPtr config page len := by
          rw [wrap_offset small, blockPtr, guardPage]
          omega
        have aligned : guardPage config page len % pageSize = 0 := by
          rw [guardPage, Nat.mul_add_mod_self_right]
          exact aligned_pageUp _
        have protects : (st.mmap (page * pageSize) (pageUp (roundLen config len + 8) +
            pageSize)).mprotect (guardPage config page len) pageSize =
              .ok { st.mmap (page * pageSize) (pageUp (roundLen config len + 8) + pageSize) with
                protects := st.protects ++ [⟨guardPage config page len, pageSize⟩] } := by
          rw [State.mprotect, if_pos ⟨aligned, by simp [State.mmap, guardPage, Nat.add_assoc]⟩]
          rfl
        dsimp only
        rw [total, count, ← guardPage, protects, ret]
        refine congrArg Except.ok (Prod.ext ?_ rfl)
        rw [allocated]
        unfold State.write
        rfl
  · have exceeded : exceeds config st len = true := by
      rw [← Bool.not_eq_false, exceeds_eq_false_iff st word]
      exact fits
    rw [if_pos exceeded, if_neg fits]

end

end SbFuzz.Utils.Dislocator
