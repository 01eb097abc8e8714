import SbFuzz.Memory.Regions

/-! The allocator of QASan in QEMU mode: chunks between red zones, and the quarantine of chunks that
were freed. The functions stand without their prefix `__libqasan_`. -/

set_option autoImplicit false

namespace SbFuzz.QemuMode.QasanMalloc

open SbFuzz.Memory

def redzoneSize : Nat := 128

def quarantineMaxBytes : Nat := 52428800

/-- `_Alignof(max_align_t)`. -/
def allocAlignSize : Nat := 16

def tmpZoneSize : Nat := 4096

/-- The fields in front of the red zone of `struct chunk_begin`. -/
def headerSize : Nat := 32

/-- `sizeof(struct chunk_begin)`. -/
def chunkBeginSize : Nat := headerSize + redzoneSize

/-- `sizeof(struct chunk_struct)`. -/
def chunkStructSize : Nat := chunkBeginSize + redzoneSize + 8

/-! ## What the allocator uses -/

inductive Poison where
  | heapLeftRz
  | heapRightRz
  | heapFreed
deriving DecidableEq, Repr

/-- The shadow memory that the emulator keeps for `QASAN_POISON` and `QASAN_UNPOISON`. -/
structure Shadow where
  Map : Type
  poisoned : Map → Nat → Bool
  poison : Map → Region → Poison → Map
  unpoison : Map → Region → Map
  poison_outside : ∀ map region kind k, k < region.start ∨ region.start + region.len ≤ k →
    poisoned (poison map region kind) k = poisoned map k
  unpoison_inside : ∀ map region k, region.start ≤ k → k < region.start + region.len →
    poisoned (unpoison map region) k = false

/-- Every byte is poisoned on its own. -/
def exactShadow : Shadow where
  Map := Nat → Bool
  poisoned := id
  poison := fun map region _ k =>
    if region.start ≤ k ∧ k < region.start + region.len then true else map k
  unpoison := fun map region k =>
    if region.start ≤ k ∧ k < region.start + region.len then false else map k
  poison_outside := fun _ region _ k outside => if_neg (by omega)
  unpoison_inside := fun _ _ _ above below => if_pos ⟨above, below⟩

structure Obtained (request : Nat) where
  start : Nat
  aligned : start % allocAlignSize = 0
  nonNull : start ≠ 0
  fits : start + request ≤ 2 ^ 64

def Obtained.region {request : Nat} (block : Obtained request) : Region := ⟨block.start, request⟩

/-- What `backend_malloc` answers to a request. -/
abbrev Backend := (request : Nat) → Option (Obtained request)

/-! ## The state -/

/-- `struct chunk_begin`, without its red zone. -/
structure ChunkBegin where
  requestedSize : Nat
  alignedOrig : Nat
  next : Nat
  prev : Nat

/-- `freed` is history: what `backend_free` was called with. -/
structure State (shadow : Shadow) where
  initialized : Bool
  tmpAllocZoneIdx : Int
  map : shadow.Map
  chunks : Nat → ChunkBegin
  quarantineTop : Nat
  quarantineEnd : Nat
  quarantineBytes : Nat
  freed : List Nat

inductive Stop where
  | divisionByZero
  /-- Memory is accessed that does not belong to the block, or to no block at all. -/
  | fault
  /-- The eviction does not end. -/
  | endless
deriving DecidableEq, Repr

structure Layout where
  obtained : Region
  header : Region
  leftRedzone : Region
  user : Region
  rightRedzone : Region

inductive Answer where
  | null
  /-- A pointer to the zone for allocations before the initialization. -/
  | zone (index : Int)
  /-- `*ptr` is not written. -/
  | kept
  | chunk (layout : Layout)

def einval : Nat := 22

def enomem : Nat := 12

section

variable {shadow : Shadow}

def State.setChunk (st : State shadow) (ck : Nat) (chunk : ChunkBegin) : State shadow :=
  { st with chunks := fun other => if other = ck then chunk else st.chunks other }

def State.poison (st : State shadow) (region : Region) (kind : Poison) : State shadow :=
  { st with map := shadow.poison st.map region kind }

def State.unpoison (st : State shadow) (region : Region) : State shadow :=
  { st with map := shadow.unpoison st.map region }

def State.backendFree (st : State shadow) (ptr : Nat) : State shadow :=
  { st with freed := st.freed ++ [ptr] }

/-- A size with its padding to the alignment. -/
def padded (size : Nat) : Nat :=
  if size % allocAlignSize ≠ 0 then
    (size / allocAlignSize * allocAlignSize + allocAlignSize) % 2 ^ 64
  else size

/-! ## Allocation -/

/-- What both functions do with a block: the chunk header is written, the red zones are poisoned and
the user area is filled. -/
def layOut (st : State shadow) (layout : Layout) (chunk : ChunkBegin) :
    Except Stop (State shadow × Answer) :=
  if layout.header.Within layout.obtained then
    let st := (st.unpoison layout.obtained).setChunk layout.header.start chunk
    let st := st.poison layout.leftRedzone .heapLeftRz
    let st := st.poison layout.rightRedzone .heapRightRz
    if layout.user.Within layout.obtained then .ok (st, .chunk layout) else .error .fault
  else .error .fault

def malloc (backend : Backend) (st : State shadow) (size : Nat) :
    Except Stop (State shadow × Answer) :=
  if !st.initialized then
    .ok ({ st with
      initialized := true
      tmpAllocZoneIdx := (st.tmpAllocZoneIdx + padded size).bmod (2 ^ 32) },
      .zone st.tmpAllocZoneIdx)
  else
    match backend ((chunkStructSize + size) % 2 ^ 64) with
    | none => .ok (st, .null)
    | some block =>
        let user := block.start + chunkBeginSize
        layOut st
          { obtained := block.region
            header := ⟨block.start, headerSize⟩
            leftRedzone := ⟨block.start + headerSize, redzoneSize⟩
            user := ⟨user, size⟩
            rightRedzone := ⟨user + size,
              if size % allocAlignSize ≠ 0 then
                size / allocAlignSize * allocAlignSize + 8 + redzoneSize - size
              else redzoneSize⟩ }
          ⟨size, 0, 0, 0⟩

/-- The check of `__libqasan_posix_memalign` on its alignment. -/
def acceptsAlign (align : Nat) : Bool := align % 2 = 0 && align % 8 = 0

/-- `__libqasan_posix_memalign`: the number that it returns, and what it stores. -/
def posixMemalign (backend : Backend) (st : State shadow) (align len : Nat) :
    Except Stop (State shadow × Nat × Answer) :=
  if !acceptsAlign align then .ok (st, einval, .kept)
  else if len = 0 then .ok (st, 0, .null)
  else
    let size := (len + align) % 2 ^ 64
    match backend ((chunkStructSize + size) % 2 ^ 64) with
    | none => .ok (st, enomem, .kept)
    | some block =>
        if align = 0 then .error .divisionByZero
        else
          let data := block.start + chunkBeginSize
          let data := data + (align - data % align)
          let p := data - chunkBeginSize
          -- `next` and `prev` stay what the block held
          let old := st.chunks p
          (layOut st
            { obtained := block.region
              header := ⟨p, headerSize⟩
              leftRedzone := ⟨p + headerSize, redzoneSize⟩
              user := ⟨data, len⟩
              rightRedzone := ⟨data + len,
                if len % allocAlignSize ≠ 0 then
                  len / allocAlignSize * allocAlignSize + allocAlignSize + redzoneSize - len
                else redzoneSize⟩ }
            ⟨len, block.start, old.next, old.prev⟩).map fun (st, answer) => (st, 0, answer)

/-! ## Release -/

/-- The block of a chunk goes back to the backend. -/
def State.giveBack (st : State shadow) (ck : Nat) : State shadow :=
  if (st.chunks ck).alignedOrig ≠ 0 then st.backendFree (st.chunks ck).alignedOrig
  else st.backendFree ck

def evict (ck : Nat) : Nat → State shadow → Except Stop (State shadow)
  | 0, _ => .error .endless
  | fuel + 1, st =>
      if ((st.chunks ck).requestedSize + st.quarantineBytes) % 2 ^ 64 ≥ quarantineMaxBytes then
        let tmp := st.quarantineEnd
        if tmp = 0 then .error .fault
        else
          let st := { st with
            quarantineEnd := (st.chunks tmp).prev
            quarantineBytes :=
              (st.quarantineBytes + 2 ^ 64 - (st.chunks tmp).requestedSize) % 2 ^ 64 }
          evict ck fuel (st.giveBack tmp)
      else .ok st

/-- `quarantine_push`; `busy` says that the lock is held. A quarantine has fewer chunks than there
are addresses. -/
def quarantinePush (busy : Bool) (st : State shadow) (ck : Nat) :
    Except Stop (State shadow × Bool) :=
  if (st.chunks ck).requestedSize ≥ quarantineMaxBytes then .ok (st, false)
  else if busy then .ok (st, false)
  else do
    let st ← evict ck (2 ^ 64) st
    let st := st.setChunk ck { st.chunks ck with next := st.quarantineTop }
    let top := st.quarantineTop
    let st := if top ≠ 0 then st.setChunk top { st.chunks top with prev := ck } else st
    return ({ st with quarantineTop := ck }, true)

/-- `__libqasan_free`; `zone` is the address of the zone for early allocations. -/
def free (zone : Nat) (busy : Bool) (st : State shadow) (ptr : Nat) :
    Except Stop (State shadow) :=
  if ptr = 0 then .ok st
  else if zone ≤ ptr ∧ ptr < zone + tmpZoneSize then .ok st
  else do
    let p := ptr - chunkBeginSize
    let n := (st.chunks p).requestedSize
    let (st, pushed) ← quarantinePush busy st p
    let st := if pushed then st else st.giveBack p
    return st.poison ⟨ptr, padded n⟩ .heapFreed

end

end SbFuzz.QemuMode.QasanMalloc
