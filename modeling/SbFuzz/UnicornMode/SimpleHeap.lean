import Mathlib.Algebra.Ring.Nat
import SbFuzz.Memory.Pages
import SbFuzz.Systems.Machine

/-! `UnicornSimpleHeap` of the AFL++ Unicorn loader: a heap whose chunks are mapped
regions with a guard page at both ends, and the hook that checks accesses. -/

set_option autoImplicit false

namespace SbFuzz.UnicornMode.SimpleHeap

open Memory (pageSize pageUp)
open Systems

/-! ## The engine -/

/-- Mapped pages, by their numbers, and the bytes of all addresses. -/
structure Uc where
  pages : Nat → Bool
  memory : Nat → UInt8

/-- An engine without regions. -/
def Uc.empty : Uc := ⟨fun _ => false, fun _ => 0⟩

/-- What is not decided by the class. -/
structure Config where
  /-- `uaf_check`, which the constructor takes and does not store. -/
  uafCheck : Option Bool
  debugPrint : Bool
  /-- What `mem_write` gets from `str` of a `bytearray`: in Python 3 a text, which
  `ctypes` refuses, in Python 2 the bytes. -/
  str : List UInt8 → Option (List UInt8)
  /-- Whether the host has memory for a region. -/
  hostHas : Nat → Bool

/-- `mem_map` of an aligned address; `ctypes` cuts the size to 64 bits. -/
def Uc.memMap (uc : Uc) (config : Config) (address size : Nat) : Option Uc :=
  let size := size % 2 ^ 64
  if size = 0 ∨ 2 ^ 64 < address + size then none
  else if size % pageSize ≠ 0 then none
  else if (List.range (size / pageSize)).any fun k => uc.pages (address / pageSize + k) then none
  else if config.hostHas size then
    some {
      pages := fun page => uc.pages page ||
        decide (address / pageSize ≤ page ∧ page < address / pageSize + size / pageSize)
      memory := fun byte =>
        if address ≤ byte ∧ byte < address + size then 0 else uc.memory byte }
  else none

/-- `mem_unmap` of an aligned address. -/
def Uc.memUnmap (uc : Uc) (address size : Nat) : Option Uc :=
  let size := size % 2 ^ 64
  if size % pageSize ≠ 0 then none
  else if (List.range (size / pageSize)).all fun k => uc.pages (address / pageSize + k) then
    some { uc with
      pages := fun page => uc.pages page &&
        !decide (address / pageSize ≤ page ∧ page < address / pageSize + size / pageSize) }
  else none

def Uc.isMapped (uc : Uc) (address : Nat) : Bool := uc.pages (address / pageSize)

def Uc.memRead (uc : Uc) (address size : Nat) : Option (List UInt8) :=
  if (List.range size).all fun k => uc.isMapped (address + k) then
    some ((List.range size).map fun k => uc.memory (address + k))
  else none

def Uc.memWrite (uc : Uc) (address : Nat) (data : List UInt8) : Option Uc :=
  if (List.range data.length).all fun k => uc.isMapped (address + k) then
    some { uc with
      memory := fun byte => if address ≤ byte then data.getD (byte - address) (uc.memory byte)
        else uc.memory byte }
  else none

/-! ## Chunks -/

structure HeapChunk where
  actualAddr : Nat
  /-- With padding and guard pages. -/
  totalSize : Nat
  dataSize : Nat
deriving DecidableEq, Repr

def HeapChunk.dataAddr (chunk : HeapChunk) : Nat := chunk.actualAddr + pageSize

def HeapChunk.isBufferInChunk (chunk : HeapChunk) (addr size : Nat) : Bool :=
  chunk.dataAddr ≤ addr ∧ addr + size ≤ chunk.dataAddr + chunk.dataSize

structure Heap where
  uc : Uc
  chunks : List HeapChunk
  chunksFreed : List HeapChunk

/-- How a call ends that does not return. -/
inductive Stop where
  | attributeError
  /-- `ctypes.ArgumentError`. -/
  | argumentError
  | ucError
  /-- `force_crash` ends the process. -/
  | crash
deriving DecidableEq, Repr

def heapMinAddr : Nat := 0x00002000

def heapMaxAddr : Nat := 0xffffffff

/-- `range(HEAP_MIN_ADDR, HEAP_MAX_ADDR, UNICORN_PAGE_SIZE)`. -/
def addresses : List Nat :=
  List.range' heapMinAddr ((heapMaxAddr - heapMinAddr + (pageSize - 1)) / pageSize) pageSize

def totalChunkSize (size : Nat) : Nat := pageSize + pageUp size + pageSize

/-- The first address at which the chunk can be mapped, and the engine then. -/
def Heap.findSpace (heap : Heap) (config : Config) (size : Nat) : Option (Nat × Uc) :=
  addresses.findSome? fun addr =>
    (heap.uc.memMap config addr (totalChunkSize size)).map fun uc => (addr, uc)

def Heap.malloc (config : Config) (heap : Heap) (size : Nat) : Heap × Except Stop Nat :=
  if size = 0 then (heap, .ok 0)
  else
    match heap.findSpace config size with
    | none => (heap, .ok 0)
    | some (addr, uc) =>
        let chunk : HeapChunk := ⟨addr, totalChunkSize size, size⟩
        match config.uafCheck with
        | none => ({ heap with uc }, .error .attributeError)
        | some uafCheck =>
            ({ uc
               chunks := heap.chunks ++ [chunk]
               chunksFreed :=
                if uafCheck then
                  heap.chunksFreed.eraseP fun freed => freed.isBufferInChunk chunk.dataAddr 1
                else heap.chunksFreed },
              .ok chunk.dataAddr)

def Heap.calloc (config : Config) (heap : Heap) (size count : Nat) : Heap × Except Stop Nat :=
  heap.malloc config (size * count)

def Heap.free (config : Config) (heap : Heap) (addr : Nat) : Heap × Except Stop Bool :=
  if addr = 0 then (heap, .ok false)
  else
    match heap.chunks.find? fun chunk => chunk.isBufferInChunk addr 1 with
    | none => (heap, .error .crash)
    | some chunk =>
        -- The text that is printed names an attribute that chunks do not have.
        if config.debugPrint then (heap, .error .attributeError)
        else
          match heap.uc.memUnmap chunk.actualAddr chunk.totalSize with
          | none => (heap, .error .ucError)
          | some uc =>
              match config.uafCheck with
              | none => ({ heap with uc }, .error .attributeError)
              | some uafCheck =>
                  ({ uc
                     chunks := heap.chunks.erase chunk
                     chunksFreed :=
                      if uafCheck then heap.chunksFreed ++ [chunk] else heap.chunksFreed },
                    .ok true)

/-- The last chunk whose data begin at the pointer. -/
def Heap.oldChunk (heap : Heap) (ptr : Nat) : Option HeapChunk :=
  heap.chunks.reverse.find? fun chunk => chunk.dataAddr == ptr

/-- The copy and the `free` of `realloc`, once there is a new chunk. -/
def Heap.replace (config : Config) (heap : Heap) (oldChunk : HeapChunk) (newChunkAddr : Nat) :
    Heap × Except Stop Nat :=
  match heap.uc.memRead oldChunk.dataAddr oldChunk.dataSize with
  | none => (heap, .error .ucError)
  | some data =>
      match config.str data with
      | none => (heap, .error .argumentError)
      | some text =>
          match heap.uc.memWrite newChunkAddr text with
          | none => (heap, .error .ucError)
          | some uc =>
              match Heap.free config { heap with uc } oldChunk.dataAddr with
              | (heap, .error stop) => (heap, .error stop)
              | (heap, .ok _) => (heap, .ok newChunkAddr)

def Heap.realloc (config : Config) (heap : Heap) (ptr newSize : Nat) : Heap × Except Stop Nat :=
  match heap.malloc config newSize with
  | (allocated, .error stop) => (allocated, .error stop)
  | (allocated, .ok newChunkAddr) =>
      match heap.oldChunk ptr with
      | none => (allocated, .ok newChunkAddr)
      | some oldChunk => allocated.replace config oldChunk newChunkAddr

/-- `__check_mem_access`: whether an access is answered with a crash. -/
def Heap.checkMemAccess (config : Config) (heap : Heap) (address size : Nat) : Bool :=
  (heap.chunks.any fun chunk =>
    decide (chunk.actualAddr ≤ address ∧ address + size ≤ chunk.actualAddr + chunk.totalSize) &&
      !chunk.isBufferInChunk address size) ||
  (config.uafCheck == some true && heap.chunksFreed.any fun chunk =>
    decide (chunk.actualAddr ≤ address ∧ address + size ≤ chunk.actualAddr + chunk.totalSize) &&
      chunk.isBufferInChunk address size)

/-! ## Runs -/

inductive Action where
  | malloc (size : Nat)
  | calloc (size count : Nat)
  | realloc (ptr newSize : Nat)
  | free (addr : Nat)
  /-- The emulated program writes to memory. -/
  | store (address : Nat) (data : List UInt8)

def Heap.apply (config : Config) (heap : Heap) : Action → Heap
  | .malloc size => (heap.malloc config size).1
  | .calloc size count => (heap.calloc config size count).1
  | .realloc ptr newSize => (heap.realloc config ptr newSize).1
  | .free addr => (heap.free config addr).1
  | .store address data =>
      match heap.uc.memWrite address data with
      | none => heap
      | some uc => { heap with uc }

/-- A heap in an engine that may have other regions. -/
def simpleHeap (config : Config) (uc : Uc) : Machine Heap Action where
  initial := ⟨uc, [], []⟩
  step heap action := some (heap.apply config action)

end SbFuzz.UnicornMode.SimpleHeap
