import Mathlib.Algebra.Ring.Nat
import Mathlib.Logic.Function.Basic
import SbFuzz.Systems.Machine

/-! The testcase cache of the queue: buffers that entries keep, and the array of slots
from which they are evicted. -/

set_option autoImplicit false

namespace SbFuzz.Fuzzer.TestcaseCache

open Systems

/-- The part of `queue_entry` that the cache reads. -/
structure QueueEntry where
  len : UInt32
  weight : Rat
  /-- The size of the block behind `testcase_buf`, when it is not null. -/
  testcaseBuf : Option UInt32

/-- The part of `afl_state_t` that is about the cache; pointers to entries are their indices. -/
structure Afl where
  queueBuf : Nat → QueueEntry
  queuedItems : Nat
  queueCur : Option Nat
  maxCacheSize : UInt64
  maxCacheEntries : Nat
  cacheSize : UInt64
  maxCacheCount : Nat
  cacheCount : Nat
  smallestFree : Nat
  evictions : UInt32
  cache : Nat → Option Nat
  /-- How many slots the array `q_testcase_cache` has. -/
  slots : Nat
  doOnce : Bool

def Afl.modify (afl : Afl) (q : Nat) (change : QueueEntry → QueueEntry) : Afl :=
  { afl with queueBuf := Function.update afl.queueBuf q (change (afl.queueBuf q)) }

/-- `q_testcase_max_cache_entries - 1`, an `u32`. -/
def Afl.mostEntries (afl : Afl) : Nat := (afl.maxCacheEntries + 0xffffffff) % 2 ^ 32

def Afl.exceeds (afl : Afl) (len : UInt32) : Bool :=
  afl.maxCacheSize ≤ afl.cacheSize + len.toUInt64

/-! ## Getting a testcase -/

/-- The condition of the loop that evicts. -/
def Afl.full (afl : Afl) (len : UInt32) : Bool :=
  (afl.exceeds len && decide (1 < afl.cacheCount)) || decide (afl.mostEntries ≤ afl.cacheCount)

/-- Once the cache is filled by size, that is the maximum of its entries. -/
def Afl.learn (afl : Afl) (len : UInt32) : Afl :=
  if afl.exceeds len && decide (afl.cacheCount < afl.maxCacheEntries) &&
      decide (afl.maxCacheCount < afl.maxCacheEntries) && !afl.doOnce then
    let entries :=
      if afl.cacheCount < afl.maxCacheCount then afl.maxCacheCount + 1 else afl.cacheCount + 1
    { afl with maxCacheEntries := entries, doOnce := true, slots := entries + 1 }
  else afl

/-- The slot that is drawn in the end: it is not empty and not that of the current entry. -/
def Afl.evict (afl : Afl) (tid : Nat) : Option Afl :=
  if tid < max 1 afl.maxCacheCount ∧ tid < afl.slots then
    match afl.cache tid with
    | none => none
    | some oldCached =>
        if afl.queueCur = some oldCached then none
        else
          some { afl.modify oldCached fun entry => { entry with testcaseBuf := none } with
            cacheSize := afl.cacheSize - (afl.queueBuf oldCached).len.toUInt64
            cache := Function.update afl.cache tid none
            cacheCount := afl.cacheCount - 1
            evictions := afl.evictions + 1
            smallestFree := if tid < afl.smallestFree then tid else afl.smallestFree }
  else none

/-- The loop that evicts, with the slots that it draws, and the slot that it leaves in `tid`. -/
def Afl.makeRoom (len : UInt32) : List Nat → Afl → Nat → Option (Afl × Nat)
  | draws, afl, tid =>
    if afl.full len then
      match draws with
      | [] => none
      | draw :: draws => ((afl.learn len).evict draw).bind fun afl => makeRoom len draws afl draw
    else some (afl, tid)

/-- `while (q_testcase_cache[tid] != NULL) ++tid` -/
def Afl.nextFree (afl : Afl) (tid : Nat) : Option Nat :=
  (List.range' tid (afl.slots - tid)).find? fun tid => afl.cache tid == none

/-- A buffer is made for the entry, and the slot is its own. -/
def Afl.register (afl : Afl) (q tid : Nat) : Afl :=
  { afl.modify q fun entry => { entry with testcaseBuf := some entry.len } with
    cache := Function.update afl.cache tid (some q)
    cacheSize := afl.cacheSize + (afl.queueBuf q).len.toUInt64
    cacheCount := afl.cacheCount + 1
    maxCacheCount := if afl.maxCacheCount ≤ tid then tid + 1 else afl.maxCacheCount
    smallestFree :=
      if afl.maxCacheCount ≤ tid then afl.smallestFree
      else if tid = afl.smallestFree then tid + 1 else afl.smallestFree }

def queueTestcaseGet (afl : Afl) (q : Nat) (draws : List Nat) : Option Afl :=
  let entry := afl.queueBuf q
  if entry.testcaseBuf.isSome then some afl
  else if entry.weight < 1 ∨ afl.maxCacheSize = 0 then some afl
  else
    (afl.makeRoom entry.len draws afl.maxCacheCount).bind fun (afl, tid) =>
      (afl.nextFree (if afl.maxCacheEntries ≤ tid then afl.smallestFree else tid)).map
        fun tid => afl.register q tid

/-! ## Storing and retaking a testcase -/

def queueTestcaseStoreMem (afl : Afl) (q : Nat) : Option Afl :=
  if (afl.queueBuf q).weight < 1 ∨ afl.exceeds (afl.queueBuf q).len = true ∨
      afl.mostEntries ≤ afl.cacheCount then some afl
  else
    (afl.nextFree (if afl.maxCacheEntries ≤ afl.maxCacheCount then afl.smallestFree
      else afl.maxCacheCount)).map fun tid => afl.register q tid

def queueTestcaseRetake (afl : Afl) (q : Nat) (oldLen : UInt32) : Afl :=
  let len := (afl.queueBuf q).len
  if (afl.queueBuf q).testcaseBuf.isSome then
    if oldLen < len ∨ len < oldLen + 1024 then
      { afl.modify q fun entry => { entry with testcaseBuf := some len } with
        cacheSize := afl.cacheSize + (len - oldLen).toUInt64 }
    else afl
  else afl

/-- `same` says that the data are those in `testcase_buf`, `moved` that `realloc` has a block. -/
def queueTestcaseRetakeMem (afl : Afl) (q : Nat) (same moved : Bool) (len oldLen : UInt32) : Afl :=
  if (afl.queueBuf q).testcaseBuf.isSome then
    if !same && decide (len < oldLen + 1024) && moved then
      { afl.modify q fun entry => { entry with testcaseBuf := some len } with
        cacheSize := afl.cacheSize + (len - oldLen).toUInt64 }
    else afl
  else afl

/-! ## Runs -/

inductive Action where
  | get (q : Nat) (draws : List Nat)
  /-- `add_to_queue` -/
  | add (len : UInt32) (weight : Rat)
  /-- `queue_testcase_store_mem` for an entry that was just added. -/
  | save (len : UInt32) (weight : Rat)
  /-- `trim_case`, with a custom trimmer or without. -/
  | trimCustom (q : Nat) (len : UInt32)
  | trim (q : Nat) (len : UInt32) (same moved : Bool)
  | weigh (q : Nat) (weight : Rat)
  | select (q : Option Nat)

def addToQueue (afl : Afl) (len : UInt32) (weight : Rat) : Afl :=
  { afl with
    queueBuf := Function.update afl.queueBuf afl.queuedItems ⟨len, weight, none⟩
    queuedItems := afl.queuedItems + 1 }

def Afl.apply (afl : Afl) : Action → Option Afl
  | .get q draws => if q < afl.queuedItems then queueTestcaseGet afl q draws else none
  | .add len weight => some (addToQueue afl len weight)
  | .save len weight => queueTestcaseStoreMem (addToQueue afl len weight) afl.queuedItems
  | .trimCustom q len =>
      if q < afl.queuedItems then
        some (queueTestcaseRetake (afl.modify q fun entry => { entry with len }) q
          (afl.queueBuf q).len)
      else none
  | .trim q len same moved =>
      if q < afl.queuedItems then
        some (queueTestcaseRetakeMem (afl.modify q fun entry => { entry with len }) q same moved
          len (afl.queueBuf q).len)
      else none
  | .weigh q weight => some (afl.modify q fun entry => { entry with weight })
  | .select q => some { afl with queueCur := q }

/-- A cache of a given size. -/
def testcaseCache (maxCacheSize : UInt64) (maxCacheEntries : UInt32) : Machine Afl Action where
  initial := {
    queueBuf := fun _ => ⟨0, 0, none⟩
    queuedItems := 0
    queueCur := none
    maxCacheSize
    maxCacheEntries := maxCacheEntries.toNat
    cacheSize := 0
    maxCacheCount := 0
    cacheCount := 0
    smallestFree := 0
    evictions := 0
    cache := fun _ => none
    slots := maxCacheEntries.toNat
    doOnce := false }
  step := Afl.apply

end SbFuzz.Fuzzer.TestcaseCache
