import SbFuzz.Memory.Cells

/-! `write_to_testcase`: post-processing by custom mutators, and the trade of the buffers `out` and
`out_scratch` that `AFL_POST_PROCESS_KEEP_ORIGINAL` undoes. -/

set_option autoImplicit false

namespace SbFuzz.Fuzzer.WriteToTestcase

open SbFuzz.Memory

def null : Block := 0

/-! ## Custom mutators -/

structure PostProcessed (Data : Type) where
  data : Data
  heap : Heap
  newBuf : Block
  newSize : Int

/-- `afl_custom_post_process`, from the data of the mutators, the memory, the buffer and its size,
and what `*out_buf` holds. -/
structure PostProcess (Data : Type) where
  run : Data → Heap → Block → Nat → Block → PostProcessed Data
  grows : ∀ data heap buf bufSize outBuf,
    heap.next ≤ (run data heap buf bufSize outBuf).heap.next

/-- `afl_custom_fuzz_send` must not write to the buffer. -/
structure CustomMutator (Data : Type) where
  postProcess : Option (PostProcess Data)
  fuzzSend : Option (Data → Heap → Block → Nat → Data)

section

variable {Data : Type}

/-- The local variables of the first loop over the mutators. -/
structure Processed (Data : Type) where
  data : Data
  heap : Heap
  newMem : Block
  newBuf : Block
  newSize : Nat

def Processed.next (processed : Processed Data) (el : CustomMutator Data) : Processed Data :=
  match el.postProcess with
  | none => processed
  | some postProcess =>
      let result := postProcess.run processed.data processed.heap processed.newMem
        processed.newSize processed.newBuf
      if result.newBuf = null ∨ result.newSize ≤ 0 then
        ⟨result.data, result.heap, processed.newMem, processed.newMem, 0⟩
      else ⟨result.data, result.heap, result.newBuf, result.newBuf, result.newSize.toNat⟩

/-! ## The fuzzer -/

structure Afl (Data : Type) where
  customMutators : List (CustomMutator Data)
  data : Data
  heap : Heap
  /-- What `realloc` answers. -/
  realloc : Heap → Block → Nat → Growth
  outBuf : Block
  outScratchBuf : Block
  postProcessKeepOriginal : Bool
  customMutatorLateSend : Bool
  minLength : Nat
  maxLength : Nat
  customInput : Block
  customInputLen : Nat
  /-- What `afl_fsrv_write_to_testcase` has delivered. -/
  testcases : List (List UInt8)

def Afl.postProcess (afl : Afl Data) (mem : Block) (len : Nat) : Processed Data :=
  afl.customMutators.foldl Processed.next ⟨afl.data, afl.heap, mem, null, len⟩

def Afl.clamp (afl : Afl Data) (fix : Bool) (size : Nat) : Nat :=
  if size < afl.minLength ∧ ¬ fix then afl.minLength
  else if afl.maxLength < size then afl.maxLength
  else size

def Afl.swapBufs (afl : Afl Data) : Afl Data :=
  { afl with outBuf := afl.outScratchBuf, outScratchBuf := afl.outBuf }

def Afl.deliver (afl : Afl Data) (mem : Block) (size : Nat) : Afl Data :=
  { afl with testcases := afl.testcases ++ [afl.heap.load mem size] }

/-- A processed test case is copied to the scratch buffer, which becomes `out`. The results are
`*mem` and `new_mem`; there are none when the allocation fails. -/
def Afl.install (afl : Afl Data) (mem newMem : Block) (newSize : Nat) :
    Option (Afl Data × Block × Block) :=
  if newMem ≠ mem ∧ newMem ≠ null ∧ 0 < newSize then
    (afl.heap.grow afl.outScratchBuf (afl.realloc afl.heap afl.outScratchBuf newSize)).bind
      fun (heap, newBuf) =>
        if newBuf = null then none
        else
          some (Afl.swapBufs { afl with
              heap := heap.store newBuf (heap.load newMem newSize), outScratchBuf := newBuf },
            newBuf, if afl.postProcessKeepOriginal then mem else newMem)
  else some (afl, mem, newMem)

/-- One mutator of the second loop; the flag is `sent`. -/
def CustomMutator.send (mem : Block) (newSize : Nat) (state : Afl Data × Bool)
    (el : CustomMutator Data) : Afl Data × Bool :=
  match el.fuzzSend with
  | none => state
  | some fuzzSend =>
      if state.1.customMutatorLateSend then
        ({ state.1 with customInput := mem, customInputLen := newSize }, true)
      else
        ({ state.1 with data := fuzzSend state.1.data state.1.heap mem newSize }, true)

structure Written (Data : Type) where
  afl : Afl Data
  mem : Block
  len : Nat

/-- The second loop, and the delivery when no mutator has sent the test case. -/
def Afl.send (afl : Afl Data) (mem newMem : Block) (newSize len : Nat) : Written Data :=
  let (afl, sent) := afl.customMutators.foldl (CustomMutator.send mem newSize) (afl, false)
  if sent then ⟨afl, mem, len⟩
  else
    let afl := afl.deliver mem newSize
    if afl.postProcessKeepOriginal then ⟨afl.swapBufs, newMem, len⟩ else ⟨afl, mem, newSize⟩

def writeToTestcase (afl : Afl Data) (mem : Block) (len : Nat) (fix : Bool) :
    Option (Written Data) :=
  if afl.customMutators.isEmpty then
    let len := afl.clamp fix len
    some ⟨afl.deliver mem len, mem, len⟩
  else
    let processed := afl.postProcess mem len
    let afl := { afl with data := processed.data, heap := processed.heap }
    -- Dummy runs are performed, all others are skipped.
    if processed.newSize = 0 ∧ ¬ fix then some ⟨afl, mem, 0⟩
    else
      let newSize := afl.clamp fix (if processed.newSize = 0 then len else processed.newSize)
      (afl.install mem processed.newMem newSize).map fun (afl, mem, newMem) =>
        afl.send mem newMem newSize len

/-! ## Loops -/

end

end SbFuzz.Fuzzer.WriteToTestcase
