import SbFuzz.Fuzzer.WriteToTestcase

/-! When the caller of `write_to_testcase` gets its test case and the fuzzer its buffers back. -/

set_option autoImplicit false

namespace SbFuzz.Fuzzer.WriteToTestcase

open SbFuzz.Memory

section

variable {Data : Type} {afl after : Afl Data} {mem current newMem back : Block}
  {len newSize : Nat} {fix : Bool}

/-- The callers pass the buffer `out`, a queue entry, or memory of a mutator. -/
structure Apart (afl : Afl Data) (mem : Block) : Prop where
  known : mem < afl.heap.next
  scratch : mem ≠ afl.outScratchBuf
  buffers : afl.outBuf ≠ afl.outScratchBuf

/-- The size to deliver, as the post-processors and the bounds have it. -/
def Afl.sendSize (afl : Afl Data) (mem : Block) (len : Nat) (fix : Bool) : Nat :=
  afl.clamp fix (if (afl.postProcess mem len).newSize = 0 then len
    else (afl.postProcess mem len).newSize)

/-- The last post-processor that succeeds returns a buffer of its own, and none of them writes to
the test case. -/
structure Replaced (afl : Afl Data) (mem : Block) (len : Nat) (fix : Bool) : Prop where
  newMem : (afl.postProcess mem len).newMem ≠ mem
  sendSize : 0 < afl.sendSize mem len fix
  bytes : (afl.postProcess mem len).heap.load mem len = afl.heap.load mem len

def Afl.processed (afl : Afl Data) (mem : Block) (len : Nat) : Afl Data :=
  { afl with data := (afl.postProcess mem len).data, heap := (afl.postProcess mem len).heap }

end

end SbFuzz.Fuzzer.WriteToTestcase
