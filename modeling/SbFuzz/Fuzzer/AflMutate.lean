import SbFuzz.Fuzzer.AsciiNumber
import SbFuzz.Fuzzer.Deterministic
import SbFuzz.Systems.Buffers

/-! `afl_mutate` (`include/afl-mutations.h`): random mutations of a buffer that may
grow to `max_len` bytes. A step that leaves one of its buffers crashes. -/

set_option autoImplicit false

namespace SbFuzz.Fuzzer.AflMutate

open SbFuzz.Systems SbFuzz.Systems.Draws SbFuzz.Systems.Buffers
open Deterministic (unsigned swap16 swap32)
open AsciiNumber (change wrap decimal snprintf)

/-! ## Strategies -/

/-- In the order of the enumeration. -/
inductive Mutation where
  | flipbit
  | interesting8
  | interesting16
  | interesting16be
  | interesting32
  | interesting32be
  | arith8Sub
  | arith8
  | arith16Sub
  | arith16beSub
  | arith16
  | arith16be
  | arith32Sub
  | arith32beSub
  | arith32
  | arith32be
  | rand8
  | cloneCopy
  | cloneFixed
  | overwriteCopy
  | overwriteFixed
  | byteadd
  | bytesub
  | flip8
  | switch
  | del
  | shuffle
  | delone
  | insertone
  | asciinum
  | insertasciinum
  | extraOverwrite
  | extraInsert
  | autoExtraOverwrite
  | autoExtraInsert
  | spliceOverwrite
  | spliceInsert
  deriving DecidableEq

def mutations : List Mutation :=
  [.flipbit, .interesting8, .interesting16, .interesting16be, .interesting32, .interesting32be,
    .arith8Sub, .arith8, .arith16Sub, .arith16beSub, .arith16, .arith16be, .arith32Sub,
    .arith32beSub, .arith32, .arith32be, .rand8, .cloneCopy, .cloneFixed, .overwriteCopy,
    .overwriteFixed, .byteadd, .bytesub, .flip8, .switch, .del, .shuffle, .delone, .insertone,
    .asciinum, .insertasciinum, .extraOverwrite, .extraInsert, .autoExtraOverwrite,
    .autoExtraInsert, .spliceOverwrite, .spliceInsert]

/-- Each of the arrays has the mutations in order, each one so many times. -/
def arrayOf (counts : List Nat) : List Mutation :=
  (mutations.zip counts).flatMap fun entry => List.replicate entry.2 entry.1

def mutationStrategyExplorationText : List Mutation :=
  arrayOf [6, 5, 5, 5, 5, 5, 6, 6, 6, 6, 6, 6, 6, 6, 6, 6, 6, 13, 10, 9, 8, 6, 6, 8, 8, 7, 8, 7, 6,
    8, 8, 8, 8, 6, 6, 9, 10]

def mutationStrategyExplorationBinary : List Mutation :=
  arrayOf [7, 6, 6, 6, 6, 6, 7, 7, 6, 6, 6, 6, 6, 6, 7, 6, 6, 14, 9, 9, 7, 7, 7, 10, 7, 6, 6, 6, 6,
    6, 6, 7, 7, 6, 6, 8, 10]

def mutationStrategyExploitationText : List Mutation :=
  arrayOf [7, 7, 7, 7, 8, 8, 6, 7, 6, 7, 7, 7, 6, 6, 6, 7, 7, 9, 8, 6, 6, 7, 6, 9, 7, 6, 7, 5, 6,
    6, 8, 7, 7, 7, 7, 7, 9]

def mutationStrategyExploitationBinary : List Mutation :=
  arrayOf [7, 7, 7, 7, 8, 8, 6, 7, 6, 7, 7, 7, 6, 7, 7, 7, 7, 9, 8, 6, 6, 7, 6, 10, 7, 6, 6, 5, 6,
    5, 7, 7, 7, 7, 7, 7, 9]

def mutStrategyArraySize : Nat := 256

/-! ## Data -/

/-- What is read of `afl_state_t`. -/
structure Afl where
  queueCycle : Nat
  runOver10m : Bool
  extras : List (List UInt8)
  aExtras : List (List UInt8)

/-- The arguments that a call leaves as they are. -/
structure Arguments where
  isText : Bool
  isExploration : Bool
  /-- `splice_len` bytes, none where the pointer is `NULL`. -/
  spliceBuf : List UInt8
  maxLen : Nat

/-- The two buffers with all the room they have, and `len`. -/
structure State where
  buf : List UInt8
  tmpBuf : List UInt8
  len : Nat

def mutationArray (args : Arguments) : List Mutation :=
  if args.isText then
    if args.isExploration then mutationStrategyExplorationText
    else mutationStrategyExploitationText
  else
    if args.isExploration then mutationStrategyExplorationBinary
    else mutationStrategyExploitationBinary

def u32 (sum : Nat) : Nat := sum % 0x100000000

/-! ## Blocks -/

def havocBlkSmall : Nat := 32

def havocBlkMedium : Nat := 128

def havocBlkLarge : Nat := 1500

def havocBlkXl : Nat := 32768

def blockRange (size : Nat) : Draws (Nat × Nat) :=
  match size with
  | 0 => pure (1, havocBlkSmall)
  | 1 => pure (havocBlkSmall, havocBlkMedium)
  | _ => do
      let common ← below 10
      if common ≠ 0 then pure (havocBlkMedium, havocBlkLarge)
      else pure (havocBlkLarge, havocBlkXl)

def chooseBlockLen (afl : Afl) (limit : Nat) : Draws Nat := do
  let rlim := if afl.runOver10m then min afl.queueCycle 3 else 1
  let size ← below rlim
  let range ← blockRange size
  let minValue := if limit ≤ range.1 then 1 else range.1
  -- The difference in front of the sum is -1 where the limit is 0.
  let drawn ← below (min range.2 limit + 1 - minValue)
  pure (minValue + drawn)

/-- The bytes from `pos` on, `oldLen` of them, make room for others by way of `tmp_buf`. -/
def replaceBlock (st : State) (pos oldLen : Nat) (src : List UInt8) (srcPos newLen : Nat) :
    Draws State := do
  let head ← copy st.tmpBuf 0 st.buf 0 pos
  let inserted ← copy head pos src srcPos newLen
  let tail ← copy inserted (pos + newLen) st.buf (pos + oldLen) (st.len - (pos + oldLen))
  let len := u32 (st.len + newLen - oldLen)
  let buf ← copy st.buf 0 tail 0 len
  pure ⟨buf, tail, len⟩

/-- `item` of the blocks of constant bytes. -/
def fixedByte (st : State) (pos : Nat) : Draws UInt8 := do
  let strat ← below 2
  let cloneFrom := if pos ≠ 0 then pos - 1 else 0
  if strat ≠ 0 then do
    let item ← below 256
    pure (.ofNat item)
  else loadByte st.buf cloneFrom

def deleteBlock (st : State) (delLen : Nat) : Draws State := do
  let delFrom ← below (st.len - delLen + 1)
  let buf ← copy st.buf delFrom st.buf (delFrom + delLen) (st.len - delFrom - delLen)
  pure ⟨buf, st.tmpBuf, st.len - delLen⟩

/-! ## Mutations of bytes and words -/

def modifyByte (st : State) (pos : Nat) (new : UInt8 → UInt8) : Draws State := do
  let byte ← loadByte st.buf pos
  let buf ← storeByte st.buf pos (new byte)
  pure { st with buf }

def modifyWord (width : Nat) (st : State) (pos : Nat) (new : Nat → Nat) : Draws State := do
  let word ← loadWord width st.buf pos
  let buf ← storeWord width st.buf pos (new word)
  pure { st with buf }

def flipbit (st : State) : Draws State := do
  let bit ← below 8
  let off ← below st.len
  modifyByte st off (· ^^^ .ofNat (1 <<< bit))

def interesting8 (st : State) : Draws State := do
  let item ← below Deterministic.interesting8.length
  let value ← fetch Deterministic.interesting8[item]?
  let pos ← below st.len
  let buf ← storeByte st.buf pos (.ofNat (unsigned 8 value))
  pure { st with buf }

/-- The words that are wider, in a byte order. -/
def interesting (width : Nat) (values : List Int) (swap : Nat → Nat) (st : State) : Draws State :=
  if st.len < width then pure st
  else do
    let item ← below values.length
    let value ← fetch values[item]?
    let pos ← below (st.len - (width - 1))
    let buf ← storeWord width st.buf pos (swap (unsigned (8 * width) value))
    pure { st with buf }

def arithMax : Nat := 35

def arith8 (new : UInt8 → UInt8 → UInt8) (st : State) : Draws State := do
  let drawn ← below arithMax
  let pos ← below st.len
  modifyByte st pos (new · (.ofNat (1 + drawn)))

def add (width word item : Nat) : Nat := (word + item) % 2 ^ (8 * width)

def sub (width word item : Nat) : Nat := (word + 2 ^ (8 * width) - item) % 2 ^ (8 * width)

def arith (width : Nat) (new : Nat → Nat → Nat → Nat) (swap : Nat → Nat) (st : State) :
    Draws State :=
  if st.len < width then pure st
  else do
    let pos ← below (st.len - (width - 1))
    let drawn ← below arithMax
    modifyWord width st pos fun word => swap (new width (swap word) (1 + drawn))

def rand8 (st : State) : Draws State := do
  let pos ← below st.len
  let drawn ← below 255
  modifyByte st pos (· ^^^ .ofNat (1 + drawn))

/-- `MUT_BYTEADD`, `MUT_BYTESUB` and `MUT_FLIP8`. -/
def bytewise (new : UInt8 → UInt8) (st : State) : Draws State := do
  let pos ← below st.len
  modifyByte st pos new

/-! ## Mutations of blocks

The state behind the mutation, none where another one is to be drawn. -/

def cloneCopy (afl : Afl) (args : Arguments) (st : State) : Draws (Option State) :=
  if u32 (st.len + havocBlkXl) < args.maxLen then do
    let cloneLen ← chooseBlockLen afl st.len
    let cloneFrom ← below (st.len - cloneLen + 1)
    let cloneTo ← below st.len
    let after ← replaceBlock st cloneTo 0 st.buf cloneFrom cloneLen
    pure (some after)
  else pure (if st.len < 8 then some st else none)

def cloneFixed (afl : Afl) (args : Arguments) (st : State) : Draws (Option State) :=
  if u32 (st.len + havocBlkXl) < args.maxLen then do
    let cloneLen ← chooseBlockLen afl havocBlkXl
    let cloneTo ← below st.len
    let item ← fixedByte st cloneTo
    let after ← replaceBlock st cloneTo 0 (List.replicate cloneLen item) 0 cloneLen
    pure (some after)
  else pure (if st.len < 8 then some st else none)

def overwriteCopy (afl : Afl) (st : State) : Draws State :=
  if st.len < 2 then pure st
  else do
    let copyLen ← chooseBlockLen afl (st.len - 1)
    let copyFrom ← below (st.len - copyLen + 1)
    let copyTo ← below (st.len - copyLen + 1)
    if copyFrom ≠ copyTo then do
      let buf ← copy st.buf copyTo st.buf copyFrom copyLen
      pure { st with buf }
    else pure st

def overwriteFixed (afl : Afl) (st : State) : Draws State :=
  if st.len < 2 then pure st
  else do
    let copyLen ← chooseBlockLen afl (st.len - 1)
    let copyTo ← below (st.len - copyLen + 1)
    let item ← fixedByte st copyTo
    let buf ← fill st.buf copyTo item copyLen
    pure { st with buf }

def switch (afl : Afl) (st : State) : Draws State :=
  if st.len < 4 then pure st
  else do
    let switchFrom ← below st.len
    let switchTo ← belowExcept st.len switchFrom
    let limit :=
      if switchFrom < switchTo then min (switchTo - switchFrom) (st.len - switchTo)
      else min (switchFrom - switchTo) (st.len - switchFrom)
    let switchLen ← chooseBlockLen afl limit
    let tmpBuf ← copy st.tmpBuf 0 st.buf switchFrom switchLen
    let first ← copy st.buf switchFrom st.buf switchTo switchLen
    let second ← copy first switchTo tmpBuf 0 switchLen
    pure ⟨second, tmpBuf, st.len⟩

def del (afl : Afl) (st : State) : Draws State :=
  if st.len < 2 then pure st
  else do
    let delLen ← chooseBlockLen afl (st.len - 1)
    deleteBlock st delLen

/-- The loop from the last byte of the block down. -/
def shuffleLoop (off : Nat) : Nat → List UInt8 → Draws (List UInt8)
  | 0, buf => pure buf
  | i + 1, buf => do
      let j ← belowExcept (i + 2) (i + 1)
      let temp ← loadByte buf (off + (i + 1))
      let other ← loadByte buf (off + j)
      let first ← storeByte buf (off + (i + 1)) other
      let second ← storeByte first (off + j) temp
      shuffleLoop off i second

def shuffle (afl : Afl) (st : State) : Draws State :=
  if st.len < 4 then pure st
  else do
    let blen ← chooseBlockLen afl (st.len - 1)
    let off ← below (st.len - blen + 1)
    let buf ← shuffleLoop off (blen - 1) st.buf
    pure { st with buf }

def delone (st : State) : Draws State := if st.len < 2 then pure st else deleteBlock st 1

def insertone (st : State) : Draws State :=
  if st.len < 2 then pure st
  else do
    let cloneTo ← below st.len
    let item ← fixedByte st cloneTo
    replaceBlock st cloneTo 0 [item] 0 1

/-! ## Numbers -/

/-- A loop over the bytes that pass a test, in front of a position. -/
def scan (test : UInt8 → Bool) (buf : List UInt8) (stop : Nat) : Nat → Nat → Draws Nat
  | 0, pos => pure pos
  | rounds + 1, pos =>
    if pos < stop then do
      let byte ← loadByte buf pos
      if test byte then scan test buf stop rounds (pos + 1) else pure pos
    else pure pos

/-- The first digit from an offset on; none found, the search wraps. -/
def locate (st : State) (off : Nat) : Draws (Option Nat) := do
  let found ← scan (!AsciiNumber.isDigit ·) st.buf st.len st.len off
  if found = st.len then do
    let wrapped ← scan (!AsciiNumber.isDigit ·) st.buf off off 0
    pure (if wrapped = off then none else some wrapped)
  else pure (some found)

def parseLoop (buf : List UInt8) : Nat → Nat → Int → Draws Int
  | 0, _, val => pure val
  | rounds + 1, i, val => do
      let byte ← loadByte buf i
      parseLoop buf rounds (i + 1) (wrap (wrap (wrap (val * 10) + byte.toNat) - 0x30))

def parse (buf : List UInt8) (off off2 : Nat) : Draws Int := do
  let first ← loadByte buf off
  let val ← parseLoop buf (off2 - (off + 1)) (off + 1) (first.toNat - 0x30)
  if off ≠ 0 then do
    let sign ← loadByte buf (off - 1)
    pure (if sign = 0x2D then wrap (-val) else val)
  else pure val

/-- The strategies that draw a number. -/
def stratValue (strat : Nat) : Draws Nat := if 4 ≤ strat ∧ strat ≤ 6 then word else pure 0

def asciinum (st : State) : Draws (Option State) :=
  if st.len < 4 then pure (some st)
  else do
    let drawn ← below st.len
    let located ← locate st drawn
    match located with
    | none => pure (if st.len < 8 then some st else none)
    | some off => do
        let off2 ← scan AsciiNumber.isDigit st.buf st.len st.len (off + 1)
        let val ← parse st.buf off off2
        let strat ← below 8
        let value ← stratValue strat
        -- The size is `sizeof(buf)`, of a pointer.
        let numbuf := snprintf 8 (decimal (change strat value val))
        if off2 - off = numbuf.length then do
          let buf ← copy st.buf off numbuf 0 numbuf.length
          pure (some { st with buf })
        else do
          let after ← replaceBlock st off (off2 - off) numbuf 0 numbuf.length
          pure (some after)

def insertasciinum (st : State) : Draws (Option State) := do
  let drawn ← below 8
  let pos ← below st.len
  if st.len < u32 (pos + (1 + drawn)) then pure (if st.len < 8 then some st else none)
  else do
    let val ← word
    let numbuf := snprintf 32 (decimal val)
    let insLen := min (1 + drawn) numbuf.length
    let buf ← copy st.buf pos numbuf (numbuf.length - insLen) insLen
    pure (some { st with buf })

/-! ## Tokens and splices -/

def extraOverwrite (extras : List (List UInt8)) (st : State) : Draws (Option State) :=
  if extras.length = 0 then pure none
  else do
    let useExtra ← below extras.length
    let extra ← fetch extras[useExtra]?
    if st.len < extra.length then pure none
    else do
      let insertAt ← below (st.len - extra.length + 1)
      let buf ← copy st.buf insertAt extra 0 extra.length
      pure (some { st with buf })

def extraInsert (extras : List (List UInt8)) (args : Arguments) (st : State) :
    Draws (Option State) :=
  if extras.length = 0 then pure none
  else do
    let useExtra ← below extras.length
    let extra ← fetch extras[useExtra]?
    if args.maxLen ≤ u32 (st.len + extra.length) then pure none
    else do
      let insertAt ← below (u32 (st.len + 1))
      let moved ← copy st.buf (insertAt + extra.length) st.buf insertAt (st.len - insertAt)
      let buf ← copy moved insertAt extra 0 extra.length
      pure (some ⟨buf, st.tmpBuf, u32 (st.len + extra.length)⟩)

def spliceOverwrite (afl : Afl) (args : Arguments) (st : State) : Draws (Option State) :=
  if args.spliceBuf.length = 0 then pure none
  else do
    let chosen ← chooseBlockLen afl (args.spliceBuf.length - 1)
    let copyLen := if st.len < chosen then st.len else chosen
    let copyFrom ← below (args.spliceBuf.length - copyLen + 1)
    let copyTo ← below (st.len - copyLen + 1)
    let buf ← copy st.buf copyTo args.spliceBuf copyFrom copyLen
    pure (some { st with buf })

def spliceInsert (afl : Afl) (args : Arguments) (st : State) : Draws (Option State) :=
  if args.spliceBuf.length = 0 then pure none
  else if args.maxLen ≤ u32 (st.len + havocBlkXl) then pure none
  else do
    let cloneLen ← chooseBlockLen afl args.spliceBuf.length
    let cloneFrom ← below (args.spliceBuf.length - cloneLen + 1)
    let cloneTo ← below (u32 (st.len + 1))
    let after ← replaceBlock st cloneTo 0 args.spliceBuf cloneFrom cloneLen
    pure (some after)

/-! ## Steps -/

/-- A mutation that is never drawn again. -/
def once (mutated : Draws State) : Draws (Option State) := do
  let after ← mutated
  pure (some after)

def mutate (afl : Afl) (args : Arguments) (mutation : Mutation) (st : State) :
    Draws (Option State) :=
  match mutation with
  | .flipbit => once (flipbit st)
  | .interesting8 => once (interesting8 st)
  | .interesting16 => once (interesting 2 Deterministic.interesting16 id st)
  | .interesting16be => once (interesting 2 Deterministic.interesting16 swap16 st)
  | .interesting32 => once (interesting 4 Deterministic.interesting32 id st)
  | .interesting32be => once (interesting 4 Deterministic.interesting32 swap32 st)
  | .arith8Sub => once (arith8 (· - ·) st)
  | .arith8 => once (arith8 (· + ·) st)
  | .arith16Sub => once (arith 2 sub id st)
  | .arith16beSub => once (arith 2 sub swap16 st)
  | .arith16 => once (arith 2 add id st)
  | .arith16be => once (arith 2 add swap16 st)
  | .arith32Sub => once (arith 4 sub id st)
  | .arith32beSub => once (arith 4 sub swap32 st)
  | .arith32 => once (arith 4 add id st)
  | .arith32be => once (arith 4 add swap32 st)
  | .rand8 => once (rand8 st)
  | .cloneCopy => cloneCopy afl args st
  | .cloneFixed => cloneFixed afl args st
  | .overwriteCopy => once (overwriteCopy afl st)
  | .overwriteFixed => once (overwriteFixed afl st)
  | .byteadd => once (bytewise (· + 1) st)
  | .bytesub => once (bytewise (· - 1) st)
  | .flip8 => once (bytewise (· ^^^ 0xff) st)
  | .switch => once (switch afl st)
  | .del => once (del afl st)
  | .shuffle => once (shuffle afl st)
  | .delone => once (delone st)
  | .insertone => once (insertone st)
  | .asciinum => asciinum st
  | .insertasciinum => insertasciinum st
  | .extraOverwrite => extraOverwrite afl.extras st
  | .extraInsert => extraInsert afl.extras args st
  | .autoExtraOverwrite => extraOverwrite afl.aExtras st
  | .autoExtraInsert => extraInsert afl.aExtras args st
  | .spliceOverwrite => spliceOverwrite afl args st
  | .spliceInsert => spliceInsert afl args st

/-- So many steps, in so many passes through `retry_havoc_step` at most. -/
def havoc (afl : Afl) (args : Arguments) : Nat → Nat → State → Draws State
  | _, 0, st => pure st
  | 0, _ + 1, _ => stop .outOfChoices
  | passes + 1, steps + 1, st => do
      let r ← below mutStrategyArraySize
      let mutation ← fetch (mutationArray args)[r]?
      let mutated ← mutate afl args mutation st
      match mutated with
      | some after => havoc afl args passes steps after
      | none => havoc afl args passes (steps + 1) st

/-- `tmp_buf` with room for `max_len` bytes, of which `fresh` is what the new memory
holds, none where there is no memory. -/
def growTmpBuf (fresh : Option (Nat → UInt8)) (tmpBuf : List UInt8) (maxLen : Nat) :
    Option (List UInt8) :=
  if tmpBuf.length < maxLen then
    fresh.map fun content => tmpBuf ++ (List.range (maxLen - tmpBuf.length)).map content
  else some tmpBuf

/-- The state behind the call with the length that is returned. -/
def aflMutate (afl : Afl) (args : Arguments) (fresh : Option (Nat → UInt8)) (passes steps : Nat)
    (st : State) : Draws State :=
  if st.len = 0 then pure st
  else
    match growTmpBuf fresh st.tmpBuf args.maxLen with
    | none => pure { st with len := 0 }
    | some tmpBuf => havoc afl args passes steps { st with tmpBuf }

end SbFuzz.Fuzzer.AflMutate
