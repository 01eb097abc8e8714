import SbFuzz.Systems.Programs
import Mathlib.Data.List.Basic

/-! `skip_deterministic_stage`: which bytes of a test case are worth deterministic
mutations. -/

set_option autoImplicit false

namespace SbFuzz.Fuzzer.SkipDet

open Systems Systems.Program

/-! ## State -/

-- A test case has at most MAX_FILE bytes, so that no position comes near 2 ^ 32.

def minimalBlockSize : Nat := 64

def maximumQuickEffExecs : Nat := 64 * 1024

inductive Stop where
  | outOfFuel
  | outOfChoices
  | aborted
  deriving DecidableEq

/-- The buffers that were executed, the last one first. -/
abbrev History := List (List UInt8)

/-- The target and the fuzzer around it. -/
structure Env where
  /-- `hash64` of the trace that a buffer leaves. -/
  cksum : List UInt8 → UInt64
  /-- What `common_fuzz_stuff` returns. -/
  aborts : History → Bool
  queuedItems : History → Nat
  isDetTimeout : History → Bool
  shouldDetFuzz : Bool
  repeatEff : Bool
  fuzzNearby : Bool

/-- `skipdet_entry` -/
structure Entry where
  doneEff : Bool
  continueInf : Bool
  skipEffMap : List Bool
  doneInfMap : Option (List Bool)

structure State where
  outBuf : List UInt8
  executed : History
  /-- What `rand_below(afl, 256)` has still to return. -/
  random : List UInt8
  infEffMap : List Bool
  entry : Entry
  nonEffBytes : List Bool

abbrev Stage := Program State Stop

def flipRange (input : List UInt8) (pos size : Nat) : List UInt8 :=
  input.mapIdx fun i byte => if pos ≤ i ∧ i < pos + size then byte ^^^ 0xff else byte

/-- `memset` on a map. -/
def fillMap (map : List Bool) (pos size : Nat) (value : Bool) : List Bool :=
  map.mapIdx fun i mark => if pos ≤ i ∧ i < pos + size then value else mark

section

variable (env : Env)

def commonFuzzStuff (buf : List UInt8) : Stage Unit := do
  update fun st => { st with executed := buf :: st.executed }
  let st ← look
  if env.aborts st.executed then stop .aborted else pure ()

/-! ## Inference -/

/-- `flip_block_size`, and also `cur_skip_len`. -/
def blockSize (len pos size : Nat) : Nat := if size + pos < len then size else len - 1 - pos

/-- One inversion, and whether the checksum is still the same. -/
def tryBlock (prevCksum : UInt64) (pos size : Nat) : Stage Bool := do
  update fun st => { st with outBuf := flipRange st.outBuf pos size }
  let st ← look
  commonFuzzStuff env st.outBuf
  update fun st => { st with outBuf := flipRange st.outBuf pos size }
  pure (env.cksum st.outBuf == prevCksum)

/-- The loop that doubles a block while the checksum stays. -/
def growBlock (prevCksum : UInt64) (len maxBlockSize pos : Nat) : Nat → Nat → Stage Nat
  | 0, _ => stop .outOfFuel
  | fuel + 1, curBlockSize =>
    if curBlockSize < maxBlockSize then do
      let same ← tryBlock env prevCksum pos (blockSize len pos curBlockSize)
      if same then
        if len - 1 - pos ≤ curBlockSize * 2 then pure (curBlockSize * 2)
        else growBlock prevCksum len maxBlockSize pos fuel (curBlockSize * 2)
      else pure curBlockSize
    else pure curBlockSize

/-- The inference loop from a position on. -/
def infer (prevCksum : UInt64) (len fuel : Nat) : Nat → Nat → Stage Unit
  | 0, _ => stop .outOfFuel
  | rounds + 1, pos =>
    if pos < len - 1 then do
      let curBlockSize ← growBlock env prevCksum len (len / 8) pos fuel minimalBlockSize
      if curBlockSize = minimalBlockSize then
        infer prevCksum len fuel rounds (pos + curBlockSize)
      else do
        let curSkipLen := blockSize len pos (curBlockSize / 2)
        update fun st => { st with infEffMap := fillMap st.infEffMap pos curSkipLen false }
        infer prevCksum len fuel rounds (pos + curSkipLen)
    else pure ()

def inference (fuel : Nat) (origBuf : List UInt8) : Stage Unit := do
  let len := origBuf.length
  update fun st => { st with infEffMap := List.replicate len true }
  commonFuzzStuff env origBuf
  if minimalBlockSize * 8 < len then infer env (env.cksum origBuf) len fuel fuel 0
  else update fun st => { st with infEffMap := List.replicate len true }

/-! ## Quick effective map -/

/-- The loop over `rand_below` until a byte differs. -/
def drawOther (orig : UInt8) : Stage UInt8 := do
  let st ← look
  match st.random.dropWhile (· = orig) with
  | [] => stop .outOfChoices
  | replace :: random => do
    update fun st => { st with random }
    pure replace

/-- One byte is replaced for an execution; whether that found something. -/
def tryByte (prevCksum : UInt64) (pos : Nat) : Stage Bool := do
  let before ← look
  let orig := before.outBuf.getD pos 0
  let replace ← drawOther orig
  update fun st => { st with outBuf := st.outBuf.set pos replace }
  let changed ← look
  commonFuzzStuff env changed.outBuf
  update fun st =>
    { st with
      outBuf := st.outBuf.set pos orig
      nonEffBytes :=
        if env.fuzzNearby ∧ prevCksum = env.cksum changed.outBuf then st.nonEffBytes.set pos true
        else st.nonEffBytes }
  let after ← look
  pure (env.queuedItems after.executed != env.queuedItems changed.executed)

def Entry.finish (entry : Entry) (pos : Nat) (found : Bool) : Entry :=
  { entry with
    skipEffMap := if found then entry.skipEffMap.set pos true else entry.skipEffMap
    doneInfMap := entry.doneInfMap.map (·.set pos true) }

/-- `stage_max` and `eff_round_continue` -/
structure Round where
  stageMax : Nat
  continues : Bool

def Round.next (round : Round) (found : Bool) : Round :=
  if found then
    let stageMax :=
      if round.stageMax < maximumQuickEffExecs then round.stageMax * 2 else round.stageMax
    { stageMax, continues := round.continues || (stageMax = maximumQuickEffExecs && env.repeatEff) }
  else round

/-- The loop over the bytes that are left; nothing stands for a timeout. -/
def quickRound (prevCksum : UInt64) : Nat → Nat → Round → Stage (Option Round)
  | 0, _, round => pure (some round)
  | left + 1, pos, round =>
    if pos < round.stageMax then do
      let st ← look
      if !st.infEffMap.getD pos false || st.entry.skipEffMap.getD pos false then
        quickRound prevCksum left (pos + 1) round
      else if env.isDetTimeout st.executed then pure none
      else do
        let found ← tryByte env prevCksum pos
        update fun st => { st with entry := st.entry.finish pos found }
        quickRound prevCksum left (pos + 1) (round.next env found)
    else pure (some round)

/-- The rounds that are left, and `done_eff` behind them. -/
def quickRounds (prevCksum : UInt64) (len : Nat) : Nat → Nat → Bool → Stage Bool
  | 0, _, doneEff => pure doneEff
  | rounds + 1, pos, doneEff => do
    match ← quickRound env prevCksum (len - pos) pos { stageMax := 32 * 1024, continues := false } with
    | none => pure doneEff
    | some round =>
      if round.continues then quickRounds prevCksum len rounds 0 true else pure true

/-- The loop that spreads marks to their neighbours. -/
def nearbyBytes (skipEffMap : List Bool) (len : Nat) : Nat → Nat → List Bool → List Bool
  | 0, _, nearby => nearby
  | rounds + 1, i, nearby =>
    if i < len then
      if skipEffMap.getD i false then
        nearbyBytes skipEffMap len rounds (i + 3)
          (fillMap nearby (i - 3) (if i + 3 < len then 7 else len - i + 2) true)
      else nearbyBytes skipEffMap len rounds (i + 1) nearby
    else nearby

/-- What stands behind `cleanup_skipdet`. -/
def cleanup (len : Nat) (doneEff : Bool) (st : State) : State :=
  let nearby := nearbyBytes st.entry.skipEffMap len len 3 (List.replicate len false)
  let spread := st.entry.skipEffMap.mapIdx fun i mark =>
    mark || (nearby.getD i false && !st.nonEffBytes.getD i false)
  { st with
    entry :=
      { st.entry with
        skipEffMap := if env.fuzzNearby then spread else st.entry.skipEffMap
        continueInf := !doneEff
        doneEff := st.entry.doneEff || doneEff } }

/-- `prev_cksum` for the quick map. -/
def quickCksum (origBuf : List UInt8) : Stage UInt64 :=
  if env.fuzzNearby then do
    update fun st => { st with nonEffBytes := List.replicate origBuf.length false }
    let st ← look
    commonFuzzStuff env st.outBuf
    pure (env.cksum st.outBuf)
  else pure (env.cksum origBuf)

def quickEff (origBuf : List UInt8) : Stage Unit := do
  let len := origBuf.length
  let st ← look
  update fun st =>
    { st with
      entry :=
        { st.entry with
          skipEffMap := List.replicate len false
          doneInfMap := some (st.entry.doneInfMap.getD (List.replicate len false)) } }
  let prevCksum ← quickCksum env origBuf
  let stageCur := (st.entry.doneInfMap.getD []).takeWhile id |>.length
  let doneEff ← quickRounds env prevCksum len 8 stageCur false
  update (cleanup env len doneEff)

/-- Running to its end is a return of 1, an abort one of 0. -/
def skipDeterministicStage (fuel : Nat) (origBuf : List UInt8) : Stage Unit := do
  let st ← look
  if st.entry.doneEff then pure ()
  else if env.shouldDetFuzz then do
    inference env fuel origBuf
    quickEff env origBuf
  else pure ()

end

end SbFuzz.Fuzzer.SkipDet
