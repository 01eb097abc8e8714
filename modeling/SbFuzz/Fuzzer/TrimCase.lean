import Mathlib.Algebra.Ring.Nat
import Mathlib.Data.List.Basic

/-! `trim_case`, the trimming of a test case in memory and in its file, and the gap that
candidates are written with. -/

set_option autoImplicit false

namespace SbFuzz.Fuzzer.TrimCase

/-! ## Memory and files -/

abbrev Memory := Nat → UInt8

def bytes (memory : Memory) (start len : Nat) : List UInt8 :=
  (List.range len).map fun k => memory (start + k)

/-- `memcpy` and `memmove`: all bytes are read before one is written. -/
def copy (target : Memory) (dst : Nat) (source : Memory) (src len : Nat) : Memory := fun byte =>
  if dst ≤ byte ∧ byte < dst + len then source (src + (byte - dst)) else target byte

/-- An open file. -/
structure File where
  data : List UInt8
  offset : Nat

def File.write (file : File) (piece : List UInt8) : File where
  data := file.data.take file.offset ++ piece ++ file.data.drop (file.offset + piece.length)
  offset := file.offset + piece.length

/-- `ftruncate` -/
def truncate (data : List UInt8) (size : Nat) : List UInt8 :=
  data.take size ++ List.replicate (size - data.length) 0

/-- How many bytes each call of `write` takes: none when it fails. -/
structure Os where
  written : Nat → Nat → Nat
  written_le : ∀ call len, written call len ≤ len

/-- The loop of `ck_write`; it ends after `len` rounds at the latest. -/
def ckWriteLoop (os : Os) (memory : Memory) : Nat → Nat → File → Nat → Nat → Nat → Nat × File
  | 0, calls, file, _, _, _ => (calls, file)
  | rounds + 1, calls, file, written, off, len =>
    let res := os.written calls len
    let file := file.write (bytes memory off res)
    -- The second comparison is with what was left before this write.
    if res ≠ len ∧ 0 < res ∧ written + res ≠ len then
      ckWriteLoop os memory rounds (calls + 1) file (written + res) (off + res) (len - res)
    else (calls + 1, file)

def ckWrite (os : Os) (calls : Nat) (file : File) (memory : Memory) (start len : Nat) : Nat × File :=
  if len = 0 then (calls, file) else ckWriteLoop os memory len calls file 0 start len

/-! ## The state -/

inductive Fault where
  | none | tmout | crash | error | noinst | nobits
deriving DecidableEq, Repr

/-- What a run of the target leaves. -/
structure Run where
  fault : Fault
  cksum : UInt64
  /-- The user stops the fuzzer meanwhile. -/
  stopSoon : Bool

/-- What does not change in a call. -/
structure Env where
  os : Os
  /-- The runs of the target, by their numbers, on what it receives. -/
  runs : Nat → List UInt8 → Run
  useShmemFuzz : Bool
  useStdin : Bool
  noUnlink : Bool
  /-- The functions `afl_custom_post_process`: the buffer that they return and its size, or
  nothing when they fail. -/
  postProcess : List (List UInt8 → Option (Memory × Nat))
  postProcessKeepOriginal : Bool
  minLength : Nat
  maxLength : Nat

/-- How test cases reach the target. -/
structure Fsrv where
  shmem : Memory
  shmemLen : Nat
  outFile : List UInt8

structure QueueEntry where
  len : Nat
  execCksum : UInt64
  /-- The file behind `fname`. -/
  file : List UInt8

/-- A candidate: the buffer, the range that is left out, and what the target received. -/
structure Candidate where
  buffer : List UInt8
  removePos : Nat
  trimAvail : Nat
  received : List UInt8

structure State where
  fsrv : Fsrv
  q : QueueEntry
  inBuf : Memory
  lenP2 : Nat
  needsWrite : Bool
  fault : Fault
  /-- The calls of `write` and the runs so far. -/
  calls : Nat
  execs : Nat
  candidates : List Candidate

def State.content (state : State) : List UInt8 := bytes state.inBuf 0 state.q.len

/-- What the target reads. -/
def Env.received (env : Env) (fsrv : Fsrv) : List UInt8 :=
  if env.useShmemFuzz then bytes fsrv.shmem 0 fsrv.shmemLen else fsrv.outFile

/-! ## Candidates -/

/-- The post-processors one after another, on a buffer and its size. -/
def Env.process (env : Env) (memory : Memory) (size : Nat) : Memory × Nat :=
  env.postProcess.foldl (fun processed process =>
    (process (bytes processed.1 0 processed.2)).getD (processed.1, 0)) (memory, size)

/-- The file that a candidate is written to: new or emptied, or rewritten from its start. -/
def Env.openFile (env : Env) (fsrv : Fsrv) : File := ⟨if env.useStdin then fsrv.outFile else [], 0⟩

def writeWithGap (env : Env) (state : State) (skipAt skipLen : Nat) : State :=
  let mem := state.inBuf
  let tailLen := state.q.len - skipAt - skipLen
  let trimmed := copy (copy (fun _ => 0) 0 mem 0 skipAt) skipAt mem (skipAt + skipLen) tailLen
  let processed := env.process trimmed (state.q.len - skipLen)
  let newSize := if env.postProcess.isEmpty then state.q.len - skipLen else processed.2
  if env.useShmemFuzz then
    { state with
      fsrv := { state.fsrv with
        shmem :=
          if env.postProcess.isEmpty then
            copy (copy state.fsrv.shmem 0 mem 0 skipAt) skipAt mem (skipAt + skipLen) tailLen
          else copy state.fsrv.shmem 0 processed.1 0 newSize
        shmemLen := newSize } }
  else
    let file := env.openFile state.fsrv
    let written :=
      if env.postProcess.isEmpty then
        let head := ckWrite env.os state.calls file mem 0 skipAt
        ckWrite env.os head.1 head.2 mem (skipAt + skipLen) tailLen
      else ckWrite env.os state.calls file processed.1 0 newSize
    { state with
      calls := written.1
      fsrv := { state.fsrv with
        outFile := if env.useStdin then truncate written.2.data newSize else written.2.data } }

/-- A candidate is written and run. -/
def State.attempt (env : Env) (state : State) (removePos trimAvail : Nat) : State × Run :=
  let gapped := writeWithGap env state removePos trimAvail
  let received := env.received gapped.fsrv
  let run := env.runs state.execs received
  ({ gapped with
      fault := run.fault
      execs := state.execs + 1
      candidates := state.candidates ++ [⟨state.content, removePos, trimAvail, received⟩] }, run)

/-! ## Trimming -/

/-- `out |= out >> shift` -/
def smear (out shift : UInt64) : UInt64 := out ||| out >>> shift

def nextPow2 (size : UInt64) : UInt64 :=
  smear (smear (smear (smear (smear (size - 1) 1) 2) 4) 8) 16 + 1

/-- `next_pow2` of a length, as an `u32`. -/
def lenPow2 (len : Nat) : Nat := (nextPow2 (UInt64.ofNat len)).toUInt32.toNat

/-- The removal is made permanent. -/
def State.remove (state : State) (removePos trimAvail : Nat) : State :=
  let moveTail := state.q.len - removePos - trimAvail
  let len := state.q.len - trimAvail
  { state with
    q := { state.q with len }
    lenP2 := lenPow2 len
    inBuf := copy state.inBuf removePos state.inBuf (removePos + trimAvail) moveTail
    needsWrite := true }

/-- How a loop ends: at its end, or by `goto abort_trimming`. -/
inductive Ended where
  | done (state : State)
  | abort (state : State)

def Ended.state : Ended → State
  | .done state => state
  | .abort state => state

/-- The inner loop, over the chunks of one length; nothing without fuel. -/
def trimChunks (env : Env) (fuel removeLen removePos : Nat) (state : State) : Option Ended :=
  if removePos < state.q.len then
    match fuel with
    | 0 => none
    | fuel + 1 =>
      let trimAvail := min removeLen (state.q.len - removePos)
      let tried := state.attempt env removePos trimAvail
      if tried.2.stopSoon || tried.2.fault == .error then some (.abort tried.1)
      else if tried.2.cksum = state.q.execCksum then
        trimChunks env fuel removeLen removePos (tried.1.remove removePos trimAvail)
      else trimChunks env fuel removeLen ((removePos + removeLen) % 2 ^ 32) tried.1
  else some (.done state)

def trimMinBytes : Nat := 4

def trimStartSteps : Nat := 16

def trimEndSteps : Nat := 1024

/-- The outer loop, over the lengths of chunks. -/
def trimStages (env : Env) (inner fuel removeLen : Nat) (state : State) : Option Ended :=
  if max (state.lenP2 / trimEndSteps) trimMinBytes ≤ removeLen then
    match fuel with
    | 0 => none
    | fuel + 1 =>
      match trimChunks env inner removeLen removeLen state with
      | none => none
      | some (.abort trimmed) => some (.abort trimmed)
      | some (.done trimmed) => trimStages env inner fuel (removeLen / 2) trimmed
  else some (.done state)

/-! ## The file -/

/-- `afl_custom_post_process` before the file is written. -/
def State.process (env : Env) (state : State) : State :=
  if env.postProcess.isEmpty || env.postProcessKeepOriginal then state
  else
    let processed := env.process state.inBuf state.q.len
    let chosen := if processed.2 = 0 then (state.inBuf, state.q.len) else processed
    let newSize :=
      if chosen.2 < env.minLength then env.minLength
      else if env.maxLength < chosen.2 then env.maxLength
      else chosen.2
    { state with
      q := { state.q with len := newSize }
      inBuf := chosen.1 }

/-- The loop that rewrites the file when it is not unlinked. -/
def rewriteLoop (os : Os) (inBuf : Memory) (len fuel calls : Nat) (file : File) (written : Nat) :
    Option (Nat × File) :=
  if written < len then
    match fuel with
    | 0 => none
    | fuel + 1 =>
      let result := os.written calls (len - written)
      rewriteLoop os inBuf len fuel (calls + 1) (file.write (bytes inBuf 0 result))
        (written + result)
  else some (calls, file)

def State.save (env : Env) (fuel : Nat) (state : State) : Option State :=
  if env.noUnlink then
    (rewriteLoop env.os state.inBuf state.q.len fuel state.calls ⟨[], 0⟩ 0).map fun written =>
      { state with calls := written.1, q := { state.q with file := written.2.data } }
  else
    let written := ckWrite env.os state.calls ⟨[], 0⟩ state.inBuf 0 state.q.len
    some { state with calls := written.1, q := { state.q with file := written.2.data } }

def start (fsrv : Fsrv) (q : QueueEntry) (inBuf : Memory) : State where
  fsrv
  q
  inBuf
  lenP2 := lenPow2 q.len
  needsWrite := false
  fault := .none
  calls := 0
  execs := 0
  candidates := []

/-- `trim_case`, without custom trimmers. -/
def trimCase (env : Env) (fuel : Nat) (fsrv : Fsrv) (q : QueueEntry) (inBuf : Memory) :
    Option Ended :=
  if q.len < 5 then some (.abort (start fsrv q inBuf))
  else
    match trimStages env fuel fuel (max (lenPow2 q.len / trimStartSteps) trimMinBytes)
        (start fsrv q inBuf) with
    | none => none
    | some (.abort trimmed) => some (.abort trimmed)
    | some (.done trimmed) =>
        if trimmed.needsWrite then ((trimmed.process env).save env fuel).map .done
        else some (.done trimmed)

end SbFuzz.Fuzzer.TrimCase
