import SbFuzz.Fuzzer.TrimCaseFile

/-! `trim_case_custom`, the trimming of a test case by a custom mutator, with the
post-processing of what is delivered to the target. -/

set_option autoImplicit false

namespace SbFuzz.Fuzzer.TrimCaseCustom

open TrimCase (Memory Os Fault QueueEntry bytes ckWrite)

/-! ## The library and the target -/

/-- What `afl_custom_post_process` leaves in the buffer that it is given, and its answer: nothing
when it fails; the size, with another buffer unless it returns the same one. -/
structure PostProcessed where
  given : Memory
  answer : Option (Option Memory × Nat)

/-- A run of the target: how it ends, and the trace in classes. -/
structure Execution where
  fault : Fault
  traceBits : List UInt8

/-- The mutator's functions answer by the number of the step, so that the answers may depend on
all that came before; the target is deterministic. -/
structure Env where
  os : Os
  target : List UInt8 → Execution
  hash64 : List UInt8 → UInt64
  /-- The user stops the fuzzer in this step. -/
  stopSoon : Nat → Bool
  initTrim : Int
  /-- The buffer and its size; nothing is a null pointer. -/
  trim : Nat → Option (Memory × Nat)
  postTrim : Nat → Bool → Int
  postProcess : List (Nat → List UInt8 → PostProcessed)
  fuzzSend : Bool
  postProcessKeepOriginal : Bool
  minLength : Nat
  maxLength : Nat

/-- The conversion to `u32`. -/
def toU32 (value : Int) : Nat := (value % 0x100000000).toNat

/-! ## Delivery -/

/-- The buffer behind `*mem`, the buffer behind `new_mem` where it is another one, and `new_size`. -/
structure Processed where
  original : Memory
  moved : Option Memory
  size : Nat

def Processed.current (processed : Processed) : Memory := processed.moved.getD processed.original

def Processed.next (step : Nat) (processed : Processed) (process : Nat → List UInt8 → PostProcessed) :
    Processed :=
  let left := process step (bytes processed.current 0 processed.size)
  let altered :=
    if processed.moved.isSome then { processed with moved := some left.given }
    else { processed with original := left.given }
  match left.answer with
  | none => { altered with size := 0 }
  | some (none, size) => { altered with size }
  | some (some buffer, size) => { altered with moved := some buffer, size }

/-- What was delivered, and the buffer and the length that the caller goes on with. -/
structure Delivery where
  delivered : List UInt8
  mem : Memory
  len : Nat

def Delivery.kept (delivery : Delivery) : List UInt8 := bytes delivery.mem 0 delivery.len

def Env.process (env : Env) (step : Nat) (mem : Memory) (len : Nat) : Processed :=
  env.postProcess.foldl (Processed.next step) ⟨mem, none, len⟩

def Env.newSize (env : Env) (size : Nat) : Nat :=
  if size < env.minLength then env.minLength
  else if env.maxLength < size then env.maxLength
  else size

/-- `write_to_testcase` where there are custom mutators and `fix` is 0; nothing is a dummy run. -/
def writeToTestcase (env : Env) (step : Nat) (mem : Memory) (len : Nat) : Option Delivery :=
  let processed := env.process step mem len
  if processed.size = 0 then none
  else
    let newSize := env.newSize processed.size
    let newMem := if 0 < newSize then processed.current else processed.original
    let delivered := bytes newMem 0 newSize
    if env.fuzzSend then some ⟨delivered, newMem, len⟩
    else if env.postProcessKeepOriginal then
      -- `new_mem` is the saved buffer only where the processed one was copied.
      some ⟨delivered, if 0 < newSize then processed.original else processed.current, len⟩
    else some ⟨delivered, newMem, newSize⟩

/-! ## The loop -/

/-- A candidate that was run: the buffer that the mutator returned, as the post-processors leave
it, what was delivered, what `retbuf` and `retlen` hold then, and whether it was accepted. -/
structure Attempt where
  returned : List UInt8
  delivered : List UInt8
  kept : List UInt8
  accepted : Bool

structure State where
  q : QueueEntry
  stageCur : Nat
  trimExec : Nat
  outBuf : Option (Memory × Nat)
  fault : Fault
  traceBits : List UInt8
  cleanTraceCustom : List UInt8
  attempts : List Attempt

def State.lastAccepted (state : State) : Option Attempt :=
  (state.attempts.filter Attempt.accepted).getLast?

inductive Ended where
  | completed (state : State)
  | aborted (state : State)
  | fatal (state : State)

def Ended.state : Ended → State
  | .completed state => state
  | .aborted state => state
  | .fatal state => state

/-- How an iteration of the loop ends. -/
inductive Step where
  | next (state : State)
  | aborted (state : State)
  | fatal (state : State)

/-- The mutator is told that the trimming was unsuccessful. -/
def State.reject (env : Env) (state : State) : Step :=
  let retval2 := env.postTrim state.trimExec false
  if retval2 < 0 then .fatal state
  else .next { state with stageCur := toU32 retval2, trimExec := state.trimExec + 1 }

/-- The clean trace is saved at the first success only. -/
def State.accept (env : Env) (state : State) (delivery : Delivery) : Step :=
  .next { state with
    cleanTraceCustom := if state.outBuf.isNone then state.traceBits else state.cleanTraceCustom
    outBuf := some (delivery.mem, delivery.len)
    stageCur := toU32 (env.postTrim state.trimExec true)
    trimExec := state.trimExec + 1 }

/-- A candidate that `write_to_testcase` has delivered. -/
def State.run (env : Env) (state : State) (retbuf : Memory) (len : Nat) (delivery : Delivery) : Step :=
  let execution := env.target delivery.delivered
  let same := decide (env.hash64 execution.traceBits = state.q.execCksum)
  let ran := { state with fault := execution.fault, traceBits := execution.traceBits }
  if env.stopSoon state.trimExec || execution.fault = .error then .aborted ran
  else
    let attempt : Attempt :=
      { returned := bytes (env.process state.trimExec retbuf len).original 0 len
        delivered := delivery.delivered
        kept := delivery.kept
        accepted := same }
    let tried := { ran with attempts := state.attempts ++ [attempt] }
    if same then tried.accept env delivery else tried.reject env

def State.step (env : Env) (state : State) : Step :=
  match env.trim state.trimExec with
  | none => .fatal state
  | some (retbuf, retlen) =>
    if retlen = 0 then state.reject env
    else
      let len := retlen % 2 ^ 32
      match writeToTestcase env state.trimExec retbuf len with
      | none => state.reject env
      | some delivery =>
        if delivery.len = 0 then state.reject env else state.run env retbuf len delivery

/-- The on-disk version of the test case is updated if there are changes. -/
def State.finish (env : Env) (state : State) : State :=
  match state.outBuf with
  | none => state
  | some (outBuf, outLen) =>
    { state with
      q := { state.q with len := outLen, file := (ckWrite env.os 0 ⟨[], 0⟩ outBuf 0 outLen).2.data }
      traceBits := state.cleanTraceCustom }

def State.loop (env : Env) (stageMax fuel : Nat) (state : State) : Option Ended :=
  if state.stageCur < stageMax then
    match fuel with
    | 0 => none
    | fuel + 1 =>
      match state.step env with
      | .next next => next.loop env stageMax fuel
      | .aborted aborted => some (.aborted aborted)
      | .fatal dead => some (.fatal dead)
  else some (.completed (state.finish env))

def start (q : QueueEntry) : State where
  q
  stageCur := 0
  trimExec := 0
  outBuf := none
  fault := .none
  traceBits := []
  cleanTraceCustom := []
  attempts := []

/-- `unlikely(retval) < 0` is never true, so that a negative answer is a large number of stages. -/
def trimCaseCustom (env : Env) (fuel : Nat) (q : QueueEntry) : Option Ended :=
  (start q).loop env (toU32 env.initTrim) fuel

/-! ## Delivery and what is kept -/

variable {env : Env}

/-- Without `afl_custom_fuzz_send`, the caller goes on with what was delivered or, to keep the
original, with what it gave. -/
theorem writeToTestcase_kept {step : Nat} {mem : Memory} {len : Nat} {delivery : Delivery}
    (written : writeToTestcase env step mem len = some delivery) (unsent : env.fuzzSend = false) :
    if env.postProcessKeepOriginal then
      0 < env.maxLength → delivery.kept = bytes (env.process step mem len).original 0 len
    else delivery.kept = delivery.delivered := by
  unfold writeToTestcase at written
  extract_lets processed newSize newMem delivered at written
  split at written
  · exact nomatch written
  · next some' =>
    rw [unsent] at written
    cases keeps : env.postProcessKeepOriginal with
    | false =>
      rw [keeps] at written
      cases written
      exact rfl
    | true =>
      rw [keeps] at written
      cases written
      intro positive
      have sized : 0 < newSize := by
        unfold newSize Env.newSize
        split
        · omega
        · split
          · exact positive
          · exact Nat.pos_of_ne_zero some'
      unfold Delivery.kept
      rw [if_pos sized]

end SbFuzz.Fuzzer.TrimCaseCustom
