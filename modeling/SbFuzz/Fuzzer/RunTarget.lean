import Mathlib.Logic.Function.Basic
import SbFuzz.Systems.Machine
import SbFuzz.Unicornafl.Forkserver

/-! The run phase of the fork server that `afl-compiler-rt` compiles into every
target: afl-fuzz (`afl_fsrv_run_target`), the loop of `__afl_start_forkserver`
and the processes it forks, which stop themselves in `__afl_persistent_loop`.
The run starts once the handshake is over. -/

set_option autoImplicit false

namespace SbFuzz.Fuzzer.RunTarget

open Unicornafl (wifsignaled sigkill)

/-! ## Wait statuses -/

def wifstopped (status : Nat) : Bool := status % 256 = 0x7f

def wexitstatus (status : Nat) : Nat := status / 256 % 256

def wtermsig (status : Nat) : Nat := status % 128

def sigstop : Nat := 19

/-- A signal whose delivery ends a running process. -/
abbrev Signal := { number : Nat // 0 < number ∧ number < 65 }

/-- How a test case left the process that ran it. -/
inductive Finish where
  | stopped
  | exited (code : UInt8)
  | crashed (signal : Signal) (core : Bool)
  /-- By the signal that afl-fuzz sends after a timeout. -/
  | killed
deriving DecidableEq

/-- The settings of `afl_forkserver_t` and of the target that a run reads. -/
structure Config where
  isPersistent : Bool
  /-- The argument of `__AFL_LOOP`. -/
  maxCnt : UInt32
  childKillSignal : Signal
  usesAsan : Bool
  usesCrashExitcode : Bool
  crashExitcode : UInt8

def Config.finishStatus (config : Config) : Finish → Nat
  | .stopped => sigstop * 256 + 0x7f
  | .exited code => code.toNat * 256
  | .crashed signal core => signal + if core then 128 else 0
  | .killed => config.childKillSignal

/-! ## The trace map -/

abbrev Trace := Nat → UInt8

structure Write where
  index : Nat
  value : UInt8
deriving DecidableEq

def Trace.zero : Trace := fun _ => 0

def Trace.write (trace : Trace) (entry : Write) : Trace :=
  Function.update trace entry.index entry.value

/-- What a zeroed map holds after some writes. -/
def written (writes : List Write) : Trace := writes.foldl Trace.write .zero

def execFailSig : Nat := 0xfee1dead

/-- `*(u32 *)fsrv->trace_bits`. -/
def Trace.firstWord (trace : Trace) : Nat :=
  (trace 0).toNat + (trace 1).toNat * 0x100 + (trace 2).toNat * 0x10000 +
    (trace 3).toNat * 0x1000000

/-! ## Processes -/

abbrev Pid := Nat

/-- `reported` says that `waitpid` has returned the stop, `pending` that the
kill signal waits for the process to go on. -/
inductive Life where
  | running
  | stopped (reported pending : Bool)
  | zombie (status : Nat)
  | reaped
deriving DecidableEq

/-- Before the first call of `__afl_persistent_loop`, in the body of the loop,
and behind it. A target without the loop stays in `startup`. -/
inductive ChildPc where
  | startup
  | iteration
  | leaving
deriving DecidableEq

/-- `run` and `pass` are history: the place of the current test case among all
and among those of this process. -/
structure Child where
  life : Life
  pc : ChildPc
  cycleCnt : UInt32
  run : Nat
  pass : Nat
deriving DecidableEq

/-- History of one test case: the process that was given it, what that process
wrote to the map for it, and how it ended. -/
structure Iteration where
  pid : Pid
  testcase : Nat
  pass : Nat
  writes : List Write
  finish : Option Finish
deriving DecidableEq

/-! ## The parties -/

inductive FsrvRunResult where
  | ok
  | tmout
  | crash
  | error
deriving DecidableEq

/-- Between two runs, at the three reads of the status pipe, and after `FATAL`. -/
inductive AflPc where
  | idle
  | readPid
  | readStatus
  | readKilledStatus
  | fatal
deriving DecidableEq

structure Afl where
  pc : AflPc
  childPid : Int
  lastRunTimedOut : Bool
  totalExecs : Nat
  lastKillSignal : Nat
deriving DecidableEq

/-- Control points of the loop of `__afl_start_forkserver`. -/
inductive FsrvPc where
  | readRequest
  | reapKilled
  | spawn
  | resume
  | writePid
  | wait
  | writeStatus (status : Nat)
  | exited
deriving DecidableEq

structure Fsrv where
  pc : FsrvPc
  childPid : Pid
  childStopped : Bool
deriving DecidableEq

/-- History of one return of `afl_fsrv_run_target`. -/
structure Result where
  pid : Pid
  testcase : Nat
  status : Nat
  timedOut : Bool
  trace : Trace
  outcome : FsrvRunResult

/-- `ctl` and `st` are the pipes behind `fsrv_ctl_fd` and `fsrv_st_fd`, and
`testcase` is what the input file or the shared memory holds. No step reads
`answered`, `iterations` or `results`, which are history. -/
structure State where
  afl : Afl
  fsrv : Fsrv
  children : Pid → Option Child
  testcase : Nat
  trace : Trace
  ctl : List Nat
  st : List Nat
  answered : Pid
  iterations : List Iteration
  results : List Result

def State.setFsrvPc (state : State) (pc : FsrvPc) : State :=
  { state with fsrv := { state.fsrv with pc } }

def State.setAflPc (state : State) (pc : AflPc) : State :=
  { state with afl := { state.afl with pc } }

def State.setChild (state : State) (pid : Pid) (child : Child) : State :=
  { state with children := Function.update state.children pid (some child) }

def State.editIteration (state : State) (run : Nat) (edit : Iteration → Iteration) : State :=
  { state with iterations := state.iterations.modify run edit }

def Iteration.ends (finish : Finish) (iteration : Iteration) : Iteration :=
  { iteration with finish := some finish }

def Iteration.adds (entry : Write) (iteration : Iteration) : Iteration :=
  { iteration with writes := iteration.writes ++ [entry] }

/-! ## afl-fuzz -/

inductive AflAction where
  /-- `write_to_testcase` of the caller. -/
  | writeToTestcase (testcase : Nat)
  | request
  | readPid
  | readStatus
  | timeout
deriving DecidableEq

/-- `kill(tmp_pid, fsrv->child_kill_signal)`. Only `SIGKILL` ends a process
that is stopped; every other signal waits until it goes on. -/
def Config.kill (config : Config) (state : State) (pid : Pid) : State :=
  match state.children pid with
  | some child =>
      match child.life with
      | .running =>
          (state.setChild pid { child with life := .zombie config.childKillSignal }).editIteration
            child.run (Iteration.ends .killed)
      | .stopped reported _ =>
          if config.childKillSignal.val = sigkill then
            state.setChild pid { child with life := .zombie sigkill }
          else state.setChild pid { child with life := .stopped reported true }
      | .zombie _ => state
      | .reaped => state
  | none => state

def msanError : Nat := 86

def lsanError : Nat := 23

/-- The three tests for a crash. -/
def Config.crashes (config : Config) (status : Nat) : Bool :=
  wifsignaled status ||
    (config.usesAsan && (wexitstatus status == msanError || wexitstatus status == lsanError)) ||
    (config.usesCrashExitcode && wexitstatus status == config.crashExitcode.toNat)

/-- "Report outcome to caller." -/
def Config.outcome (config : Config) (trace : Trace) (timedOut : Bool) (status : Nat) :
    FsrvRunResult :=
  if trace.firstWord = execFailSig then .error
  else if timedOut then .tmout
  else if config.crashes status then .crash
  else .ok

def Config.lastKillSignal (config : Config) (afl : Afl) (status : Nat) : FsrvRunResult → Nat
  | .tmout => config.childKillSignal
  | .crash => if wifsignaled status then wtermsig status else 0
  | .ok => afl.lastKillSignal
  | .error => afl.lastKillSignal

/-- From the status on to the return of `afl_fsrv_run_target`. -/
def Config.report (config : Config) (state : State) (status : Nat) : State :=
  let outcome := config.outcome state.trace state.afl.lastRunTimedOut status
  { state with
    afl := { state.afl with
      pc := .idle
      childPid := if wifstopped status then state.afl.childPid else -1
      totalExecs := state.afl.totalExecs + 1
      lastKillSignal := config.lastKillSignal state.afl status outcome }
    results := state.results ++ [{
      pid := state.answered
      testcase := state.testcase
      status
      timedOut := state.afl.lastRunTimedOut
      trace := state.trace
      outcome }] }

/-- One step of `afl_fsrv_run_target`. The timeout of `read_s32_timed` may
strike at any moment of the wait. A pipe without a writer reads as its end,
which is fatal everywhere. -/
def aflFsrvRunTarget (config : Config) (state : State) : AflAction → Option State
  | .writeToTestcase testcase =>
      match state.afl.pc with
      | .idle => some { state with testcase }
      | _ => none
  | .request =>
      match state.afl.pc with
      | .idle => some { state with
          afl := { state.afl with pc := .readPid, lastRunTimedOut := false }
          trace := .zero
          ctl := state.ctl ++ [if state.afl.lastRunTimedOut then 1 else 0] }
      | _ => none
  | .readPid =>
      match state.afl.pc, state.st with
      | .readPid, word :: rest =>
          if word = 0 then some ({ state with st := rest }.setAflPc .fatal)
          else some { state with
            afl := { state.afl with pc := .readStatus, childPid := word }
            answered := word
            st := rest }
      | .readPid, [] =>
          if state.fsrv.pc = .exited then some (state.setAflPc .fatal) else none
      | _, _ => none
  | .readStatus =>
      match state.afl.pc, state.st with
      | .readStatus, status :: rest => some (config.report { state with st := rest } status)
      | .readKilledStatus, status :: rest => some (config.report { state with st := rest } status)
      | .readStatus, [] =>
          if state.fsrv.pc = .exited then some (state.setAflPc .fatal) else none
      | .readKilledStatus, [] =>
          if state.fsrv.pc = .exited then some (state.setAflPc .fatal) else none
      | _, _ => none
  | .timeout =>
      match state.afl.pc with
      | .readStatus =>
          some (config.kill { state with
            afl := { state.afl with
              pc := .readKilledStatus, childPid := -1, lastRunTimedOut := true } }
            state.afl.childPid.toNat)
      | _ => none

/-! ## The fork server -/

inductive FsrvAction where
  | proceed
  /-- `fork` returned this pid. -/
  | fork (pid : Pid)
  /-- `fork` returned -1. -/
  | forkFails
deriving DecidableEq

/-- The kernel hands out a pid again once its process has been reaped. -/
def State.Free (state : State) (pid : Pid) : Prop :=
  ∀ child, state.children pid = some child → child.life = .reaped

instance (state : State) (pid : Pid) : Decidable (state.Free pid) :=
  match found : state.children pid with
  | none => .isTrue fun child present => by rw [found] at present; cases present
  | some child => decidable_of_iff (child.life = .reaped) <| by simp [State.Free, found]

/-- A process is given the test case that is in place. -/
def State.begin (state : State) (pid : Pid) (child : Child) : State :=
  { state.setChild pid child with
    iterations := state.iterations ++ [{
      pid, testcase := state.testcase, pass := child.pass, writes := [], finish := none }] }

/-- `kill(child_pid, SIGCONT)`: a signal that has waited comes first, and a
process that is not stopped does not notice. -/
def Config.sigcont (config : Config) (state : State) (pid : Pid) : State :=
  match state.children pid with
  | some child =>
      match child.life with
      | .stopped _ false =>
          -- `raise(SIGSTOP)` returns, and the loop starts its next round
          let entry : Write := ⟨0, 1⟩
          let begun := state.begin pid
            { child with life := .running, run := state.iterations.length, pass := child.pass + 1 }
          { begun.editIteration state.iterations.length (Iteration.adds entry) with
            trace := state.trace.write entry }
      | .stopped _ true =>
          (state.begin pid { child with
            life := .zombie config.childKillSignal
            run := state.iterations.length
            pass := child.pass + 1 }).editIteration state.iterations.length (Iteration.ends .killed)
      | _ => state
  | none => state

inductive Waited where
  | blocks
  | fails
  | returns (state : State) (status : Nat)

/-- `waitpid(pid, &status, untraced ? WUNTRACED : 0)`. -/
def Config.waitpid (config : Config) (state : State) (pid : Pid) (untraced : Bool) : Waited :=
  match state.children pid with
  | none => .fails
  | some child =>
      match child.life with
      | .running => .blocks
      | .stopped false pending =>
          if untraced then
            .returns (state.setChild pid { child with life := .stopped true pending })
              (config.finishStatus .stopped)
          else .blocks
      | .stopped true _ => .blocks
      | .zombie status => .returns (state.setChild pid { child with life := .reaped }) status
      | .reaped => .fails

/-- One step of the loop of `__afl_start_forkserver`. -/
def aflStartForkserver (config : Config) (state : State) : FsrvAction → Option State
  | .fork pid =>
      match state.fsrv.pc with
      | .spawn =>
          if 0 < pid ∧ state.Free pid then
            some ({ state with fsrv := { state.fsrv with pc := .writePid, childPid := pid } }.begin
              pid {
                life := .running
                pc := .startup
                cycleCnt := 0
                run := state.iterations.length
                pass := 1 })
          else none
      | _ => none
  | .forkFails =>
      match state.fsrv.pc with
      | .spawn => some (state.setFsrvPc .exited)
      | _ => none
  | .proceed =>
      match state.fsrv.pc with
      | .readRequest =>
          match state.ctl with
          | [] => none
          | wasKilled :: rest =>
              let received := { state with ctl := rest }
              if state.fsrv.childStopped && wasKilled != 0 then
                some { received with
                  fsrv := { state.fsrv with pc := .reapKilled, childStopped := false } }
              else if !state.fsrv.childStopped then some (received.setFsrvPc .spawn)
              else some (received.setFsrvPc .resume)
      | .reapKilled =>
          match config.waitpid state state.fsrv.childPid false with
          | .blocks => none
          | .fails => some (state.setFsrvPc .exited)
          | .returns waited _ => some (waited.setFsrvPc .spawn)
      | .spawn => none
      | .resume =>
          some { config.sigcont state state.fsrv.childPid with
            fsrv := { state.fsrv with pc := .writePid, childStopped := false } }
      | .writePid =>
          some ({ state with st := state.st ++ [state.fsrv.childPid] }.setFsrvPc .wait)
      | .wait =>
          match config.waitpid state state.fsrv.childPid config.isPersistent with
          | .blocks => none
          | .fails => some (state.setFsrvPc .exited)
          | .returns waited status =>
              let childStopped := state.fsrv.childStopped || wifstopped status
              some { waited with
                fsrv := { state.fsrv with pc := .writeStatus status, childStopped } }
      | .writeStatus status =>
          some ({ state with st := state.st ++ [status] }.setFsrvPc .readRequest)
      | .exited => none

/-! ## The processes -/

inductive ChildAction where
  /-- Instrumented code writes to the map. -/
  | write (entry : Write)
  /-- `__afl_persistent_loop` is called. -/
  | persistentLoop
  | exit (code : UInt8)
  | crash (signal : Signal) (core : Bool)
deriving DecidableEq

/-- The process ends, with `finish` as what its test case came to. -/
def Config.endChild (config : Config) (state : State) (pid : Pid) (child : Child)
    (finish : Finish) : State :=
  (state.setChild pid { child with life := .zombie (config.finishStatus finish) }).editIteration
    child.run (Iteration.ends finish)

/-- One call of `__afl_persistent_loop`. -/
def Config.aflPersistentLoop (config : Config) (state : State) (pid : Pid) (child : Child) :
    Option State :=
  match child.pc with
  | .startup =>
      let entry : Write := ⟨0, 1⟩
      some { (state.setChild pid { child with
          pc := .iteration, cycleCnt := config.maxCnt }).editIteration child.run
            (fun iteration => { iteration with writes := [entry] }) with
        trace := Trace.zero.write entry }
  | .iteration =>
      let cycleCnt := child.cycleCnt - 1
      if cycleCnt ≠ 0 then
        some ((state.setChild pid { child with
          life := .stopped false false, cycleCnt }).editIteration child.run
            (Iteration.ends .stopped))
      else some (state.setChild pid { child with pc := .leaving, cycleCnt })
  | .leaving => none

/-- One step of a running process. -/
def Config.childStep (config : Config) (state : State) (pid : Pid) (child : Child) :
    ChildAction → Option State
  | .write entry =>
      match child.pc with
      -- behind the loop `__afl_area_ptr` is the dummy region
      | .leaving => some state
      | _ => some { state.editIteration child.run (Iteration.adds entry) with
          trace := state.trace.write entry }
  | .persistentLoop =>
      if config.isPersistent then config.aflPersistentLoop state pid child else none
  | .exit code => some (config.endChild state pid child (.exited code))
  | .crash signal core => some (config.endChild state pid child (.crashed signal core))

/-! ## The system -/

inductive Action where
  | afl (action : AflAction)
  | fsrv (action : FsrvAction)
  | child (pid : Pid) (action : ChildAction)
deriving DecidableEq

/-- One step of the three parties together. -/
def Config.step (config : Config) (state : State) : Action → Option State
  | .afl action => aflFsrvRunTarget config state action
  | .fsrv action => aflStartForkserver config state action
  | .child pid action =>
      match state.children pid with
      | some child =>
          if child.life = .running then config.childStep state pid child action else none
      | none => none

/-- The handshake is over: no process has been forked, both pipes are empty. -/
def State.initial : State where
  afl := {
    pc := .idle, childPid := -1, lastRunTimedOut := false, totalExecs := 0, lastKillSignal := 0 }
  fsrv := { pc := .readRequest, childPid := 0, childStopped := false }
  children := fun _ => none
  testcase := 0
  trace := .zero
  ctl := []
  st := []
  answered := 0
  iterations := []
  results := []

def Config.machine (config : Config) : Systems.Machine State Action where
  initial := .initial
  step := config.step

end SbFuzz.Fuzzer.RunTarget
