import Mathlib.Logic.Function.Basic
import SbFuzz.Systems.Machine

/-! The persistent fork server of unicornafl as three communicating parties:
afl-fuzz (`afl_fsrv_run_target`), the fork-server parent (`_fksrv_start` with
`_handle_child_requests`) and the children it forks (`_child_fuzz` with
`_afl_next`). The run starts once the handshake is over. -/

set_option autoImplicit false

namespace SbFuzz.Unicornafl

/-! ## Rounds of the persistent loop -/

/-- The part of `class UCAFL` that decides how a round ends. -/
structure UCAFL where
  persistentIters : Nat
  alwaysValidate : Bool
  /-- Whether `validate_crash_callback_` is set. -/
  validateCrashCallback : Bool

def ucErrOk : Nat := 0

/-- What the callbacks and the emulator answer during one round. -/
structure Round where
  inputAccepted : Bool
  ucRet : Nat
  /-- The answer of `validate_crash_callback_`, where it is called. -/
  crashValidated : Bool
deriving DecidableEq, Repr

/-- A round that ends in an emulation error (or is validated unconditionally)
and that the crash-validation callback, if any, does not dismiss. -/
def UCAFL.crashed (ucafl : UCAFL) (round : Round) : Bool :=
  round.inputAccepted &&
    ((round.ucRet != ucErrOk || (ucafl.alwaysValidate && ucafl.validateCrashCallback)) &&
      (!ucafl.validateCrashCallback || round.crashValidated))

inductive RoundEnd where
  | goOn (crashFound : Bool)
  | abort
deriving DecidableEq, Repr

/-- The body of the loop of `_child_fuzz`, from `place_input_callback_` on. -/
def UCAFL.childRound (ucafl : UCAFL) (round : Round) : RoundEnd :=
  if !round.inputAccepted then .goOn false
  else if round.ucRet != ucErrOk || (ucafl.alwaysValidate && ucafl.validateCrashCallback) then
    if ucafl.validateCrashCallback && !round.crashValidated then .goOn false
    else if ucafl.persistentIters != 1 then .goOn true
    else .abort
  else .goOn false

/-- The loop condition of `_child_fuzz`. -/
def UCAFL.loopCondition (ucafl : UCAFL) (i : Nat) : Bool :=
  ucafl.persistentIters == 0 || i < ucafl.persistentIters

/-! ## Wait statuses -/

/-- `WIFSIGNALED` of `sys/wait.h`. -/
def wifsignaled (status : Nat) : Bool := status % 128 != 0 && status % 128 != 127

/-- `_setup_valid_wifsignaled`: count up from zero to the first such status.
The low seven bits decide, so the search ends below 128. -/
def setupValidWifsignaled : Nat := ((List.range 128).find? wifsignaled).getD 0

def sigabrt : Nat := 6

def sigkill : Nat := 9

/-! ## Messages and processes -/

abbrev Pid := Nat

inductive AflChildRet where
  | next
  | foundCrash
  | tslRequest
  | exited
deriving DecidableEq, Repr

/-- One write of a child to `afl_child_pipe_`: a message, or the address that
follows a translation request. `run` records the run the child was executing. -/
inductive ChildItem where
  | msg (ret : AflChildRet) (run : Nat)
  | pc (address : UInt64)
deriving DecidableEq, Repr

/-- Where a child stands: emulating, between the two writes of
`_uc_hook_new_tb`, about to write in `_afl_next`, or blocked in its read. -/
inductive ChildPc where
  | running
  | sendingPc (address : UInt64)
  | asking
  | waiting
deriving DecidableEq, Repr

inductive Life where
  | alive
  | zombie (status : Nat)
  | reaped
deriving DecidableEq, Repr

/-- A forked child with its two pipes. `run` is the request whose run the
child executes; a word of `parentPipe` records the request it was written for. -/
structure Child where
  pc : ChildPc
  i : Nat
  crashFound : Bool
  life : Life
  run : Nat
  childPipe : List ChildItem
  parentPipe : List Nat
deriving DecidableEq, Repr

/-- What the parent bases a status on: a message of a child, or a wait status. -/
inductive Report where
  | message (pid : Pid) (run : Nat) (ret : AflChildRet)
  | waited (pid : Pid) (status : Nat)
deriving DecidableEq, Repr

def Report.pid : Report → Pid
  | .message pid _ _ => pid
  | .waited pid _ => pid

/-- The status that `_fksrv_start` relays to AFL. -/
def Report.status : Report → Nat
  | .message _ _ .foundCrash => setupValidWifsignaled
  | .message _ _ _ => 0
  | .waited _ status => status

/-- Control points of `_fksrv_start` and `_handle_child_requests`. -/
inductive ParentPc where
  | readRequest
  | reapKilled
  | spawn
  | resume
  | writePid
  | handleRequests
  | handlePc
  | reapExited
  | writeStatus (report : Report)
  | returned
deriving DecidableEq, Repr

/-- `requests` counts the requests answered so far, so it is also the number
of the request being served. -/
structure Parent where
  pc : ParentPc
  childRet : AflChildRet
  childPid : Pid
  requests : Nat
deriving DecidableEq, Repr

/-- Control points of `afl_fsrv_run_target`: between two runs, and at its
three reads of the status pipe. -/
inductive AflPc where
  | idle
  | readPid
  | readStatus
  | readKilledStatus
deriving DecidableEq, Repr

structure Afl where
  pc : AflPc
  childPid : Pid
  lastRunTimedOut : Bool
deriving DecidableEq, Repr

/-- What the parties did, in order. -/
inductive Event where
  | request
  | readPid (word : Nat)
  | readStatus (word : Nat)
  | kill (pid : Pid)
  | fork (pid : Pid)
  | sendNext (pid : Pid)
  | writePid (pid : Pid)
  | writeStatus (report : Report)
  | reap (pid : Pid)
  | start (pid : Pid) (run : Nat)
  | finish (pid : Pid) (run : Nat) (round : Round)
deriving DecidableEq, Repr

/-- `ctl` and `st` are the pipes behind `fsrv_ctl_fd` and `fsrv_st_fd`. The
log is history only: no step reads it. -/
structure State where
  afl : Afl
  parent : Parent
  children : Pid → Option Child
  ctl : List Nat
  st : List Nat
  log : List Event

def State.setChild (state : State) (pid : Pid) (child : Child) : State :=
  { state with children := Function.update state.children pid (some child) }

def State.record (state : State) (event : Event) : State :=
  { state with log := state.log ++ [event] }

def State.setParentPc (state : State) (pc : ParentPc) : State :=
  { state with parent := { state.parent with pc } }

/-! ## afl-fuzz -/

inductive AflAction where
  | request
  | readPid
  | readStatus
  | timeout
deriving DecidableEq, Repr

/-- A signal ends a live child; a zombie or reaped process ignores it. -/
def Child.killed (child : Child) : Child :=
  match child.life with
  | .alive => { child with life := .zombie sigkill }
  | _ => child

/-- `kill(tmp_pid, SIGKILL)`. -/
def State.kill (state : State) (pid : Pid) : State :=
  match state.children pid with
  | some child => state.setChild pid child.killed
  | none => state

/-- One step of `afl_fsrv_run_target`. The timeout of `read_s32_timed` may
strike at any moment of the wait; the status that the parent still owes is then
read without a time limit. -/
def aflFsrvRunTarget (state : State) : AflAction → Option State
  | .request =>
      match state.afl.pc with
      | .idle => some ({ state with
          afl := { state.afl with pc := .readPid, lastRunTimedOut := false }
          ctl := state.ctl ++ [if state.afl.lastRunTimedOut then 1 else 0] }.record .request)
      | _ => none
  | .readPid =>
      match state.afl.pc, state.st with
      | .readPid, word :: rest =>
          if 0 < word then
            some ({ state with
              afl := { state.afl with pc := .readStatus, childPid := word }
              st := rest }.record (.readPid word))
          else none
      | _, _ => none
  | .readStatus =>
      match state.afl.pc, state.st with
      | .readStatus, word :: rest =>
          some ({ state with afl := { state.afl with pc := .idle }, st := rest }.record
            (.readStatus word))
      | .readKilledStatus, word :: rest =>
          some ({ state with afl := { state.afl with pc := .idle }, st := rest }.record
            (.readStatus word))
      | _, _ => none
  | .timeout =>
      match state.afl.pc with
      | .readStatus =>
          some (({ state with
            afl := { state.afl with pc := .readKilledStatus, lastRunTimedOut := true } }.kill
              state.afl.childPid).record (.kill state.afl.childPid))
      | _ => none

/-! ## The fork-server parent -/

inductive ParentAction where
  | proceed
  /-- `fork` returned this pid. -/
  | fork (pid : Pid)
  /-- `pipe` or `fork` failed. -/
  | forkFails
deriving DecidableEq, Repr

def Child.forked (run : Nat) : Child where
  pc := .running
  i := 0
  crashFound := false
  life := .alive
  run
  childPipe := []
  parentPipe := []

/-- `waitpid(child_pid, &status, 0)`: blocks while the child lives and fails
when there is no such child. -/
def State.waitpid (state : State) (pid : Pid) : Option (State × Option Nat) :=
  match state.children pid with
  | some child =>
      match child.life with
      | .alive => none
      | .zombie status =>
          some ((state.setChild pid { child with life := .reaped }).record (.reap pid),
            some status)
      | .reaped => some (state, none)
  | none => some (state, none)

/-- The `AFL_CHILD_EXITED` return of `_handle_child_requests`: the read from the
child's pipe has failed, so nothing is left in it and no writer is left. -/
def State.childExited (state : State) : State :=
  { state with parent := { state.parent with pc := .reapExited, childRet := .exited } }

/-- One read of `_handle_child_requests`. -/
def handleChildRequests (state : State) : Option State :=
  match state.children state.parent.childPid with
  | none => none
  | some child =>
      match child.childPipe with
      | [] => if child.life = .alive then none else some state.childExited
      | item :: rest =>
          let consumed := state.setChild state.parent.childPid { child with childPipe := rest }
          match state.parent.pc, item with
          | .handleRequests, .msg .next run => some { consumed with
              parent := { state.parent with
                pc := .writeStatus (.message state.parent.childPid run .next)
                childRet := .next } }
          | .handleRequests, .msg .foundCrash run => some { consumed with
              parent := { state.parent with
                pc := .writeStatus (.message state.parent.childPid run .foundCrash)
                childRet := .foundCrash } }
          | .handleRequests, .msg .tslRequest _ => some (consumed.setParentPc .handlePc)
          -- any other message is reported on stderr and skipped
          | .handleRequests, .msg .exited _ => some consumed
          | .handlePc, .pc _ => some (consumed.setParentPc .handleRequests)
          | _, _ => none

/-- One step of the loop of `_fksrv_start`. -/
def fksrvStart (state : State) : ParentAction → Option State
  | .fork pid =>
      match state.parent.pc with
      | .spawn =>
          if 0 < pid ∧ state.children pid = none then
            some ((({ state with
              parent := { state.parent with pc := .writePid, childPid := pid } }.setChild pid
                (.forked state.parent.requests)).record (.fork pid)).record
                  (.start pid state.parent.requests))
          else none
      | _ => none
  | .forkFails =>
      match state.parent.pc with
      | .spawn => some (state.setParentPc .returned)
      | _ => none
  | .proceed =>
      match state.parent.pc with
      | .readRequest =>
          match state.ctl with
          | [] => none
          | wasKilled :: rest =>
              let received := { state with ctl := rest }
              if state.parent.childRet ≠ .exited ∧ wasKilled ≠ 0 then
                some (received.setParentPc .reapKilled)
              else if state.parent.childRet = .exited then
                some (received.setParentPc .spawn)
              else
                some (received.setParentPc .resume)
      | .reapKilled =>
          match state.waitpid state.parent.childPid with
          | none => none
          | some (waited, some _) => some { waited with
              parent := { state.parent with pc := .spawn, childRet := .exited } }
          | some (waited, none) => some (waited.setParentPc .returned)
      | .spawn => none
      | .resume =>
          match state.children state.parent.childPid with
          | some child =>
              if child.life = .alive then
                some (((state.setChild state.parent.childPid
                  { child with
                    parentPipe := child.parentPipe ++ [state.parent.requests] }).setParentPc
                      .writePid).record (.sendNext state.parent.childPid))
              else
                -- the write hits a pipe without a reader
                some ((state.setParentPc .returned).record (.sendNext state.parent.childPid))
          | none => none
      | .writePid =>
          some (({ state with st := state.st ++ [state.parent.childPid] }.setParentPc
            .handleRequests).record (.writePid state.parent.childPid))
      | .handleRequests => handleChildRequests state
      | .handlePc => handleChildRequests state
      | .reapExited =>
          match state.waitpid state.parent.childPid with
          | none => none
          | some (waited, some status) =>
              some (waited.setParentPc (.writeStatus (.waited state.parent.childPid status)))
          | some (waited, none) => some (waited.setParentPc .returned)
      | .writeStatus report =>
          some ({ state with
            st := state.st ++ [report.status]
            parent := { state.parent with
              pc := .readRequest, requests := state.parent.requests + 1 } }.record
                (.writeStatus report))
      | .returned => none

/-! ## The children -/

inductive ChildAction where
  /-- `_uc_hook_new_tb` writes `AFL_CHILD_TSL_REQUEST`. -/
  | requestTb (address : UInt64)
  /-- `_uc_hook_new_tb` writes the address. -/
  | sendPc
  | finish (round : Round)
  /-- `_afl_next` writes its message. -/
  | ask
  /-- The read of `_afl_next` returns. -/
  | resume
  /-- The emulated code or a callback ends the process in mid-round. -/
  | die (status : Nat)
deriving DecidableEq, Repr

/-- `_child_fuzz` after the body of a round: on to `_afl_next`, or `exit(0)`. -/
def UCAFL.endRound (ucafl : UCAFL) (child : Child) (round : Round) : Child :=
  match ucafl.childRound round with
  | .abort => { child with life := .zombie sigabrt }
  | .goOn crashFound =>
      if ucafl.loopCondition (child.i + 1) then
        { child with pc := .asking, i := child.i + 1, crashFound }
      else { child with i := child.i + 1, crashFound, life := .zombie 0 }

/-- One step of a live child. -/
def UCAFL.childFuzz (ucafl : UCAFL) (state : State) (pid : Pid) (child : Child) :
    ChildAction → Option State
  | .requestTb address =>
      match child.pc with
      | .running => some (state.setChild pid { child with
          pc := .sendingPc address
          childPipe := child.childPipe ++ [.msg .tslRequest child.run] })
      | _ => none
  | .sendPc =>
      match child.pc with
      | .sendingPc address => some (state.setChild pid { child with
          pc := .running, childPipe := child.childPipe ++ [.pc address] })
      | _ => none
  | .finish round =>
      match child.pc with
      | .running => some ((state.setChild pid (ucafl.endRound child round)).record
          (.finish pid child.run round))
      | _ => none
  | .ask =>
      match child.pc with
      | .asking => some (state.setChild pid { child with
          pc := .waiting
          childPipe := child.childPipe ++
            [.msg (if child.crashFound then .foundCrash else .next) child.run] })
      | _ => none
  | .resume =>
      match child.pc, child.parentPipe with
      | .waiting, run :: rest => some ((state.setChild pid { child with
          pc := .running, crashFound := false, run, parentPipe := rest }).record (.start pid run))
      | _, _ => none
  | .die status =>
      match child.pc with
      | .running => some (state.setChild pid { child with life := .zombie status })
      | .sendingPc _ => some (state.setChild pid { child with life := .zombie status })
      | _ => none

/-! ## The system -/

inductive Action where
  | afl (action : AflAction)
  | parent (action : ParentAction)
  | child (pid : Pid) (action : ChildAction)
deriving DecidableEq, Repr

/-- One step of the three parties together. -/
def UCAFL.step (ucafl : UCAFL) (state : State) : Action → Option State
  | .afl action => aflFsrvRunTarget state action
  | .parent action => fksrvStart state action
  | .child pid action =>
      match state.children pid with
      | some child => if child.life = .alive then ucafl.childFuzz state pid child action else none
      | none => none

/-- No child has been forked and both pipes are empty. -/
def State.initial : State where
  afl := { pc := .idle, childPid := 0, lastRunTimedOut := false }
  parent := { pc := .readRequest, childRet := .exited, childPid := 0, requests := 0 }
  children := fun _ => none
  ctl := []
  st := []
  log := []

def UCAFL.forkserver (ucafl : UCAFL) : Systems.Machine State Action where
  initial := .initial
  step := ucafl.step

end SbFuzz.Unicornafl
