import SbFuzz.Systems.RingBuffer

/-! `AFL_PERSISTENT_RECORD`: the inputs that the fork server keeps of a persistent child, and the
files that it writes of them after a crash or a hang. -/

set_option autoImplicit false

namespace SbFuzz.Fuzzer.PersistentRecord

open SbFuzz.Systems.RingBuffer

def maxFile : Nat := 1024 * 1024

/-! ## The fork server -/

/-- `persistent_record_data` and `persistent_record_len` at an index. -/
structure Entry where
  data : Option (List UInt8)
  len : Nat

def Entry.file (entry : Entry) : Option (List UInt8) :=
  if entry.len = 0 then none else entry.data.map fun data => data.take entry.len

/-- The cursor of the record is `persistent_record_idx`. -/
structure Fsrv where
  useShmemFuzz : Bool
  record : RingBuf Entry
  persistentRecordCnt : Nat
  persistentRecordPid : Int
  /-- What the target reads: the shared memory or the file. -/
  testcase : List UInt8

def Fsrv.writeToTestcase (fsrv : Fsrv) (buf : List UInt8) : Fsrv :=
  { fsrv with
    record := fsrv.record.push ⟨some buf, buf.length⟩
    testcase := if fsrv.useShmemFuzz then buf.take maxFile else buf }

/-- `processed` is what the post-processors make of the candidate, when there are any. -/
def Fsrv.writeWithGap (fsrv : Fsrv) (mem : List UInt8) (skipAt skipLen : Nat)
    (processed : Option (List UInt8)) : Fsrv :=
  { fsrv with testcase := processed.getD (mem.take skipAt ++ mem.drop (skipAt + skipLen)) }

def Entry.clear (entry : Entry) : Entry := { entry with len := 0 }

/-- The first half of `afl_fsrv_run_target`, with the pid that the fork server reports. -/
def Fsrv.childPid (fsrv : Fsrv) (pid : Int) : Fsrv :=
  if fsrv.persistentRecordPid ≠ pid then
    { fsrv with persistentRecordPid := pid, record := fsrv.record.keepNewest Entry.clear }
  else fsrv

inductive Fault where
  | ok | error | tmout | crash
  deriving DecidableEq

structure RecordFile where
  /-- `hangs` or `crashes`. -/
  fault : Fault
  record : Nat
  cnt : Nat
  data : List UInt8
  deriving DecidableEq

/-- `opens` tells which files can be opened. -/
def Fsrv.storePersistentRecord (fsrv : Fsrv) (fault : Fault) (opens : Nat → Bool) :
    List RecordFile :=
  ((fsrv.record.oldestFirst.filterMap Entry.file).mapIdx fun writecnt data =>
    ⟨fault, fsrv.persistentRecordCnt, writecnt, data⟩).filter fun file => opens file.cnt

/-- How the fork server and the target behave in a run. -/
structure Run where
  /-- The pid of a new child; without one the child of the last run goes on. -/
  newChild : Option Int
  fault : Fault
  opens : Nat → Bool

def Run.pid (run : Run) (fsrv : Fsrv) : Int := run.newChild.getD fsrv.persistentRecordPid

def Fsrv.runTarget (fsrv : Fsrv) (run : Run) : Option (Fsrv × List RecordFile) :=
  if run.pid fsrv ≤ 0 then none
  else
    let fsrv := fsrv.childPid (run.pid fsrv)
    if run.fault = .tmout ∨ run.fault = .crash then
      some ({ fsrv with persistentRecordCnt := fsrv.persistentRecordCnt + 1 },
        fsrv.storePersistentRecord run.fault run.opens)
    else some (fsrv, [])

/-! ## Executions -/

inductive Delivery where
  /-- In calibration and in the fuzzing stages. -/
  | testcase (buf : List UInt8)
  /-- In trimming. -/
  | gap (mem : List UInt8) (skipAt skipLen : Nat) (processed : Option (List UInt8))
  /-- By a custom mutator. -/
  | sent (input : List UInt8)

def Fsrv.deliver (fsrv : Fsrv) : Delivery → Fsrv
  | .testcase buf => fsrv.writeToTestcase buf
  | .gap mem skipAt skipLen processed => fsrv.writeWithGap mem skipAt skipLen processed
  | .sent input => { fsrv with testcase := input }

inductive Step where
  | execute (delivery : Delivery) (run : Run)
  /-- The input is written as always, and the other fork server runs. -/
  | cmplog (buf : List UInt8)

/-- The life of the current child: what it executed, and the last of these inputs, without a
break, that were also recorded. -/
structure Life where
  executed : List (List UInt8)
  recorded : List (List UInt8)
  /-- All of them were recorded, in a record without entries of another child. -/
  whole : Bool

/-- An input that the record keeps as the target reads it. -/
def Delivery.Recorded (useShmemFuzz : Bool) : Delivery → Prop
  | .testcase buf => buf ≠ [] ∧ (useShmemFuzz → buf.length ≤ maxFile)
  | _ => False

instance (useShmemFuzz : Bool) (delivery : Delivery) :
    Decidable (delivery.Recorded useShmemFuzz) := by
  cases delivery <;> unfold Delivery.Recorded <;> infer_instance

def Life.execute (life : Life) (fsrv : Fsrv) (delivery : Delivery) (run : Run) : Life :=
  let input := (fsrv.deliver delivery).testcase
  let recorded := decide (delivery.Recorded fsrv.useShmemFuzz)
  match run.newChild with
  | some pid =>
      ⟨[input], if recorded then [input] else [], recorded ∧ fsrv.persistentRecordPid ≠ pid⟩
  | none =>
      ⟨life.executed ++ [input], if recorded then life.recorded ++ [input] else [],
        life.whole ∧ recorded⟩

structure Session where
  fsrv : Fsrv
  life : Life

def Session.step (session : Session) : Step → Option (Session × List RecordFile)
  | .execute delivery run =>
      ((session.fsrv.deliver delivery).runTarget run).map fun (fsrv, files) =>
        (⟨fsrv, session.life.execute session.fsrv delivery run⟩, files)
  | .cmplog buf =>
      some (⟨session.fsrv.writeToTestcase buf, { session.life with recorded := [], whole := false }⟩,
        [])

def Session.run (session : Session) (history : List Step) : Option Session :=
  history.foldlM (fun session step => (session.step step).map Prod.fst) session

/-- A record of fewer than two entries is refused, and `ck_alloc` serves requests up to
`MAX_ALLOC`. -/
structure Depth where
  entries : Nat
  two : 2 ≤ entries
  fits : entries * 8 ≤ 0x40000000

def Session.start (useShmemFuzz : Bool) (depth : Depth) : Session where
  fsrv :=
    { useShmemFuzz
      record :=
        { slots := List.replicate depth.entries ⟨none, 0⟩
          cursor := 0
          inside := by
            rw [List.length_replicate]
            exact Nat.lt_of_lt_of_le Nat.two_pos depth.two }
      persistentRecordCnt := 0
      persistentRecordPid := 0
      testcase := [] }
  life := ⟨[], [], false⟩

end SbFuzz.Fuzzer.PersistentRecord
