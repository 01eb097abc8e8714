import SbFuzz.Systems.AppendLog

/-! `prefetch.c`: the blocks and backpatches that the children of FRIDA mode report to their
parent through shared memory. -/

set_option autoImplicit false

namespace SbFuzz.FridaMode

open Systems

def prefetchSize : Nat := 65536

def prefetchEntries : Nat := (prefetchSize - 8) / 8

def bpSize : Nat := 524288

def gsizeAdd (a b : Nat) : Nat := (a + b) % 2 ^ 64

def gsizeSub (a b : Nat) : Nat := (a + 2 ^ 64 - b) % 2 ^ 64

structure PrefetchData where
  /-- `entry`, of which `count` entries are used. -/
  blocks : Area UInt64
  /-- `backpatch_data`, of which `backpatch_size` bytes are used. -/
  backpatches : Area UInt8

/-- The memory as `shm_create` clears it. -/
def PrefetchData.cleared : PrefetchData where
  blocks := ⟨List.replicate prefetchEntries 0, 0⟩
  backpatches := ⟨List.replicate bpSize 0, 0⟩

inductive Store where
  | block (write : Area.Write UInt64)
  | backpatch (write : Area.Write UInt8)

def PrefetchData.perform (data : PrefetchData) : Store → PrefetchData
  | .block write => { data with blocks := data.blocks.perform write }
  | .backpatch write => { data with backpatches := data.backpatches.perform write }

/-- An object of Gum as it lies in memory. -/
structure GumBackpatch where
  bytes : List UInt8
  nonempty : bytes ≠ []
  fits : 8 + bytes.length < 2 ^ 64

/-- What Gum reads from the bytes of a backpatch. -/
structure Gum where
  backpatchGetFrom : List UInt8 → UInt64
  backpatchGetTo : List UInt8 → UInt64

/-- The part of a process that a report reads. -/
structure Process where
  entryRun : Bool
  cantPrefetch : List UInt64

/-- The writes of `gum_afl_stalker_backpatcher_notify`. -/
def backpatcherNotify (gum : Gum) (process : Process) (data : PrefetchData)
    (backpatch : GumBackpatch) : List Store :=
  if !process.entryRun then []
  else
    let remaining := gsizeSub bpSize data.backpatches.used
    let source := gum.backpatchGetFrom backpatch.bytes
    let target := gum.backpatchGetTo backpatch.bytes
    if process.cantPrefetch.contains source || process.cantPrefetch.contains target then []
    else if gsizeAdd 8 backpatch.bytes.length > remaining then []
    else (framing 8 data.backpatches.used backpatch.bytes).map .backpatch

/-- The writes of `prefetch_write`. -/
def prefetchWrite (process : Process) (data : PrefetchData) (addr : UInt64) : List Store :=
  if !process.entryRun then []
  else if process.cantPrefetch.contains addr then []
  else if data.blocks.used ≥ prefetchEntries then []
  else (Area.appending data.blocks.used [[addr]]).map .block

inductive Fault where
  /-- An access outside an array of the shared memory. -/
  | outside
  /-- `Incomplete backpatch entry`. -/
  | incomplete
  deriving DecidableEq

inductive Call where
  | prefetch (addr : UInt64)
  | cantPrefetch (addr : UInt64)
  | prefetchBackpatch (bytes : List UInt8)
  deriving DecidableEq

def blockCalls (executable : UInt64 → Bool) (addr : UInt64) : List Call :=
  if executable addr then [.prefetch addr] else [.cantPrefetch addr]

def patchCalls (gum : Gum) (executable : UInt64 → Bool) (bytes : List UInt8) : List Call :=
  let source := gum.backpatchGetFrom bytes
  let target := gum.backpatchGetTo bytes
  (if !executable source then [.cantPrefetch source] else []) ++
    (if !executable target then [.cantPrefetch target] else []) ++
    if executable source && executable target then [.prefetchBackpatch bytes] else []

/-- `prefetch_read_blocks` from entry `i` on. -/
def prefetchReadBlocks (executable : UInt64 → Bool) (blocks : Area UInt64) (i : Nat) :
    Except Fault (List Call) :=
  if i < blocks.used then
    match blocks.cells[i]? with
    | none => .error .outside
    | some addr => do
        let calls ← prefetchReadBlocks executable blocks (i + 1)
        .ok (blockCalls executable addr ++ calls)
  else .ok []
termination_by blocks.used - i

/-- The entry at `offset`: its length, and as many bytes behind it. -/
def readEntry (backpatches : Area UInt8) (offset : Nat) : Except Fault (List UInt8) :=
  if backpatches.cells.length < offset + 8 then .error .outside
  else
    let size := Memory.load 8 backpatches.cells offset
    if gsizeSub backpatches.used (offset + 8) < size then .error .incomplete
    else if backpatches.cells.length < offset + 8 + size then .error .outside
    else .ok ((backpatches.cells.drop (offset + 8)).take size)

theorem readEntry_inside {backpatches : Area UInt8} {offset : Nat} {bytes : List UInt8}
    (read : readEntry backpatches offset = .ok bytes) :
    offset + 8 ≤ backpatches.cells.length := by
  unfold readEntry at read
  split at read
  · cases read
  · next inside => exact Nat.le_of_not_lt inside

/-- `prefetch_read_patches` from `offset` on. -/
def prefetchReadPatches (gum : Gum) (executable : UInt64 → Bool) (backpatches : Area UInt8)
    (offset : Nat) : Except Fault (List Call) :=
  if gsizeSub backpatches.used offset > 8 then
    match entry : readEntry backpatches offset with
    | .error fault => .error fault
    | .ok bytes => do
        let calls ← prefetchReadPatches gum executable backpatches (offset + 8 + bytes.length)
        .ok (patchCalls gum executable bytes ++ calls)
  else .ok []
termination_by backpatches.cells.length - offset
decreasing_by
  have inside := readEntry_inside entry
  omega

/-- Both arrays are empty again after the read. -/
def prefetchRead (gum : Gum) (executable : UInt64 → Bool) (data : PrefetchData) :
    Except Fault (List Call × PrefetchData) := do
  let blocks ← prefetchReadBlocks executable data.blocks 0
  let data := data.perform (.block (.commit 0))
  let patches ← prefetchReadPatches gum executable data.backpatches 0
  .ok (blocks ++ patches, data.perform (.backpatch (.commit 0)))

def addedToCantPrefetch (calls : List Call) : List UInt64 :=
  calls.filterMap fun
    | .cantPrefetch addr => some addr
    | _ => none

inductive Report where
  | block (addr : UInt64)
  | backpatch (backpatch : GumBackpatch)

def Report.stores (gum : Gum) (process : Process) (data : PrefetchData) : Report → List Store
  | .block addr => prefetchWrite process data addr
  | .backpatch patch => backpatcherNotify gum process data patch

/-- A child makes its reports one after the other, and can be killed after some writes of one more. -/
structure Child where
  reports : List Report
  killed : Option (Report × Nat)

structure System where
  data : PrefetchData
  /-- The table of the parent, which a child inherits. -/
  cantPrefetch : List UInt64
  /-- The reports whose writing was completed since the last read. -/
  written : List Report

def System.initial : System := ⟨.cleared, [], []⟩

def System.stores (gum : Gum) (system : System) (report : Report) : List Store :=
  report.stores gum ⟨true, system.cantPrefetch⟩ system.data

/-- A report counts as written when its last write is done; one that is skipped has none. -/
def completed (written : List Report) (report : Report) (stores : List Store) (steps : Nat) :
    List Report :=
  if !stores.isEmpty && stores.length ≤ steps then written ++ [report] else written

/-- The first `steps` writes of a report are done. -/
def System.report (gum : Gum) (system : System) (report : Report) (steps : Nat) : System :=
  let stores := system.stores gum report
  { system with
    data := (stores.take steps).foldl PrefetchData.perform system.data
    written := completed system.written report stores steps }

def System.reportAll (gum : Gum) (system : System) (reports : List Report) : System :=
  reports.foldl (fun system report => system.report gum report (system.stores gum report).length)
    system

def System.child (gum : Gum) (system : System) (child : Child) : System :=
  let system := system.reportAll gum child.reports
  match child.killed with
  | none => system
  | some (report, steps) => system.report gum report steps

structure Fork where
  executable : UInt64 → Bool
  child : Child

/-- What was to be read, and what came of it. -/
structure Reading where
  written : List Report
  calls : List Call

def System.prefetchOnFork (gum : Gum) (system : System) (fork : Fork) :
    Except Fault (Reading × System) := do
  let (calls, data) ← prefetchRead gum fork.executable system.data
  let cantPrefetch := addedToCantPrefetch calls ++ system.cantPrefetch
  .ok (⟨system.written, calls⟩, System.child gum ⟨data, cantPrefetch, []⟩ fork.child)

def System.run (gum : Gum) (system : System) : List Fork → Except Fault (List Reading × System)
  | [] => .ok ([], system)
  | fork :: forks => do
      let (reading, next) ← system.prefetchOnFork gum fork
      let (readings, last) ← next.run gum forks
      .ok (reading :: readings, last)

end SbFuzz.FridaMode
