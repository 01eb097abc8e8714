import SbFuzz.Memory.BitSet

/-! The queue of `afl-fuzz` and its scores: insertion, the top-rated entry of
every map byte, and the favored entries. -/

set_option autoImplicit false

namespace SbFuzz.Fuzzer

open SbFuzz.Memory (BitSet)

/-! ## Data -/

def maxFile : Nat := 1024 * 1024

inductive Schedule where
  | explore
  | mmopt
  | exploit
  | fast
  | coe
  | lin
  | quad
  | rare
  | seek
deriving DecidableEq, Repr

/-- The place in the enumeration of the source. -/
def Schedule.number : Schedule → Nat
  | .explore => 0
  | .mmopt => 1
  | .exploit => 2
  | .fast => 3
  | .coe => 4
  | .lin => 5
  | .quad => 6
  | .rare => 7
  | .seek => 8

structure QueueEntry where
  len : UInt32
  calFailed : UInt8
  trimDone : Bool
  wasFuzzed : Bool
  favored : Bool
  fsRedundant : Bool
  disabled : Bool
  fuzzLevel : UInt32
  nFuzzEntry : UInt32
  execUs : UInt64
  execCksum : UInt64
  tcRef : Nat
  traceMini : Option BitSet

/-- What does not change while the fuzzer runs. -/
structure Config where
  mapSize : Nat
  wholeBytes : mapSize % 8 = 0
  fixedSeed : Bool
  nonInstrumentedMode : Bool
  disableRedundant : Bool

/-- The part of `afl_state_t` that is about the queue. Pointers to entries are
their indices in `queue_buf`. -/
structure Afl where
  queueBuf : Nat → QueueEntry
  queuedItems : Nat
  topRated : Nat → Option Nat
  traceBits : Nat → UInt8
  nFuzz : Nat → UInt32
  schedule : Schedule
  scoreChanged : Bool
  reinitTable : Bool
  activeItems : Nat
  pendingNotFuzzed : Nat
  queuedFavored : Nat
  pendingFavored : Nat
  smallestFavored : Int

/-- An assignment to fields of `*q`. -/
def Afl.modify (afl : Afl) (q : Nat) (change : QueueEntry → QueueEntry) : Afl :=
  { afl with queueBuf := Function.update afl.queueBuf q (change (afl.queueBuf q)) }

section

variable (afl : Afl) (q : Nat) (change : QueueEntry → QueueEntry)

theorem Afl.modify_queueBuf (r : Nat) : (afl.modify q change).queueBuf r =
    if r = q then change (afl.queueBuf q) else afl.queueBuf r := by
  simp [Afl.modify, Function.update_apply]

@[simp] theorem Afl.modify_queueBuf_self :
    (afl.modify q change).queueBuf q = change (afl.queueBuf q) := by
  simp [Afl.modify]

theorem Afl.modify_queueBuf_of_ne {r : Nat} (other : r ≠ q) :
    (afl.modify q change).queueBuf r = afl.queueBuf r := by
  simp [Afl.modify, other]

@[simp] theorem Afl.modify_queuedItems : (afl.modify q change).queuedItems = afl.queuedItems := rfl
@[simp] theorem Afl.modify_topRated : (afl.modify q change).topRated = afl.topRated := rfl
@[simp] theorem Afl.modify_traceBits : (afl.modify q change).traceBits = afl.traceBits := rfl
@[simp] theorem Afl.modify_nFuzz : (afl.modify q change).nFuzz = afl.nFuzz := rfl
@[simp] theorem Afl.modify_schedule : (afl.modify q change).schedule = afl.schedule := rfl
@[simp] theorem Afl.modify_scoreChanged :
    (afl.modify q change).scoreChanged = afl.scoreChanged := rfl
@[simp] theorem Afl.modify_reinitTable : (afl.modify q change).reinitTable = afl.reinitTable := rfl
@[simp] theorem Afl.modify_activeItems : (afl.modify q change).activeItems = afl.activeItems := rfl
@[simp] theorem Afl.modify_pendingNotFuzzed :
    (afl.modify q change).pendingNotFuzzed = afl.pendingNotFuzzed := rfl
@[simp] theorem Afl.modify_queuedFavored :
    (afl.modify q change).queuedFavored = afl.queuedFavored := rfl
@[simp] theorem Afl.modify_pendingFavored :
    (afl.modify q change).pendingFavored = afl.pendingFavored := rfl
@[simp] theorem Afl.modify_smallestFavored :
    (afl.modify q change).smallestFavored = afl.smallestFavored := rfl

end

/-! ## Insertion -/

def QueueEntry.fresh (len : UInt32) : QueueEntry where
  len
  calFailed := 0
  trimDone := false
  wasFuzzed := false
  favored := false
  fsRedundant := false
  disabled := false
  fuzzLevel := 0
  nFuzzEntry := 0
  execUs := 0
  execCksum := 0
  tcRef := 0
  traceMini := none

/-- The state of a new process, which is allocated as zeros. -/
def Afl.initial (schedule : Schedule) : Afl where
  queueBuf := fun _ => .fresh 0
  queuedItems := 0
  topRated := fun _ => none
  traceBits := fun _ => 0
  nFuzz := fun _ => 0
  schedule
  scoreChanged := false
  reinitTable := false
  activeItems := 0
  pendingNotFuzzed := 0
  queuedFavored := 0
  pendingFavored := 0
  smallestFavored := 0

def addToQueue (afl : Afl) (len : UInt32) : Afl :=
  { afl with
    queueBuf := Function.update afl.queueBuf afl.queuedItems (.fresh len)
    queuedItems := afl.queuedItems + 1
    activeItems := afl.activeItems + 1
    pendingNotFuzzed := afl.pendingNotFuzzed + 1 }

/-! ## Scores -/

/-- The bits that are spread stop short of the upper half of a word. -/
def nextPow2 (value : UInt64) : UInt64 :=
  let out := value - 1
  let out := out ||| (out >>> 1)
  let out := out ||| (out >>> 2)
  let out := out ||| (out >>> 4)
  let out := out ||| (out >>> 8)
  let out := out ||| (out >>> 16)
  out + 1

def minimizeBits (config : Config) (src : Nat → UInt8) : BitSet :=
  (List.range config.mapSize).foldl (fun dst i => if src i ≠ 0 then dst.insert i else dst)
    fun _ => 0

def Afl.fuzzP2 (afl : Afl) (q : Nat) : UInt64 :=
  if Schedule.fast.number ≤ afl.schedule.number ∧ afl.schedule.number < Schedule.rare.number then 0
  else if afl.schedule = .rare then
    nextPow2 (afl.nFuzz (afl.queueBuf q).nFuzzEntry.toNat).toUInt64
  else (afl.queueBuf q).fuzzLevel.toUInt64

def Afl.favFactor (config : Config) (afl : Afl) (q : Nat) : UInt64 :=
  if Schedule.rare.number ≤ afl.schedule.number ∨ config.fixedSeed then
    ((afl.queueBuf q).len <<< 2).toUInt64
  else (afl.queueBuf q).execUs * (afl.queueBuf q).len.toUInt64

/-- Neither `continue` of `update_bitmap_score` is taken against `top`. -/
def Afl.beats (config : Config) (afl : Afl) (q top : Nat) : Bool :=
  afl.fuzzP2 q ≤ afl.fuzzP2 top && afl.favFactor config q ≤ afl.favFactor config top

/-- The previous winner of a byte loses a reference. -/
def Afl.release (afl : Afl) (top : Nat) : Afl :=
  afl.modify top fun entry =>
    { entry with
      tcRef := entry.tcRef - 1
      traceMini := if entry.tcRef - 1 = 0 then none else entry.traceMini }

/-- `q` becomes the winner of byte `i`. -/
def Afl.insertWinner (config : Config) (afl : Afl) (q i : Nat) : Afl :=
  { afl.modify q fun entry =>
      { entry with
        tcRef := entry.tcRef + 1
        traceMini := some (entry.traceMini.getD (minimizeBits config afl.traceBits)) } with
    topRated := Function.update afl.topRated i (some q)
    scoreChanged := true }

/-- A round of the loop of `update_bitmap_score`. -/
def scoreByte (config : Config) (q : Nat) (afl : Afl) (i : Nat) : Afl :=
  if afl.traceBits i ≠ 0 then
    match afl.topRated i with
    | some top =>
        if afl.beats config q top then (afl.release top).insertWinner config q i else afl
    | none => afl.insertWinner config q i
  else afl

def updateBitmapScore (config : Config) (afl : Afl) (q : Nat) : Afl :=
  (List.range config.mapSize).foldl (scoreByte config q) afl

/-! ## Favored entries -/

def markAsRedundant (config : Config) (afl : Afl) (q : Nat) (state : Bool) : Afl :=
  if state = (afl.queueBuf q).fsRedundant then afl
  else afl.modify q fun entry =>
    { entry with
      fsRedundant := state
      disabled := if state && config.disableRedundant then true else entry.disabled }

/-- The first lines of `cull_queue`, with the loop that clears `favored`. -/
def Afl.forgetFavored (afl : Afl) : Afl :=
  { (List.range afl.queuedItems).foldl
      (fun afl i => afl.modify i fun entry => { entry with favored := false }) afl with
    scoreChanged := false
    queuedFavored := 0
    pendingFavored := 0
    smallestFavored := -1 }

/-- An entry that is not favored yet is marked and counted. -/
def Afl.favor (afl : Afl) (top : Nat) : Afl :=
  if (afl.queueBuf top).favored then afl
  else
    let marked := afl.modify top fun entry => { entry with favored := true }
    if (afl.queueBuf top).wasFuzzed then { marked with queuedFavored := afl.queuedFavored + 1 }
    else
      { marked with
        queuedFavored := afl.queuedFavored + 1
        pendingFavored := afl.pendingFavored + 1
        smallestFavored := if afl.smallestFavored < 0 then top else afl.smallestFavored }

structure Culling where
  afl : Afl
  tempV : BitSet

/-- A round of the second loop of `cull_queue`. -/
def cullByte (config : Config) (culling : Culling) (i : Nat) : Culling :=
  match culling.afl.topRated i with
  | some top =>
      if culling.tempV.has i then
        { afl := culling.afl.favor top
          tempV := culling.tempV.without
            ((culling.afl.queueBuf top).traceMini.getD fun _ => 0) (config.mapSize / 8) }
      else culling
  | none => culling

/-- A round of the last loop of `cull_queue`. -/
def cullRedundant (config : Config) (afl : Afl) (i : Nat) : Afl :=
  if (afl.queueBuf i).disabled then afl
  else markAsRedundant config afl i (!(afl.queueBuf i).favored)

/-- `cull_queue` up to the end of its second loop. -/
def Afl.coverBytes (config : Config) (afl : Afl) : Culling :=
  (List.range config.mapSize).foldl (cullByte config) ⟨afl.forgetFavored, fun _ => 0xff⟩

def cullQueue (config : Config) (afl : Afl) : Afl :=
  if !afl.scoreChanged || config.nonInstrumentedMode then afl
  else
    let covered := (afl.coverBytes config).afl
    { (List.range covered.queuedItems).foldl (cullRedundant config) covered with
      reinitTable := true }

end SbFuzz.Fuzzer
