import SbFuzz.Systems.Codec
import SbFuzz.Fuzzer.Queue
import Mathlib.Data.List.Sort

/-! Fast resume: `fastresume.bin`, the scan of the resumed directory, and how
the loader puts the two together. -/

set_option autoImplicit false

namespace SbFuzz.Fuzzer

open SbFuzz.Systems (Codec Block)

/-! ## The directory -/

/-- What `lstat` says about a directory entry. A directory comes with the
files that a scan of it queues. -/
inductive FileKind (Name : Type) where
  | regular (size : Nat)
  | directory (inside : List (Name × Nat))
  | other

structure DirEntry (Name : Type) where
  name : Name
  kind : FileKind Name

/-- `shuffle` is the order that `shuffle_ptrs` happens to produce. -/
structure ScanOptions (Name : Type) where
  inPlaceResume : Bool
  subdirs : Bool
  dotted : Name → Bool
  readme : Name → Bool
  oldSeedSelection : Bool
  shuffleQueue : Bool
  shuffle : List (DirEntry Name) → List (DirEntry Name)
  shuffles : ∀ nl, (shuffle nl).Perm nl

section

variable {Name : Type} (options : ScanOptions Name)

/-- What one entry adds to the queue. -/
def visitEntry (entry : DirEntry Name) : List (Name × Nat) :=
  match entry.kind with
  | .directory inside =>
      if options.subdirs && !options.dotted entry.name then inside else []
  | .regular size =>
      if size = 0 ∨ options.readme entry.name then []
      else [(entry.name, if maxFile ≤ size then maxFile else size)]
  | .other => []

/-- The loop of `read_testcases` upwards from `i`. -/
def scanUp (nl : List (DirEntry Name)) (i : Nat) : List (Name × Nat) :=
  if inside : i < nl.length then
    visitEntry options nl[i] ++ scanUp nl (i + 1)
  else []
termination_by nl.length - i

/-- The same loop under `in_place_resume`, which starts with `--i`. -/
def scanDown (nl : List (DirEntry Name)) : Nat → List (Name × Nat)
  | 0 => []
  | i + 1 => (nl[i]?.elim [] (visitEntry options)) ++ scanDown nl i

def readTestcases [LinearOrder Name] (listing : List (DirEntry Name)) : List (Name × Nat) :=
  let nl := listing.mergeSort fun left right => decide (left.name ≤ right.name)
  let nl :=
    if options.oldSeedSelection ∧ options.shuffleQueue ∧ 1 < nl.length then options.shuffle nl
    else nl
  if options.inPlaceResume then scanDown options nl nl.length else scanUp options nl 0

end

/-- An entry of the queue after `pivot_inputs`: the file it was linked from,
the new name, and the length. -/
structure Pivoted (Name : Type) where
  origin : Name
  fname : Name
  len : Nat

/-- Positions stay, only names change. -/
def pivotInputs {Name : Type} (newName : Nat → Name → Name) (found : List (Name × Nat)) :
    List (Pivoted Name) :=
  found.mapIdx fun id file => { origin := file.1, fname := newName id file.1, len := file.2 }

/-! ## The file -/

structure SavedMaps (mapSize : Nat) where
  virginBits : Block mapSize
  virginTmout : Block mapSize
  virginCrash : Block mapSize
  varBytes : Block mapSize

/-- The fields of an entry that lie between `colorized` and `mother`, and the
minimised trace. -/
structure SavedRecord (Fields : Type) (mapSize : Nat) where
  fields : Fields
  mini : Option (Block (mapSize / 8))

section

variable {Fields : Type} (fields : Codec Fields) {mapSize : Nat}

def writeRecord (record : SavedRecord Fields mapSize) : List UInt8 :=
  fields.write record.fields ++ (Codec.block _).optional.write record.mini

def writeFastresume (version : Block 8) (maps : SavedMaps mapSize)
    (records : List (SavedRecord Fields mapSize)) : List UInt8 :=
  version.val ++ maps.virginBits.val ++ maps.virginTmout.val ++ maps.virginCrash.val ++
    maps.varBytes.val ++ records.flatMap (writeRecord fields)

def readRecord (mapSize : Nat) (stream : List UInt8) :
    Option (SavedRecord Fields mapSize × List UInt8) := do
  let (read, stream) ← fields.read stream
  let (mini, stream) ← (Codec.block (mapSize / 8)).optional.read stream
  pure ({ fields := read, mini }, stream)

def readMaps (mapSize : Nat) (stream : List UInt8) :
    Option (SavedMaps mapSize × List UInt8) := do
  let (virginBits, stream) ← (Codec.block mapSize).read stream
  let (virginTmout, stream) ← (Codec.block mapSize).read stream
  let (virginCrash, stream) ← (Codec.block mapSize).read stream
  let (varBytes, stream) ← (Codec.block mapSize).read stream
  pure ({ virginBits, virginTmout, virginCrash, varBytes }, stream)

/-- The loop of the loader over the queue: record `i` goes to entry `i`. -/
def attachRecords {Name : Type} (mapSize : Nat) : List (Pivoted Name) → List UInt8 →
    Option (List (Pivoted Name × SavedRecord Fields mapSize) × List UInt8)
  | [], stream => some ([], stream)
  | entry :: queue, stream => do
      let (record, stream) ← readRecord fields mapSize stream
      let (attached, stream) ← attachRecords mapSize queue stream
      pure ((entry, record) :: attached, stream)

/-- No fast resume under another version; the loader gives up on a file that is
too short and on trailing data. -/
def loadFastresume {Name : Type} (expectVer : Block 8) (mapSize : Nat)
    (queue : List (Pivoted Name)) (file : List UInt8) :
    Option (SavedMaps mapSize × List (Pivoted Name × SavedRecord Fields mapSize)) := do
  let (version, stream) ← (Codec.block 8).read file
  if version ≠ expectVer then none
  else
    let (maps, stream) ← readMaps mapSize stream
    let (attached, stream) ← attachRecords fields mapSize queue stream
    if stream = [] then some (maps, attached) else none

end

/-! ## The scores -/

/-- The record of entry `i` is copied over it. -/
def Afl.readEntry (afl : Afl) (i : Nat) (saved : QueueEntry) : Afl :=
  afl.modify i fun entry =>
    { saved with
      len := entry.len
      traceMini := saved.traceMini.or entry.traceMini }

/-- The counters that the loader adjusts for entry `i`. -/
def Afl.countLoaded (afl : Afl) (i : Nat) : Afl :=
  let q := afl.queueBuf i
  let afl := if q.wasFuzzed then { afl with pendingNotFuzzed := afl.pendingNotFuzzed - 1 } else afl
  let afl :=
    if q.disabled then
      { afl with
        pendingNotFuzzed :=
          if q.wasFuzzed then afl.pendingNotFuzzed else afl.pendingNotFuzzed - 1
        activeItems := afl.activeItems - 1 }
    else afl
  if q.favored then
    { afl with
      queuedFavored := afl.queuedFavored + 1
      pendingFavored := if q.wasFuzzed then afl.pendingFavored else afl.pendingFavored + 1 }
  else afl

def loadEntry (config : Config) (afl : Afl) (i : Nat) (saved : QueueEntry) : Afl :=
  (updateBitmapScore config (afl.readEntry i saved) i).countLoaded i

/-- A new process that has read test cases of these lengths. -/
def Afl.reopened (schedule : Schedule) (len : Nat → UInt32) (n : Nat) : Afl :=
  (List.range n).foldl (fun afl i => addToQueue afl (len i)) (.initial schedule)

/-- The state of a process after the loader: the records of the state at
shutdown in the order of its queue, files of any lengths, and a trace buffer
that holds whatever the start of the target left in it. -/
def fastResume (config : Config) (schedule : Schedule) (len : Nat → UInt32)
    (traceBits : Nat → UInt8) (shutdown : Afl) : Afl :=
  let opened := { Afl.reopened schedule len shutdown.queuedItems with traceBits }
  { (List.range shutdown.queuedItems).foldl
      (fun afl i => loadEntry config afl i (shutdown.queueBuf i)) opened with
    reinitTable := true }

end SbFuzz.Fuzzer
