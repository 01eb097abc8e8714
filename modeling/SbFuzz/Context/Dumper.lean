import Mathlib.Data.List.Infix
import Mathlib.Logic.Function.Basic

/-! The pwndbg context dumper: the index file and the content files that it
writes for a stopped process. -/

set_option autoImplicit false

namespace SbFuzz.Context

/-! ## The context directory -/

/-- The `permissions` object of a segment. -/
structure Permissions where
  r : Bool
  w : Bool
  x : Bool
deriving DecidableEq, Repr

/-- A `seg_info`; `stop` is its `end`. -/
structure SegInfo where
  start : Nat
  stop : Nat
  name : String
  permissions : Permissions
  contentFile : String
deriving DecidableEq, Repr

/-- The object in `_index.json`. -/
structure IndexFile where
  arch : String
  regs : List (String × Nat)
  segments : List SegInfo

/-- The content files of a context directory. -/
abbrev Files := String → Option (List UInt8)

structure ContextDirectory where
  index : IndexFile
  files : Files

/-! ## The process -/

/-- An entry of the memory map; `stop` is its `end`. -/
structure Entry where
  start : Nat
  stop : Nat
  objfile : String
  read : Bool
  write : Bool
  execute : Bool
deriving DecidableEq, Repr

/-- What becomes of a call of `pwndbg.gdblib.memory.read`. -/
inductive ReadOutcome where
  | content
  | none
  | exception
deriving DecidableEq, Repr

/-- What the dumper sees of the process through pwndbg. -/
structure Process where
  arch : String
  bigEndian : Bool
  /-- The names in `regs.all`. -/
  regNames : List String
  regs : String → Option UInt64
  vmmap : List Entry
  memory : Nat → UInt8
  readOutcome : Nat → Nat → ReadOutcome

/-- Python's `needle in text`. -/
def contains (text needle : String) : Bool := decide (needle.toList <:+: text.toList)

def Process.bytes (process : Process) (start size : Nat) : List UInt8 :=
  (List.range size).map fun offset => process.memory (start + offset)

@[simp] theorem Process.bytes_length (process : Process) (start size : Nat) :
    (process.bytes start size).length = size := by simp [bytes]

theorem Process.bytes_getElem (process : Process) (start size offset : Nat)
    (inside : offset < (process.bytes start size).length) :
    (process.bytes start size)[offset] = process.memory (start + offset) := by
  simp [bytes]

/-! ## Architecture and registers -/

/-- Bit 5 of `cpsr`; a process without that register makes the dumper fail. -/
def Process.thumb (process : Process) : Option Bool :=
  (process.regs "cpsr").map fun cpsr => cpsr &&& ((1 : UInt64) <<< 5) != 0

def mapArch (process : Process) : Option String :=
  let arch := process.arch
  if contains arch "x86_64" || contains arch "x86-64" then some "x64"
  else if contains arch "x86" || contains arch "i386" then some "x86"
  else if contains arch "aarch64" || contains arch "arm64" then some "arm64le"
  else if contains arch "aarch64_be" then some "arm64be"
  else if contains arch "arm" then
    process.thumb.map fun thumb =>
      if process.bigEndian then if thumb then "armbethumb" else "armbe"
      else if thumb then "armlethumb" else "armle"
  else if contains arch "mips" then some (if process.bigEndian then "mips" else "mipsel")
  else some ""

/-- Python's `d[key] = value`: a key keeps the place of its first assignment. -/
def assign {Value : Type} (key : String) (value : Value) :
    List (String × Value) → List (String × Value)
  | [] => [(key, value)]
  | (other, old) :: rest =>
      if other = key then (key, value) :: rest else (other, old) :: assign key value rest

/-- `reg.strip().strip("$")`. -/
def stripReg (reg : String) : String :=
  let strip (drop : Char → Bool) (text : List Char) : List Char :=
    ((text.dropWhile drop).reverse.dropWhile drop).reverse
  String.ofList (strip (· == '$') (strip Char.isWhitespace reg.toList))

/-- The body of the loop of `dump_regs`. -/
def dumpReg (process : Process) (regState : List (String × Nat)) (reg : String) :
    List (String × Nat) :=
  match process.regs reg with
  | none => regState
  | some regVal => assign (stripReg reg) regVal.toNat regState

def dumpRegs (process : Process) : List (String × Nat) :=
  process.regNames.foldl (dumpReg process) []

/-! ## Memory -/

/-- The local variables of `dump_process_memory`. -/
structure MemoryDump where
  finalSegmentList : List SegInfo
  files : Files
  segmentLastAddr : Nat

/-- The condition under which the content of an entry is asked for. -/
def Entry.wanted (entry : Entry) : Bool :=
  (entry.read && !contains entry.objfile "(deleted)") ||
    (entry.read || entry.write || entry.execute)

section

-- `hashlib.md5(content).hexdigest()`
variable (md5 : List UInt8 → String)

def contentFileName (content : List UInt8) : String := md5 content ++ ".bin"

/-- The body of the loop of `dump_process_memory`. -/
def dumpEntry (process : Process) (dump : MemoryDump) (entry : Entry) : MemoryDump :=
  if entry.start = entry.stop then dump
  else if dump.segmentLastAddr > entry.start ∧ dump.segmentLastAddr > entry.stop then dump
  else
    let start := if dump.segmentLastAddr > entry.start then dump.segmentLastAddr else entry.start
    let segInfo (contentFile : String) : SegInfo :=
      { start, stop := entry.stop, name := entry.objfile
        permissions := ⟨entry.read, entry.write, entry.execute⟩, contentFile }
    let content := process.bytes start (entry.stop - start)
    if !entry.wanted then { dump with segmentLastAddr := entry.stop }
    else
      match process.readOutcome start (entry.stop - start) with
      | .content =>
          { finalSegmentList := dump.finalSegmentList ++ [segInfo (contentFileName md5 content)]
            files := Function.update dump.files (contentFileName md5 content) (some content)
            segmentLastAddr := entry.stop }
      | .none =>
          { dump with
            finalSegmentList := dump.finalSegmentList ++ [segInfo ""]
            segmentLastAddr := entry.stop }
      | .exception => { dump with segmentLastAddr := entry.stop }

/-- `dump_process_memory`, into an empty directory. -/
def dumpProcessMemory (process : Process) : MemoryDump :=
  process.vmmap.foldl (dumpEntry md5 process)
    { finalSegmentList := [], files := fun _ => none, segmentLastAddr := 0 }

/-- `main`: the context directory, or nothing when the dumper fails. -/
def dumpContext (process : Process) : Option ContextDirectory :=
  (mapArch process).map fun arch =>
    let dump := dumpProcessMemory md5 process
    { index := { arch, regs := dumpRegs process, segments := dump.finalSegmentList }
      files := dump.files }

end

end SbFuzz.Context
