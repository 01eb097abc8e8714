import SbFuzz.Context.Dumper
import SbFuzz.Context.Emulator

/-! The C++ loader of context directories, `AflUnicornEngine`. -/

set_option autoImplicit false

namespace SbFuzz.SandboxFuzzer

open Context

/-! ## Mapping -/

def unicornPageSize : UInt64 := 0x1000

def maxAllowableSegSize : UInt64 := 1024 * 1024 * 1024

def alignPageDown (x : UInt64) : UInt64 := x &&& ~~~(unicornPageSize - 1)

def alignPageUp (x : UInt64) : UInt64 := (x + unicornPageSize - 1) &&& ~~~(unicornPageSize - 1)

/-- What ends the program: a failed `uc_assert_success`, a number that is not
in the index, a missing content file, or a failed `uncompress`. -/
inductive EngineFailure where
  | uc (error : UcErr)
  | open
  | noRegister (name : String)
  | noContextFile (name : String)
  | uncompress
deriving DecidableEq, Repr

/-- A call of `uc_mem_map`, and the blocks that were mapped when it was made. -/
structure Ask where
  mapped : List MemRegion
  address : UInt64
  size : UInt64

/-- The engine while segments are loaded. `asked` is history. -/
structure EngineLoad where
  emulator : Emulator
  asked : List Ask
  failure : Option EngineFailure

def EngineLoad.mapSegment (load : EngineLoad) (address size : UInt64) (perms : UInt32) :
    EngineLoad :=
  let memStartAligned := alignPageDown address
  let memEndAligned := alignPageUp (address + size)
  if memStartAligned < memEndAligned then
    let asked := load.asked ++
      [⟨load.emulator.ucMemRegions, memStartAligned, memEndAligned - memStartAligned⟩]
    match load.emulator.ucMemMap memStartAligned (memEndAligned - memStartAligned) perms with
    | .ok emulator => { load with emulator, asked }
    | .error error => { load with asked, failure := some (.uc error) }
  else load

/-- What the loop over the mapped regions ends with. -/
inductive Overlap where
  | none
  | pass
  | overlapStart (memEnd : UInt64)
  | overlapEnd (memStart : UInt64)
deriving DecidableEq, Repr

/-- The loop over `regions`: the first of them that concerns the segment decides. -/
def findOverlap (segStart segEnd : UInt64) : List MemRegion → Overlap
  | [] => .none
  | region :: rest =>
      let memStart := region.begin
      let memEnd := region.stop + 1
      if segStart ≥ memStart ∧ segEnd < memEnd then .pass
      else if segStart ≥ memStart ∧ segStart < memEnd then .overlapStart memEnd
      else if segEnd ≥ memStart ∧ segEnd < memEnd then .overlapEnd memStart
      else findOverlap segStart segEnd rest

/-- The part of a round of `_map_segments` that maps memory. -/
def EngineLoad.mapOverlapping (load : EngineLoad) (segStart segEnd : UInt64) (perms : UInt32) :
    EngineLoad :=
  match findOverlap segStart segEnd load.emulator.ucMemRegions with
  | .pass => load
  | .overlapStart tmp => load.mapSegment tmp (segEnd - tmp) perms
  | .overlapEnd tmp => load.mapSegment segStart (tmp - segStart) perms
  | .none => load.mapSegment segStart (segEnd - segStart) perms

/-! ## Contents -/

/-- zlib's `uncompress`: the data behind a compressed buffer, unless the buffer
is invalid or the data has more bytes than there is room for. -/
structure Uncompress where
  decode : List UInt8 → Nat → Option (List UInt8)
  bounded : ∀ compr room data, decode compr room = some data → data.length ≤ room

/-- The part of a round of `_map_segments` that loads the content. -/
def EngineLoad.loadContent (uncompress : Uncompress) (files : Files) (load : EngineLoad)
    (segStart segEnd : UInt64) (contentFile : String) : EngineLoad :=
  if contentFile.length > 0 then
    match files contentFile with
    | none => { load with failure := some (.noContextFile contentFile) }
    | some compr =>
        match uncompress.decode compr (segEnd - segStart).toNat with
        | none => { load with failure := some .uncompress }
        | some dcompr =>
            match load.emulator.ucMemWrite segStart dcompr with
            | .ok emulator => { load with emulator }
            | .error error => { load with failure := some (.uc error) }
  else load

def segPerms (permissions : Permissions) : UInt32 :=
  (if permissions.r then ucProtRead else 0) ||| (if permissions.w then ucProtWrite else 0) |||
    (if permissions.x then ucProtExec else 0)

/-- A round of `_map_segments`; nothing happens once the program has ended. -/
def EngineLoad.segment (uncompress : Uncompress) (files : Files) (load : EngineLoad)
    (segment : SegInfo) : EngineLoad :=
  let segStart := UInt64.ofNat segment.start
  let segEnd := UInt64.ofNat segment.stop
  if load.failure.isSome then load
  else if segEnd - segStart > maxAllowableSegSize then load
  else
    let mapped := load.mapOverlapping segStart segEnd (segPerms segment.permissions)
    if mapped.failure.isSome then mapped
    else mapped.loadContent uncompress files segStart segEnd segment.contentFile

def mapSegments (uncompress : Uncompress) (files : Files) (emulator : Emulator)
    (segmentList : List SegInfo) : EngineLoad :=
  segmentList.foldl (EngineLoad.segment uncompress files)
    { emulator, asked := [], failure := none }

/-! ## The constructor -/

/-- `uc_settings`, with the numbers of `uc_arch` and `uc_mode`. -/
structure UcSettings where
  arch : Nat
  mode : Nat
deriving DecidableEq, Repr

def ucArchX86 : Nat := 4

def ucMode32 : Nat := 1 <<< 2

def ucMode64 : Nat := 1 <<< 3

/-- `_get_arch_and_mode`. The `operator[]` of the map makes up a zeroed entry
for a key that it does not have. -/
def getArchAndMode (archStr : String) : UcSettings :=
  ([("x86", ⟨ucArchX86, ucMode32⟩), ("x86_64", ⟨ucArchX86, ucMode64⟩)].lookup archStr).getD ⟨0, 0⟩

/-- The success of `uc_open`, for x86 and for the zeroed settings. -/
def ucOpen (settings : UcSettings) : Bool :=
  settings.arch = ucArchX86 && (settings.mode = ucMode32 || settings.mode = ucMode64)

/-- `_get_register_map`, in the order of the keys. -/
def getRegisterMap (mode : Nat) : List (String × Nat) :=
  if mode = ucMode32 then
    [("eax", 19), ("ebp", 20), ("ebx", 21), ("ecx", 22), ("edi", 23), ("edx", 24),
      ("eflags", 25), ("eip", 26), ("esi", 29), ("esp", 30)]
  else if mode = ucMode64 then
    [("r10", 108), ("r11", 109), ("r12", 110), ("r13", 111), ("r14", 112), ("r15", 113),
      ("r8", 106), ("r9", 107), ("rax", 35), ("rbp", 36), ("rbx", 37), ("rcx", 38), ("rdi", 39),
      ("rdx", 40), ("rflags", 25), ("rip", 41), ("rsi", 43), ("rsp", 44)]
  else []

/-- The loop over the register map. -/
def loadRegisters (regs : List (String × Nat)) :
    List (String × Nat) → Emulator → Except EngineFailure Emulator
  | [], emulator => .ok emulator
  | (name, regid) :: rest, emulator =>
      match regs.lookup name with
      | none => .error (.noRegister name)
      | some value => loadRegisters regs rest (emulator.ucRegWrite regid (UInt64.ofNat value))

/-- The constructor: the settings of the engine and its state, or what ended
the program. -/
def aflUnicornEngine (uncompress : Uncompress) (directory : ContextDirectory) :
    Except EngineFailure (UcSettings × Emulator) :=
  let ucSet := getArchAndMode directory.index.arch
  if ucOpen ucSet then
    match loadRegisters directory.index.regs (getRegisterMap ucSet.mode) .opened with
    | .error failure => .error failure
    | .ok emulator =>
        let load := mapSegments uncompress directory.files emulator directory.index.segments
        match load.failure with
        | some failure => .error failure
        | none => .ok (ucSet, load.emulator)
  else .error .open

end SbFuzz.SandboxFuzzer
