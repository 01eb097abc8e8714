import SbFuzz.Context.Emulator

/-! The sample `harness.c`: reads of the target's memory that are answered with
fuzzer input. -/

set_option autoImplicit false

namespace SbFuzz.Samples

open Context

/-! ## Accesses -/

inductive UcMemType where
  | read
  | write
  | fetch
deriving DecidableEq, Repr

/-- The sizes of an access of the emulated processor. -/
inductive AccessSize where
  | byte
  | word
  | doubleword
  | quadword
deriving DecidableEq, Repr

def AccessSize.bytes : AccessSize → Nat
  | .byte => 1
  | .word => 2
  | .doubleword => 4
  | .quadword => 8

theorem AccessSize.bytes_le (size : AccessSize) : size.bytes ≤ 8 := by
  cases size <;> decide

/-- The first bytes of a little-endian variable. -/
def littleEndian (value : UInt64) (size : Nat) : List UInt8 :=
  (List.range size).map fun i => (value >>> UInt64.ofNat (8 * i)).toUInt8

/-- A `uc_mem_write` whose result is ignored. -/
def ucMemWriteIgnored (uc : Emulator) (address : UInt64) (bytes : List UInt8) : Emulator :=
  match uc.ucMemWrite address bytes with
  | .ok written => written
  | .error _ => uc

end SbFuzz.Samples

namespace SbFuzz.Samples.Harness

open Context

def inputAddr : UInt64 := 0x5000

def targetRangeStart : UInt64 := 0x2db900000000

def targetRangeEnd : UInt64 := targetRangeStart + 0x100000000

/-- A memory access of the target; `uc` is the engine as the target left it. -/
structure Access where
  uc : Emulator
  type : UcMemType
  address : UInt64
  size : AccessSize
  value : UInt64

/-- `undefined` is a run that has written behind `rewrite_addrs`. -/
inductive Status where
  | running
  | exited
  | undefined
deriving DecidableEq, Repr

/-- The globals. `rewriteAddrs` is the used part of `rewrite_addrs`; `overwritten`,
the bytes that were replaced by input, and `status` are history. -/
structure Globals where
  currentInputLen : UInt64
  currentInputIndex : UInt64
  isInvalid : Bool
  rewriteAddrs : List UInt64
  overwritten : List UInt64
  status : Status

/-! ## The hook -/

/-- The two windows of `hook_mem_access`. -/
def inWindows (address : UInt64) : Bool :=
  (targetRangeStart + 0x40000 ≤ address && address < targetRangeStart + 0x149000) ||
    (targetRangeStart + 0x280000 ≤ address && address < targetRangeStart + 0x2c0000)

/-- The `case`s of the hook. -/
def specialValue (address : UInt64) : Option UInt64 :=
  [(0x2db90028221a, 0xc2), (0x2db90028228c, 0x0811), (0x2db900282218, 0x0811),
    (0x2db90029dbea, 0x0003), (0x374a0029dbf0, 0x00)].lookup address

def Access.byteAddresses (access : Access) : List UInt64 :=
  (List.range access.size.bytes).map fun offset => access.address + UInt64.ofNat offset

/-- The `default` branch of the hook. -/
def redirectRead (globals : Globals) (access : Access) : Emulator × Globals :=
  let size := access.size.bytes
  let value :=
    match access.uc.ucMemRead (inputAddr + globals.currentInputIndex) size with
    | .ok bytes => bytes
    | .error _ => littleEndian access.value size
  (ucMemWriteIgnored access.uc access.address value,
    { globals with
      currentInputIndex := globals.currentInputIndex + UInt64.ofNat size
      rewriteAddrs := globals.rewriteAddrs ++ [access.address]
      overwritten := globals.overwritten ++
        if access.uc.checkMemArea access.address size then access.byteAddresses else []
      status := if globals.rewriteAddrs.length < 0x100 then globals.status else .undefined })

def hookMemAccess (globals : Globals) (access : Access) : Emulator × Globals :=
  let size := access.size.bytes
  if globals.currentInputIndex + UInt64.ofNat size ≥ globals.currentInputLen then
    (ucMemWriteIgnored access.uc access.address (littleEndian 0xffffff00 size),
      { globals with isInvalid := true, status := .exited })
  else if inWindows access.address then
    match access.type with
    | .read =>
        if size = 4 then (access.uc, globals)
        else if access.address ∈ globals.rewriteAddrs then (access.uc, globals)
        else
          match specialValue access.address with
          | some value =>
              (ucMemWriteIgnored access.uc access.address (littleEndian value size), globals)
          | none => redirectRead globals access
    | _ => (access.uc, globals)
  else (access.uc, globals)

/-- The accesses that `uc_hook_add` registers the hook for. -/
def Access.hooked (access : Access) : Bool :=
  access.type = .read && targetRangeStart ≤ access.address && access.address ≤ targetRangeEnd

def Globals.access (globals : Globals) (access : Access) : Globals :=
  if globals.status = .running ∧ access.hooked then (hookMemAccess globals access).2 else globals

def Globals.run (globals : Globals) (accesses : List Access) : Globals :=
  accesses.foldl Globals.access globals

/-- `place_input_callback`; a rejected input gives nothing. -/
def placeInputCallback (uc : Emulator) (input : List UInt8) : Option (Emulator × Globals) :=
  if input.length < 2 then none
  else some (ucMemWriteIgnored uc inputAddr (input.set (input.length - 1) 0),
    { currentInputLen := UInt64.ofNat input.length
      currentInputIndex := 0
      isInvalid := false
      rewriteAddrs := []
      overwritten := []
      status := .running })

end SbFuzz.Samples.Harness
