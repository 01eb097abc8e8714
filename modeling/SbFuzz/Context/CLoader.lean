import SbFuzz.Context.Dumper
import SbFuzz.Context.Emulator
import SbFuzz.Numeric.Binary64

/-! The C loader of context directories (`UnicornLoader.h`). Its JSON library
keeps every number as a double. -/

set_option autoImplicit false

namespace SbFuzz.Context

/-- `(uint64_t)value` of a double; undefined for a double out of range. -/
def uint64OfDouble (value : Nat) : Option UInt64 :=
  if value < 2 ^ 64 then some (UInt64.ofNat value) else none

/-- The 64-bit integer that the loader makes of a number of the index file. -/
def uint64OfNumber (number : Nat) : Option UInt64 := uint64OfDouble (Numeric.toBinary64 number)

/-! ## Registers -/

inductive UcMode where
  | mode32
  | mode64
deriving DecidableEq, Repr

/-- `get_arch_and_mode`; the loader exits for any other string. -/
def getArchAndMode (archStr : String) : Option UcMode :=
  if archStr = "x64" then some .mode64
  else if archStr = "x86" then some .mode32
  else none

/-- The names that `get_reg_id` compares with in 32-bit mode, with the values
of their `UC_X86_REG_` constants. -/
def regIds32 : List (String × Nat) :=
  [("eax", 19), ("ebx", 21), ("ecx", 22), ("edx", 24), ("esi", 29), ("edi", 23), ("ebp", 20),
    ("esp", 30), ("eip", 26), ("eflags", 25)]

/-- The names that `get_reg_id` compares with in 64-bit mode. -/
def regIds64 : List (String × Nat) :=
  [("rax", 35), ("rbx", 37), ("rcx", 38), ("rdx", 40), ("rsi", 43), ("rdi", 39), ("rbp", 36),
    ("rsp", 44), ("r8", 106), ("r9", 107), ("r10", 108), ("r11", 109), ("r12", 110),
    ("r13", 111), ("r14", 112), ("r15", 113), ("rip", 41), ("eax", 19), ("ebx", 21), ("ecx", 22),
    ("edx", 24), ("esi", 29), ("edi", 23), ("ebp", 20), ("esp", 30), ("ax", 3), ("bx", 8),
    ("cx", 12), ("dx", 18), ("si", 45), ("di", 14), ("bp", 6), ("sp", 47), ("al", 2), ("ah", 1),
    ("bl", 5), ("bh", 4), ("cl", 10), ("ch", 9), ("dl", 16), ("dh", 13), ("sil", 46),
    ("dil", 15), ("bpl", 7), ("spl", 48), ("cs", 11), ("ds", 17), ("es", 28), ("fs", 32),
    ("gs", 33), ("ss", 49), ("eflags", 25), ("fsbase", 100), ("gsbase", 100)]

/-- `get_reg_id`, whose `-1` is `none`. -/
def getRegId (mode : UcMode) (regName : String) : Option Nat :=
  match mode with
  | .mode32 => regIds32.lookup regName
  | .mode64 => regIds64.lookup regName

def maxRegisters : Nat := 100

/-- A call of `uc_reg_write`: the register and the value, where these are defined. -/
structure RegWrite where
  regId : Option Nat
  value : Option UInt64
deriving DecidableEq, Repr

/-- `load_registers`: the calls of `uc_reg_write` from the `count`-th register
on. The loader exits when there are too many registers. -/
def loadRegistersFrom (mode : UcMode) : Nat → List (String × Nat) → List RegWrite
  | _, [] => []
  | count, (name, number) :: rest =>
      if count ≥ maxRegisters then []
      else ⟨getRegId mode name, uint64OfNumber number⟩ :: loadRegistersFrom mode (count + 1) rest

def loadRegisters (mode : UcMode) (regs : List (String × Nat)) : List RegWrite :=
  loadRegistersFrom mode 0 regs

/-! ## Segments -/

/-- The complaints of `map_segments` and `map_segment`. -/
inductive LoaderError where
  | failedToMap (name : String) (error : UcErr)
  | contentFileNotFound (name : String)
  | failedToWrite (error : UcErr)
  | undefinedAddress
deriving DecidableEq, Repr

/-- The engine and the error output; `returned` when the loop was left early. -/
structure Loading where
  emulator : Emulator
  errors : List LoaderError
  returned : Bool

def Loading.complain (loading : Loading) (error : LoaderError) : Loading :=
  { loading with errors := loading.errors ++ [error] }

def mapSegment (loading : Loading) (name : String) (address size : UInt64) (perms : UInt32) :
    Loading :=
  match loading.emulator.ucMemMap address size perms with
  | .ok emulator => { loading with emulator }
  | .error error => loading.complain (.failedToMap name error)

/-- The `uc_mem_write` at the end of both branches of `map_segments`. -/
def writeContent (loading : Loading) (address : UInt64) (bytes : List UInt8) : Loading :=
  match loading.emulator.ucMemWrite address bytes with
  | .ok emulator => { loading with emulator }
  | .error error => loading.complain (.failedToWrite error)

def Permissions.perms (permissions : Permissions) : UInt32 :=
  (if permissions.r then ucProtRead else 0) ||| (if permissions.w then ucProtWrite else 0) |||
    (if permissions.x then ucProtExec else 0)

/-- The body of the loop of `map_segments`. -/
def loadSegment (files : Files) (loading : Loading) (segment : SegInfo) : Loading :=
  if loading.returned then loading
  else
    match uint64OfNumber segment.start, uint64OfNumber segment.stop with
    | some segStart, some segEnd =>
        let mapped :=
          mapSegment loading segment.name segStart (segEnd - segStart) segment.permissions.perms
        if segment.contentFile.length > 0 then
          match files segment.contentFile with
          | none => { mapped.complain (.contentFileNotFound segment.contentFile) with
              returned := true }
          | some content => writeContent mapped segStart content
        else writeContent mapped segStart (List.replicate (segEnd - segStart).toNat 0)
    | _, _ => { loading.complain .undefinedAddress with returned := true }

def mapSegments (files : Files) (emulator : Emulator) (segments : List SegInfo) : Loading :=
  segments.foldl (loadSegment files) { emulator, errors := [], returned := false }

/-! The round trip of register values through the dumper and the C loader. -/

open Numeric (Exact toBinary64 toBinary64_eq_self_iff)

/-! ## Numbers -/

end SbFuzz.Context
