import SbFuzz.Systems.Codec
import SbFuzz.Systems.Machine

/-! The handshake of the new fork server: `__afl_start_forkserver` of the target and
`afl_fsrv_start` of AFL, over two pipes. A write of a word is atomic, a longer one goes in
pieces, and a read takes what has arrived. -/

set_option autoImplicit false

namespace SbFuzz.Fuzzer.Handshake

open SbFuzz.Systems

/-! ## Words -/

/-- `0x41464c00 + FS_NEW_VERSION_MAX` -/
def version : UInt32 := 0x41464c00 + 1

def reply : UInt32 := version ^^^ 0xffffffff

def fsNewError : UInt32 := 0xeffe0000

def fsNewOptMapsize : UInt32 := 0x00000001

def fsNewOptShdmemFuzz : UInt32 := 0x00000002

def fsNewOptAutodict : UInt32 := 0x00000800

def defaultMapSize : UInt32 := 65536

/-! ## Configurations -/

/-- The part of `afl_forkserver_t` that the handshake changes. -/
structure Fsrv where
  /-- 0 for the default. -/
  mapSize : UInt32
  realMapSize : UInt32
  useShmemFuzz : Bool
  /-- What `add_extra_func` was called with. -/
  extras : List (List UInt8)

structure Config where
  /-- `__afl_map_size` -/
  mapSize : UInt32
  sharedmemFuzzing : Bool
  /-- The `__afl_dictionary_len` bytes of `__afl_dictionary`. -/
  dictionary : List UInt8
  dictionary_lt : dictionary.length < 2 ^ 32
  /-- AFL before the handshake. -/
  fsrv : Fsrv
  supportShmemFuzz : Bool
  /-- `!ignore_autodict && fsrv->add_extra_func` -/
  addsExtras : Bool

def Config.options (config : Config) : UInt32 :=
  fsNewOptMapsize ||| (if config.sharedmemFuzzing then fsNewOptShdmemFuzz else 0) |||
    (if config.dictionary = [] then 0 else fsNewOptAutodict)

def Config.dictionaryLen (config : Config) : UInt32 := .ofNat config.dictionary.length

/-! ## The two programs -/

/-- Where `__afl_start_forkserver` is. -/
inductive Target where
  | hello
  | reply
  | options
  | mapSize
  | dictLen
  | dict (offset : Nat)
  | welcome
  | connected
  | exited
deriving DecidableEq

/-- Where `afl_fsrv_start` is. -/
inductive Afl where
  | hello
  | options
  | mapSize (status : UInt32)
  | dictSize
  | dict (size : Nat) (received : List UInt8)
  | welcome
  | started
  /-- The old fork server model. -/
  | old
  /-- A word of which less than four bytes have arrived. -/
  | split
  /-- `FATAL` -/
  | fatal
deriving DecidableEq

structure State where
  target : Target
  afl : Afl
  keep : UInt32
  fsrv : Fsrv
  toAfl : List UInt8
  toTarget : List UInt8
  /-- What the target has written after the handshake. -/
  following : List UInt8

inductive Action where
  /-- The target goes on; a write of the dictionary takes so many bytes. -/
  | target (count : Nat)
  /-- AFL goes on; a read of the dictionary gets so many bytes. -/
  | afl (count : Nat)
  | follow (bytes : List UInt8)

section

variable (config : Config)

def State.send (state : State) (word : UInt32) (next : Target) : State :=
  { state with target := next, toAfl := state.toAfl ++ Codec.u32.write word }

/-- The loop condition of the dictionary. -/
def dictFrom (offset : Nat) : Target :=
  if offset < config.dictionary.length then .dict offset else .welcome

def State.targetStep (state : State) (count : Nat) : Option State :=
  match state.target with
  | .hello => some (state.send version .reply)
  | .reply =>
      (Codec.u32.read state.toTarget).map fun (status2, rest) =>
        { state with
          toTarget := rest
          target := if version ^^^ 0xffffffff = status2 then .options else .exited }
  | .options => some (state.send config.options .mapSize)
  | .mapSize =>
      some (state.send config.mapSize (if config.dictionary = [] then .welcome else .dictLen))
  | .dictLen => some (state.send config.dictionaryLen (dictFrom config 0))
  | .dict offset =>
      if 1 ≤ count ∧ offset + count ≤ config.dictionary.length then
        some { state with
          target := dictFrom config (offset + count)
          toAfl := state.toAfl ++ (config.dictionary.drop offset).take count }
      else none
  | .welcome => some (state.send version .connected)
  | .connected => none
  | .exited => none

/-- A read of a word; it waits for the first byte. -/
def State.readWord (state : State) (next : State → UInt32 → State) : Option State :=
  if state.toAfl = [] then none
  else
    match Codec.u32.read state.toAfl with
    | none => some { state with afl := .split, toAfl := [] }
    | some (word, rest) => some (next { state with toAfl := rest } word)

/-- `(((tmp_map_size + 63) >> 6) << 6)`, unless it is a multiple already. -/
def roundUp (mapSize : UInt32) : UInt32 :=
  if mapSize % 64 ≠ 0 then ((mapSize + 63) >>> 6) <<< 6 else mapSize

/-- What follows the map size. -/
def State.shared (state : State) (status : UInt32) : State :=
  if status &&& fsNewOptShdmemFuzz ≠ 0 ∧ config.supportShmemFuzz = false then
    { state with afl := .fatal }
  else
    { state with
      afl := if status &&& fsNewOptAutodict ≠ 0 then .dictSize else .welcome
      fsrv := { state.fsrv with
        useShmemFuzz := state.fsrv.useShmemFuzz || decide (status &&& fsNewOptShdmemFuzz ≠ 0) } }

/-- The entries of a dictionary, each behind its length; at most so many. -/
def entries : Nat → List UInt8 → List (List UInt8)
  | _, [] => []
  | 0, _ => []
  | fuel + 1, len :: dict =>
      if len.toNat < dict.length + 1 then
        dict.take len.toNat :: entries fuel (dict.drop len.toNat)
      else []

/-- The loop condition of the dictionary, and the loop over its entries. -/
def State.dictReceived (state : State) (size : Nat) (received : List UInt8) : State :=
  if received.length < size then { state with afl := .dict size received }
  else
    { state with
      afl := .welcome
      fsrv := { state.fsrv with
        extras := state.fsrv.extras ++
          if config.addsExtras then entries received.length received else [] } }

def State.aflHello (state : State) (status : UInt32) : State :=
  if status &&& fsNewError = fsNewError then { state with afl := .fatal }
  else if 0x41464c00 ≤ status ∧ status ≤ 0x41464cff then
    if status - 0x41464c00 = 1 then
      { state with
        afl := .options
        keep := status
        toTarget := state.toTarget ++ Codec.u32.write (status ^^^ 0xffffffff) }
    else { state with afl := .fatal }
  else { state with afl := .old }

def State.aflOptions (state : State) (status : UInt32) : State :=
  if status &&& fsNewOptMapsize ≠ 0 then { state with afl := .mapSize status }
  else
    { state with
      fsrv := { state.fsrv with
        realMapSize := defaultMapSize, mapSize := defaultMapSize } }.shared config status

/-- `if (!fsrv->map_size) { fsrv->map_size = MAP_SIZE; }` -/
def Fsrv.ownMapSize (fsrv : Fsrv) : UInt32 := if fsrv.mapSize = 0 then defaultMapSize else fsrv.mapSize

def State.aflMapSize (state : State) (status tmpMapSize : UInt32) : State :=
  if state.fsrv.ownMapSize < roundUp tmpMapSize then
    { state with
      afl := .fatal
      fsrv := { state.fsrv with mapSize := state.fsrv.ownMapSize, realMapSize := tmpMapSize } }
  else
    { state with
      fsrv := { state.fsrv with
        mapSize := roundUp tmpMapSize, realMapSize := tmpMapSize } }.shared config status

def State.aflStep (state : State) (count : Nat) : Option State :=
  match state.afl with
  | .hello => state.readWord fun state status => state.aflHello status
  | .options => state.readWord fun state status => state.aflOptions config status
  | .mapSize status => state.readWord fun state size => state.aflMapSize config status size
  | .dictSize =>
      state.readWord fun state dictSize =>
        if dictSize.toNat < 2 ∨ 0xffffff < dictSize.toNat then { state with afl := .fatal }
        else { state with afl := .dict dictSize.toNat [] }
  | .dict size received =>
      if 1 ≤ count ∧ count ≤ size - received.length ∧ count ≤ state.toAfl.length then
        some ({ state with toAfl := state.toAfl.drop count }.dictReceived config size
          (received ++ state.toAfl.take count))
      else none
  | .welcome =>
      state.readWord fun state status2 =>
        { state with afl := if status2 = state.keep then .started else .fatal }
  | .started => none
  | .old => none
  | .split => none
  | .fatal => none

def State.step (state : State) : Action → Option State
  | .target count => state.targetStep config count
  | .afl count => state.aflStep config count
  | .follow bytes =>
      if state.target = .connected then
        some { state with
          toAfl := state.toAfl ++ bytes
          following := state.following ++ bytes }
      else none

def State.init : State where
  target := .hello
  afl := .hello
  keep := 0
  fsrv := config.fsrv
  toAfl := []
  toTarget := []
  following := []

def handshake : Machine State Action where
  initial := .init config
  step := State.step config

end

end SbFuzz.Fuzzer.Handshake
