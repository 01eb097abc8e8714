import Mathlib.Algebra.Ring.Nat
import SbFuzz.Systems.Codec
import SbFuzz.Systems.Machine

/-! The network proxy (`afl-network-client` and `afl-network-server`): test cases
go to the server, statuses and coverage maps come back, over a byte stream whose
pieces `recv` returns as they arrive. -/

set_option autoImplicit false

namespace SbFuzz.Utils.NetworkProxy

open SbFuzz.Systems

/-! ## Builds and libraries -/

/-- `libdeflate`: nothing where the result does not fit, or the data is not
compressed data. -/
structure Deflate where
  compress : Nat → List UInt8 → Option (List UInt8)
  decompress : List UInt8 → Nat → Option (List UInt8)
  compress_fits : ∀ {available data compressed}, compress available data = some compressed →
    compressed ≠ [] ∧ compressed.length ≤ available
  decompress_compress : ∀ {available data compressed room},
    compress available data = some compressed → data.length ≤ room →
      decompress compressed room = some data

/-- How the two programs were built and configured. -/
structure Config where
  /-- With `USE_DEFLATE`. -/
  deflate : Option Deflate
  /-- With `COMPRESS_TESTCASES`. -/
  compressTestcases : Bool
  maxLen : Nat
  mapSize : Nat
  maxLen_lt : maxLen < 2 ^ 31
  mapSize_lt : mapSize < 2 ^ 31
  mapSize_ge : 8 ≤ mapSize

/-- `buf2_len` of the client. -/
def Config.clientBuf2Len (config : Config) : Nat := max config.maxLen config.mapSize

/-- The library where a test case of this length is sent compressed. -/
def Config.compressor (config : Config) (len : Nat) : Option Deflate :=
  if config.compressTestcases ∧ 1500 - 20 - 32 - 4 < len then config.deflate else none

/-! ## Messages -/

/-- A `u32` in memory. -/
def u32Bytes (n : Nat) : List UInt8 :=
  [UInt8.ofNat n, UInt8.ofNat (n / 2 ^ 8), UInt8.ofNat (n / 2 ^ 16), UInt8.ofNat (n / 2 ^ 24)]

def u32OfBytes (bytes : List UInt8) : Nat := bytes.foldr (fun byte n => byte.toNat + 2 ^ 8 * n) 0

def compressedFlag : Nat := 0xff000000

/-- The number that says how long compressed data is, 0 when it did not fit, and the data. -/
def compressedBytes (compressed : Option (List UInt8)) : List UInt8 :=
  u32Bytes (compressed.getD []).length ++ compressed.getD []

/-- What the client sends for a test case. -/
def Config.message (config : Config) (testcase : List UInt8) : List UInt8 :=
  match config.compressor testcase.length with
  | some deflate =>
      u32Bytes (testcase.length ||| compressedFlag) ++
        compressedBytes (deflate.compress config.clientBuf2Len testcase)
  | none => u32Bytes testcase.length ++ testcase

/-- `child_status` and `trace_bits` of one execution. -/
structure Result (mapSize : Nat) where
  status : Block 4
  map : Block mapSize

/-! ## The two programs -/

/-- Where the client's loop is. -/
inductive Client where
  | waiting
  | status
  | compressLen (status : List UInt8)
  | coverage (status : List UInt8) (len : Nat) (received : List UInt8)
  /-- A header of which less than four bytes have arrived. -/
  | split (received : Nat)
  /-- The loop was left. -/
  | ended
  /-- `FATAL`. -/
  | exited
  /-- Something was written outside its variable. -/
  | corrupted

/-- Where `recv_testcase` is, or the loop around it. -/
inductive Server where
  | size
  | plain (size : Nat) (received : List UInt8)
  | clen (size : Nat)
  | compressed (size clen : Nat) (received : List UInt8)
  | ready (testcase : List UInt8)
  | split (received : Nat)
  | exited
  | corrupted

/-- `buf2` of the server: what `buf2_len` says, what was allocated, and whether
`lenptr` still points into it. -/
structure Buf2 where
  len : Nat
  allocated : Nat
  stale : Bool

structure Proxy (config : Config) where
  client : Client
  server : Server
  buf2 : Buf2
  /-- Sent and not yet received. -/
  toServer : List UInt8
  toClient : List UInt8
  /-- What the client read from afl-fuzz and the server executed. -/
  given : List (List UInt8)
  executed : List (List UInt8)
  /-- What the server got from its target and the client handed to afl-fuzz. -/
  produced : List (Result config.mapSize)
  handed : List (List UInt8 × List UInt8)

inductive Action (config : Config) where
  | testcase (testcase : List UInt8)
  /-- `recv` returns so many bytes. -/
  | clientRecv (count : Nat)
  /-- `moves` is what a reallocation that has to grow does. -/
  | serverRecv (count : Nat) (moves : Bool)
  | run (result : Result config.mapSize)

/-- `recv` returns some of the bytes that have arrived, as many as there is room for. -/
def receive (channel : List UInt8) (room count : Nat) : Option (List UInt8 × List UInt8) :=
  if 0 < count ∧ count ≤ room ∧ count ≤ channel.length then
    some (channel.take count, channel.drop count)
  else none

section

variable {config : Config}

/-- `__afl_next_testcase` and `send`; an empty test case ends the loop. -/
def Proxy.testcase (state : Proxy config) (testcase : List UInt8) : Option (Proxy config) :=
  match state.client with
  | .waiting =>
      if config.maxLen < testcase.length then none
      else if testcase = [] then
        some { state with client := .ended, given := state.given ++ [testcase] }
      else
        some { state with
          client := .status
          toServer := state.toServer ++ config.message testcase
          given := state.given ++ [testcase] }
  | _ => none

/-- All of the coverage data is there. -/
def Proxy.coverageReceived (state : Proxy config) (status data : List UInt8) : Proxy config :=
  let map := match config.deflate with
    | none => some data
    | some deflate =>
        (deflate.decompress data config.mapSize).filter (·.length = config.mapSize)
  match map with
  | none => { state with client := .exited }
  | some map => { state with client := .waiting, handed := state.handed ++ [(status, map)] }

/-- The loop condition of the coverage data, and the check behind the loop. -/
def Proxy.coverage (state : Proxy config) (status : List UInt8) (len : Nat)
    (received : List UInt8) : Proxy config :=
  if received.length < len then { state with client := .coverage status len received }
  else if received.length = len then state.coverageReceived status received
  else { state with client := .exited }

/-- The room for coverage data: the whole of `buf2`, or the map. -/
def Config.coverageRoom (config : Config) : Nat :=
  if config.deflate.isSome then config.clientBuf2Len else config.mapSize

/-- A `recv` into a header has `received` bytes times four of offset: only the
first one stays inside it. -/
def Proxy.clientRecv (state : Proxy config) (count : Nat) : Option (Proxy config) :=
  match state.client with
  | .status =>
      (receive state.toClient 4 count).map fun (bytes, rest) =>
        let state := { state with toClient := rest }
        if bytes.length < 4 then { state with client := .split bytes.length }
        else if config.deflate.isSome then { state with client := .compressLen bytes }
        else state.coverage bytes config.mapSize []
  | .compressLen status =>
      (receive state.toClient 4 count).map fun (bytes, rest) =>
        let state := { state with toClient := rest }
        if bytes.length < 4 then { state with client := .split bytes.length }
        else state.coverage status (u32OfBytes bytes) []
  | .coverage status len received =>
      if config.coverageRoom - received.length = 0 then some { state with client := .exited }
      else
        (receive state.toClient (config.coverageRoom - received.length) count).map
          fun (bytes, rest) =>
            { state with toClient := rest }.coverage status len (received ++ bytes)
  | .split received =>
      (receive state.toClient (4 - received) count).map fun (_, rest) =>
        { state with toClient := rest, client := .corrupted }
  | _ => none

/-- The loop condition of an uncompressed test case. -/
def Proxy.plain (state : Proxy config) (size : Nat) (received : List UInt8) : Proxy config :=
  if received.length < size then { state with server := .plain size received }
  else { state with server := .ready received }

/-- The loop condition of a compressed test case, and the decompression. -/
def Proxy.compressed (state : Proxy config) (deflate : Deflate) (size clen : Nat)
    (received : List UInt8) : Proxy config :=
  if received.length < clen then { state with server := .compressed size clen received }
  else
    match (deflate.decompress received size).filter (·.length = size) with
    | none => { state with server := .exited }
    | some testcase => { state with server := .ready testcase }

/-- What `afl_realloc` makes room for: `INITIAL_GROWTH_SIZE` or the next power of
two, less the word in front of the buffer. -/
def aflReallocSize (sizeNeeded : Nat) : Nat :=
  if sizeNeeded + 8 < 64 then 64 - 8 else 2 ^ ((sizeNeeded + 8 - 1).log2 + 1) - 8

/-- `buf2 = afl_realloc((void **)&buf2, clen); buf2_len = clen;`. -/
def Buf2.realloc (buf2 : Buf2) (clen : Nat) (moves : Bool) : Buf2 :=
  if buf2.allocated < clen then ⟨clen, aflReallocSize clen, buf2.stale || moves⟩
  else { buf2 with len := clen }

def Proxy.serverRecv (state : Proxy config) (count : Nat) (moves : Bool) :
    Option (Proxy config) :=
  match state.server with
  | .size =>
      (receive state.toServer 4 count).map fun (bytes, rest) =>
        let state := { state with toServer := rest }
        if bytes.length < 4 then { state with server := .split bytes.length }
        else
          let size := u32OfBytes bytes
          if size = 0 then { state with server := .exited }
          else if size &&& compressedFlag ≠ compressedFlag then state.plain size []
          else if config.deflate.isSome then
            { state with server := .clen (size - compressedFlag) }
          else { state with server := .exited }
  | .plain size received =>
      (receive state.toServer (size - received.length) count).map fun (bytes, rest) =>
        { state with toServer := rest }.plain size (received ++ bytes)
  | .clen size =>
      (receive state.toServer 4 count).bind fun (bytes, rest) =>
        let state := { state with toServer := rest }
        if bytes.length < 4 then some { state with server := .split bytes.length }
        else
          let clen := u32OfBytes bytes
          if clen < 1 then some { state with server := .exited }
          else
            config.deflate.map fun deflate =>
              { state with buf2 := state.buf2.realloc clen moves }.compressed deflate size clen []
  | .compressed size clen received =>
      (receive state.toServer (clen - received.length) count).bind fun (bytes, rest) =>
        config.deflate.map fun deflate =>
          { state with toServer := rest }.compressed deflate size clen (received ++ bytes)
  | .split received =>
      (receive state.toServer (4 - received) count).map fun (_, rest) =>
        { state with toServer := rest, server := .corrupted }
  | _ => none

/-- `buf2_len - 8` as a `size_t`. -/
def Buf2.room (buf2 : Buf2) : Nat := if 8 ≤ buf2.len then buf2.len - 8 else 2 ^ 64 + buf2.len - 8

/-- The target has been run, and its status and map are sent. -/
def Proxy.ran (state : Proxy config) (testcase : List UInt8) (result : Result config.mapSize)
    (sent : List UInt8) : Proxy config :=
  { state with
    server := .size
    toClient := state.toClient ++ sent
    executed := state.executed ++ [testcase]
    produced := state.produced ++ [result] }

def Proxy.run (state : Proxy config) (result : Result config.mapSize) : Option (Proxy config) :=
  match state.server with
  | .ready testcase =>
      match config.deflate with
      | none => some (state.ran testcase result (result.status.val ++ result.map.val))
      | some deflate =>
          if state.buf2.stale = true ∨ state.buf2.allocated <
              ((deflate.compress state.buf2.room result.map.val).getD []).length + 8 then
            some { state.ran testcase result [] with server := .corrupted }
          else
            some (state.ran testcase result (result.status.val ++
              compressedBytes (deflate.compress state.buf2.room result.map.val)))
  | _ => none

def Proxy.step (state : Proxy config) : Action config → Option (Proxy config)
  | .testcase testcase => state.testcase testcase
  | .clientRecv count => state.clientRecv count
  | .serverRecv count moves => state.serverRecv count moves
  | .run result => state.run result

end

/-- Both programs in their loops, nothing sent. -/
def Proxy.init (config : Config) : Proxy config where
  client := .waiting
  server := .size
  buf2 := ⟨config.mapSize + 16, aflReallocSize (config.mapSize + 16), false⟩
  toServer := []
  toClient := []
  given := []
  executed := []
  produced := []
  handed := []

def proxy (config : Config) : Machine (Proxy config) (Action config) where
  initial := .init config
  step := Proxy.step

end SbFuzz.Utils.NetworkProxy
