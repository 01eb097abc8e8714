import SbFuzz.Utils.NetworkProxy

/-! Runs of the network proxy in which the two programs agree on test cases,
statuses and coverage maps. -/

set_option autoImplicit false

namespace SbFuzz.Utils.NetworkProxy

open SbFuzz.Systems

/-! ## Numbers and pieces -/

@[simp] theorem length_u32Bytes (n : Nat) : (u32Bytes n).length = 4 := rfl

theorem u32OfBytes_u32Bytes {n : Nat} (fits : n < 2 ^ 32) : u32OfBytes (u32Bytes n) = n := by
  simp only [u32OfBytes, u32Bytes, List.foldr_cons, List.foldr_nil, UInt8.toNat_ofNat']
  omega

theorem lor_compressedFlag {len : Nat} (small : len < 2 ^ 24) :
    len ||| compressedFlag = len + compressedFlag := by
  have shifted := Nat.shiftLeft_add_eq_or_of_lt small 0xff
  rw [Nat.or_comm, Nat.add_comm]
  exact shifted.symm

theorem lor_land_compressedFlag (len : Nat) :
    (len ||| compressedFlag) &&& compressedFlag = compressedFlag := by
  refine Nat.eq_of_testBit_eq fun i => ?_
  rw [Nat.testBit_and, Nat.testBit_or]
  cases Nat.testBit compressedFlag i <;> simp

theorem land_compressedFlag_ne {len : Nat} (small : len < 2 ^ 31) :
    len &&& compressedFlag ≠ compressedFlag := by
  intro flagged
  have large := Nat.and_le_left (n := len) (m := compressedFlag)
  rw [flagged, compressedFlag] at large
  omega

theorem receive_spec {channel bytes rest : List UInt8} {room count : Nat}
    (received : receive channel room count = some (bytes, rest)) :
    bytes ++ rest = channel ∧ bytes.length = count ∧ 0 < count ∧ count ≤ room := by
  unfold receive at received
  split at received
  · next possible =>
    cases received
    refine ⟨List.take_append_drop _ _, ?_, possible.1, possible.2.1⟩
    rw [List.length_take]
    exact Nat.min_eq_left possible.2.2
  · cases received

theorem receive_nil (room count : Nat) : receive [] room count = none := by
  unfold receive
  refine if_neg ?_
  rintro ⟨positive, -, short⟩
  exact absurd positive (Nat.not_lt.mpr short)

/-- A header that arrives as a whole. -/
theorem receive_header {header behind bytes rest : List UInt8} {room count : Nat}
    (four : header.length = 4) (whole : count = 4)
    (received : receive (header ++ behind) room count = some (bytes, rest)) :
    header = bytes ∧ behind = rest := by
  obtain ⟨split, length, -⟩ := receive_spec received
  exact List.append_inj split.symm (four.trans (whole.symm.trans length.symm))

/-! ## What a run has to meet -/

section

variable {config : Config}

/-- Headers arrive as a whole, test cases are not empty, and compressed data fits
and leaves the server's buffer where it is. -/
def Proxy.Admits (state : Proxy config) : Action config → Prop
  | .testcase testcase =>
      testcase ≠ [] ∧ ∀ deflate, config.compressor testcase.length = some deflate →
        testcase.length < 2 ^ 24 ∧
          (deflate.compress config.clientBuf2Len testcase).isSome = true
  | .clientRecv count =>
      match state.client with
      | .status | .compressLen _ => count = 4
      | _ => True
  | .serverRecv count moves =>
      match state.server with
      | .size => count = 4
      | .clen _ =>
          count = 4 ∧ (state.buf2.allocated < u32OfBytes (state.toServer.take 4) → moves = false)
      | _ => True
  | .run result =>
      ∀ deflate, config.deflate = some deflate →
        ∃ compressed, deflate.compress state.buf2.room result.map.val = some compressed ∧
          compressed.length ≤ config.clientBuf2Len ∧
            compressed.length + 8 ≤ state.buf2.allocated

/-- A test case that the client may send. -/
structure Sendable (config : Config) (testcase : List UInt8) : Prop where
  nonempty : testcase ≠ []
  short : testcase.length ≤ config.maxLen
  compressible : ∀ deflate, config.compressor testcase.length = some deflate →
    testcase.length < 2 ^ 24 ∧ (deflate.compress config.clientBuf2Len testcase).isSome = true

/-- The data of a test case that is sent compressed. -/
structure Compressed (config : Config) (testcase : List UInt8) (deflate : Deflate)
    (data : List UInt8) : Prop where
  build : config.deflate = some deflate
  isData : deflate.compress config.clientBuf2Len testcase = some data

/-- A test case on its way: the server, and what is sent. -/
inductive Serving (config : Config) (testcase : List UInt8) : Server → List UInt8 → Prop where
  | size : Serving config testcase .size (config.message testcase)
  | plain {received rest : List UInt8} (whole : received ++ rest = testcase)
      (more : received.length < testcase.length) :
      Serving config testcase (.plain testcase.length received) rest
  | clen {deflate : Deflate} {data : List UInt8} (compressed : Compressed config testcase deflate data) :
      Serving config testcase (.clen testcase.length) (u32Bytes data.length ++ data)
  | compressed {deflate : Deflate} {data received rest : List UInt8}
      (compressed : Compressed config testcase deflate data) (whole : received ++ rest = data)
      (more : received.length < data.length) :
      Serving config testcase (.compressed testcase.length data.length received) rest
  | ready : Serving config testcase (.ready testcase) []

/-- The coverage data as it is sent. -/
inductive Payload (config : Config) (map : List UInt8) : List UInt8 → Prop where
  | plain (build : config.deflate = none) : Payload config map map
  | compressed {deflate : Deflate} {room : Nat} {data : List UInt8}
      (build : config.deflate = some deflate) (isData : deflate.compress room map = some data)
      (fits : data.length ≤ config.clientBuf2Len) : Payload config map data

/-- A result on its way: the client, and what is sent. -/
inductive Answering (config : Config) (result : Result config.mapSize) :
    Client → List UInt8 → Prop where
  | plain (build : config.deflate = none) :
      Answering config result .status (result.status.val ++ result.map.val)
  | status {data : List UInt8} (payload : Payload config result.map.val data)
      (build : config.deflate.isSome = true) :
      Answering config result .status (result.status.val ++ (u32Bytes data.length ++ data))
  | compressLen {data : List UInt8} (payload : Payload config result.map.val data)
      (build : config.deflate.isSome = true) :
      Answering config result (.compressLen result.status.val) (u32Bytes data.length ++ data)
  | coverage {data received rest : List UInt8} (payload : Payload config result.map.val data)
      (whole : received ++ rest = data) (more : received.length < data.length) :
      Answering config result (.coverage result.status.val data.length received) rest

def Result.bytes {mapSize : Nat} (result : Result mapSize) : List UInt8 × List UInt8 :=
  (result.status.val, result.map.val)

/-- Every test case has been answered. -/
structure Proxy.Idle (state : Proxy config) : Prop where
  client : state.client = .waiting
  server : state.server = .size
  toServer : state.toServer = []
  toClient : state.toClient = []
  executed : state.executed = state.given
  handed : state.handed = state.produced.map Result.bytes

/-- The last test case has not been run. -/
structure Proxy.Serves (state : Proxy config) (testcase : List UInt8) : Prop where
  sendable : Sendable config testcase
  client : state.client = .status
  toClient : state.toClient = []
  serving : Serving config testcase state.server state.toServer
  given : state.given = state.executed ++ [testcase]
  handed : state.handed = state.produced.map Result.bytes

/-- The last test case has been run, and its result was not handed on. -/
structure Proxy.Answers (state : Proxy config) (result : Result config.mapSize) : Prop where
  server : state.server = .size
  toServer : state.toServer = []
  answering : Answering config result state.client state.toClient
  executed : state.executed = state.given
  produced : state.produced.map Result.bytes = state.handed ++ [result.bytes]

inductive Proxy.Phase (state : Proxy config) : Prop where
  | idle (idle : state.Idle)
  | serving (testcase : List UInt8) (serves : state.Serves testcase)
  | answering (result : Result config.mapSize) (answers : state.Answers result)

structure Proxy.Valid (state : Proxy config) : Prop where
  phase : state.Phase
  counts : state.produced.length = state.executed.length
  fresh : state.buf2.stale = false

/-! ## The server receives -/

/-- A part of the state of the server, put in place of the old one. -/
def Proxy.withServer (state : Proxy config) (server : Server) (buf2 : Buf2)
    (toServer : List UInt8) : Proxy config :=
  { state with server, buf2, toServer }

/-- The server has come further with a test case. -/
def Proxy.Served (state : Proxy config) (testcase : List UInt8) (next : Proxy config) : Prop :=
  ∃ server buf2 toServer, next = state.withServer server buf2 toServer ∧
    Serving config testcase server toServer ∧ buf2.stale = false

theorem plain_served {state : Proxy config} {testcase received rest : List UInt8}
    (whole : received ++ rest = testcase) (fresh : state.buf2.stale = false) :
    state.Served testcase ({ state with toServer := rest }.plain testcase.length received) := by
  unfold Proxy.plain
  split
  · next more => exact ⟨_, state.buf2, rest, rfl, .plain whole more, fresh⟩
  · next complete =>
    have length := congrArg List.length whole
    rw [List.length_append] at length
    obtain rfl : rest = [] := List.length_eq_zero_iff.mp (by omega)
    rw [List.append_nil] at whole
    exact ⟨_, state.buf2, [], rfl, whole ▸ .ready, fresh⟩

theorem compressed_served {state : Proxy config} {testcase data received rest : List UInt8}
    {deflate : Deflate} (compressed : Compressed config testcase deflate data) {buf2 : Buf2}
    (whole : received ++ rest = data) (fresh : buf2.stale = false) :
    state.Served testcase ({ state with buf2, toServer := rest }.compressed deflate testcase.length
      data.length received) := by
  unfold Proxy.compressed
  split
  · next more => exact ⟨_, buf2, rest, rfl, .compressed compressed whole more, fresh⟩
  · next complete =>
    have length := congrArg List.length whole
    rw [List.length_append] at length
    obtain rfl : rest = [] := List.length_eq_zero_iff.mp (by omega)
    rw [List.append_nil] at whole
    rw [whole, deflate.decompress_compress compressed.isData (Nat.le_refl _),
      Option.filter_some, if_pos (decide_eq_true rfl)]
    exact ⟨_, buf2, [], rfl, .ready, fresh⟩

theorem Config.clientBuf2Len_lt (config : Config) : config.clientBuf2Len < 2 ^ 32 := by
  have first := config.maxLen_lt
  have second := config.mapSize_lt
  unfold clientBuf2Len
  omega

theorem Config.coverageRoom_lt (config : Config) : config.coverageRoom < 2 ^ 32 := by
  have first := config.clientBuf2Len_lt
  have second := config.mapSize_lt
  unfold coverageRoom
  split <;> omega

theorem Config.compressor_build {config : Config} {len : Nat} {deflate : Deflate}
    (used : config.compressor len = some deflate) : config.deflate = some deflate := by
  unfold compressor at used
  split at used
  · exact used
  · cases used

/-- The message of a test case is its length and its bytes, or the flagged length
and the compressed data with their own length. -/
theorem Sendable.message {testcase : List UInt8} (sendable : Sendable config testcase) :
    (config.message testcase = u32Bytes testcase.length ++ testcase) ∨
      ∃ deflate data, Compressed config testcase deflate data ∧ testcase.length < 2 ^ 24 ∧
        config.message testcase = u32Bytes (testcase.length ||| compressedFlag) ++
          (u32Bytes data.length ++ data) := by
  unfold Config.message
  split
  · next deflate used =>
    obtain ⟨small, fits⟩ := sendable.compressible deflate used
    obtain ⟨data, isData⟩ := Option.isSome_iff_exists.mp fits
    refine .inr ⟨deflate, data, ⟨Config.compressor_build used, isData⟩, small, ?_⟩
    rw [compressedBytes, isData, Option.getD_some]
  · exact .inl rfl

theorem serverSize_served {state next : Proxy config} {testcase : List UInt8} {count : Nat}
    {moves : Bool} (sendable : Sendable config testcase) (server : state.server = .size)
    (toServer : state.toServer = config.message testcase) (fresh : state.buf2.stale = false)
    (whole : count = 4) (stepped : state.serverRecv count moves = some next) :
    state.Served testcase next := by
  unfold Proxy.serverRecv at stepped
  rw [server] at stepped
  obtain ⟨⟨bytes, rest⟩, received, rfl⟩ := Option.map_eq_some_iff.mp stepped
  have positive : testcase.length ≠ 0 := fun zero =>
    sendable.nonempty (List.length_eq_zero_iff.mp zero)
  have bound := config.maxLen_lt
  have short := sendable.short
  rw [toServer] at received
  dsimp only
  rcases sendable.message with plain | ⟨deflate, data, compressed, small, flagged⟩
  · rw [plain] at received
    obtain ⟨rfl, rfl⟩ := receive_header (length_u32Bytes _) whole received
    rw [length_u32Bytes, if_neg (Nat.lt_irrefl 4), u32OfBytes_u32Bytes (by omega),
      if_neg positive, if_pos (land_compressedFlag_ne (by omega))]
    exact plain_served (List.nil_append _) fresh
  · rw [flagged] at received
    obtain ⟨rfl, rfl⟩ := receive_header (length_u32Bytes _) whole received
    have value := lor_compressedFlag small
    have fits : testcase.length ||| compressedFlag < 2 ^ 32 := by
      rw [value, compressedFlag]
      omega
    have nonzero : testcase.length ||| compressedFlag ≠ 0 := by
      rw [value]
      omega
    rw [length_u32Bytes, if_neg (Nat.lt_irrefl 4), u32OfBytes_u32Bytes fits, if_neg nonzero,
      if_neg (not_not.mpr (lor_land_compressedFlag _)), compressed.build, if_pos Option.isSome_some,
      value, Nat.add_sub_cancel]
    exact ⟨_, state.buf2, _, rfl, .clen compressed, fresh⟩

theorem serverClen_served {state next : Proxy config} {testcase data : List UInt8}
    {deflate : Deflate} (compressed : Compressed config testcase deflate data) {count : Nat}
    {moves : Bool} (server : state.server = .clen testcase.length)
    (toServer : state.toServer = u32Bytes data.length ++ data) (fresh : state.buf2.stale = false)
    (whole : count = 4)
    (stays : state.buf2.allocated < u32OfBytes (state.toServer.take 4) → moves = false)
    (stepped : state.serverRecv count moves = some next) : state.Served testcase next := by
  unfold Proxy.serverRecv at stepped
  rw [server] at stepped
  obtain ⟨⟨bytes, rest⟩, received, stepped⟩ := Option.bind_eq_some_iff.mp stepped
  have fits := deflate.compress_fits compressed.isData
  have bound := config.clientBuf2Len_lt
  have length : u32OfBytes (u32Bytes data.length) = data.length :=
    u32OfBytes_u32Bytes (Nat.lt_of_le_of_lt fits.2 bound)
  rw [toServer] at received stays
  obtain ⟨rfl, rfl⟩ := receive_header (length_u32Bytes _) whole received
  have positive : ¬ data.length < 1 := fun none =>
    fits.1 (List.length_eq_zero_iff.mp (Nat.lt_one_iff.mp none))
  rw [List.take_left' (length_u32Bytes _), length] at stays
  dsimp only at stepped
  rw [length_u32Bytes, if_neg (Nat.lt_irrefl 4), length, if_neg positive, compressed.build,
    Option.map_some] at stepped
  cases stepped
  refine compressed_served compressed (List.nil_append _) ?_
  unfold Buf2.realloc
  split
  · next grows =>
    rw [stays grows, fresh]
    rfl
  · exact fresh

/-- Whatever pieces the payload arrives in, the server collects the test case. -/
theorem serverRecv_served {state next : Proxy config} {testcase : List UInt8} {count : Nat}
    {moves : Bool} (sendable : Sendable config testcase)
    (serving : Serving config testcase state.server state.toServer)
    (fresh : state.buf2.stale = false) (admits : state.Admits (.serverRecv count moves))
    (stepped : state.serverRecv count moves = some next) : state.Served testcase next := by
  generalize server : state.server = position at serving
  generalize toServer : state.toServer = sent at serving
  unfold Proxy.Admits at admits
  rw [server] at admits
  cases serving with
  | size => exact serverSize_served sendable server toServer fresh admits stepped
  | clen compressed =>
      exact serverClen_served compressed server toServer fresh admits.1 admits.2 stepped
  | plain whole more =>
      unfold Proxy.serverRecv at stepped
      rw [server] at stepped
      obtain ⟨⟨bytes, rest⟩, received, rfl⟩ := Option.map_eq_some_iff.mp stepped
      obtain ⟨split, -⟩ := receive_spec received
      refine plain_served ?_ fresh
      rw [List.append_assoc, split, toServer, whole]
  | compressed compressed whole more =>
      unfold Proxy.serverRecv at stepped
      rw [server] at stepped
      obtain ⟨⟨bytes, rest⟩, received, stepped⟩ := Option.bind_eq_some_iff.mp stepped
      dsimp only at stepped
      rw [compressed.build, Option.map_some] at stepped
      cases stepped
      obtain ⟨split, -⟩ := receive_spec received
      refine compressed_served compressed ?_ fresh
      rw [List.append_assoc, split, toServer, whole]
  | ready =>
      unfold Proxy.serverRecv at stepped
      rw [server] at stepped
      cases stepped

/-! ## The client receives -/

/-- A part of the state of the client, put in place of the old one. -/
def Proxy.withClient (state : Proxy config) (client : Client) (toClient : List UInt8)
    (handed : List (List UInt8 × List UInt8)) : Proxy config :=
  { state with client, toClient, handed }

/-- The client has come further with a result, or has handed it on. -/
inductive Proxy.Answered (state : Proxy config) (result : Result config.mapSize) :
    Proxy config → Prop where
  | further {client : Client} {toClient : List UInt8}
      (answering : Answering config result client toClient) :
      Answered state result (state.withClient client toClient state.handed)
  | done : Answered state result (state.withClient .waiting [] (state.handed ++ [result.bytes]))

namespace Payload

variable {map data : List UInt8}

theorem room (payload : Payload config map data) (full : map.length = config.mapSize) :
    data.length ≤ config.coverageRoom := by
  unfold Config.coverageRoom
  cases payload with
  | plain build =>
      rw [build]
      exact Nat.le_of_eq full
  | compressed build isData fits =>
      rw [build]
      exact fits

/-- What the client makes of the data is the map. -/
theorem received (payload : Payload config map data) (full : map.length = config.mapSize)
    (state : Proxy config) (status : List UInt8) :
    state.coverageReceived status data =
      state.withClient .waiting state.toClient (state.handed ++ [(status, map)]) := by
  unfold Proxy.coverageReceived
  cases payload with
  | plain build =>
      rw [build]
      rfl
  | @compressed deflate room _ build isData fits =>
      have length : (map.length = config.mapSize : Bool) = true := decide_eq_true full
      rw [build]
      dsimp only
      rw [deflate.decompress_compress isData (Nat.le_of_eq full), Option.filter_some, if_pos length]
      rfl

end Payload

theorem coverage_answered {state : Proxy config} {result : Result config.mapSize}
    {data received rest : List UInt8} (payload : Payload config result.map.val data)
    (whole : received ++ rest = data) :
    state.Answered result
      ({ state with toClient := rest }.coverage result.status.val data.length received) := by
  have length := congrArg List.length whole
  rw [List.length_append] at length
  unfold Proxy.coverage
  split
  · next more => exact .further (.coverage payload whole more)
  · next complete =>
    obtain rfl : rest = [] := List.length_eq_zero_iff.mp (by omega)
    rw [List.append_nil] at whole
    rw [whole, if_pos rfl, payload.received result.map.property]
    exact .done

theorem clientRecv_answered {state next : Proxy config} {result : Result config.mapSize}
    {count : Nat} (answering : Answering config result state.client state.toClient)
    (admits : state.Admits (.clientRecv count)) (stepped : state.clientRecv count = some next) :
    state.Answered result next := by
  generalize client : state.client = position at answering
  generalize toClient : state.toClient = sent at answering
  unfold Proxy.Admits at admits
  unfold Proxy.clientRecv at stepped
  rw [client] at admits stepped
  have four : result.status.val.length = 4 := result.status.property
  cases answering with
  | plain build =>
      obtain ⟨⟨bytes, rest⟩, received, rfl⟩ := Option.map_eq_some_iff.mp stepped
      rw [toClient] at received
      obtain ⟨rfl, rfl⟩ := receive_header four admits received
      dsimp only
      rw [four, if_neg (Nat.lt_irrefl 4), build, Option.isSome_none, if_neg Bool.false_ne_true]
      have length : result.map.val.length = config.mapSize := result.map.property
      have collected := @coverage_answered config state result _ _ _ (.plain build)
        (List.nil_append result.map.val)
      rw [length] at collected
      exact collected
  | @status data payload build =>
      obtain ⟨⟨bytes, rest⟩, received, rfl⟩ := Option.map_eq_some_iff.mp stepped
      rw [toClient] at received
      obtain ⟨rfl, rfl⟩ := receive_header four admits received
      dsimp only
      rw [four, if_neg (Nat.lt_irrefl 4), if_pos build]
      exact .further (.compressLen payload build)
  | @compressLen data payload build =>
      obtain ⟨⟨bytes, rest⟩, received, rfl⟩ := Option.map_eq_some_iff.mp stepped
      rw [toClient] at received
      obtain ⟨rfl, rfl⟩ := receive_header (length_u32Bytes _) admits received
      have fits := payload.room result.map.property
      have bound := config.coverageRoom_lt
      dsimp only
      rw [length_u32Bytes, if_neg (Nat.lt_irrefl 4), u32OfBytes_u32Bytes (by omega)]
      exact coverage_answered payload (List.nil_append _)
  | @coverage data received rest payload whole more =>
      have fits := payload.room result.map.property
      have room : ¬ config.coverageRoom - received.length = 0 := by omega
      dsimp only at stepped
      rw [if_neg room] at stepped
      obtain ⟨⟨bytes, behind⟩, taken, rfl⟩ := Option.map_eq_some_iff.mp stepped
      obtain ⟨split, -⟩ := receive_spec taken
      refine coverage_answered payload ?_
      rw [List.append_assoc, split, toClient, whole]

/-! ## Steps -/

theorem Answering.not_waiting {result : Result config.mapSize} {sent : List UInt8} :
    ¬ Answering config result .waiting sent := by
  intro answering
  cases answering

theorem testcase_valid {state next : Proxy config} {testcase : List UInt8} (valid : state.Valid)
    (admits : state.Admits (.testcase testcase))
    (stepped : state.testcase testcase = some next) : next.Valid := by
  unfold Proxy.testcase at stepped
  split at stepped
  · next client =>
    have idle : state.Idle := by
      cases valid.phase with
      | idle idle => exact idle
      | serving other serves => cases client.symm.trans serves.client
      | answering result answers => exact absurd (client ▸ answers.answering) Answering.not_waiting
    split at stepped
    · cases stepped
    · next short =>
      rw [if_neg admits.1] at stepped
      cases stepped
      have sendable : Sendable config testcase :=
        ⟨admits.1, Nat.le_of_not_lt short, admits.2⟩
      refine ⟨.serving testcase ⟨sendable, rfl, idle.toClient, ?_, ?_, idle.handed⟩,
        valid.counts, valid.fresh⟩
      · dsimp only
        rw [idle.server, idle.toServer, List.nil_append]
        exact .size
      · exact congrArg (· ++ [testcase]) idle.executed.symm
  · cases stepped

theorem clientRecv_starved {state : Proxy config} (count : Nat) (client : state.client = .status)
    (toClient : state.toClient = []) : state.clientRecv count = none := by
  unfold Proxy.clientRecv
  rw [client, toClient]
  dsimp only
  rw [receive_nil]
  rfl

/-- The client receives only what answers its test case. -/
theorem Proxy.Valid.answers {state next : Proxy config} {count : Nat} (valid : state.Valid)
    (stepped : state.clientRecv count = some next) : ∃ result, state.Answers result := by
  cases valid.phase with
  | answering result answers => exact ⟨result, answers⟩
  | idle idle =>
      unfold Proxy.clientRecv at stepped
      rw [idle.client] at stepped
      cases stepped
  | serving testcase serves =>
      rw [clientRecv_starved count serves.client serves.toClient] at stepped
      cases stepped

theorem clientRecv_valid {state next : Proxy config} {count : Nat} (valid : state.Valid)
    (admits : state.Admits (.clientRecv count)) (stepped : state.clientRecv count = some next) :
    next.Valid := by
  obtain ⟨result, answers⟩ := valid.answers stepped
  cases clientRecv_answered answers.answering admits stepped with
  | further answering =>
      exact ⟨.answering result ⟨answers.server, answers.toServer, answering, answers.executed,
        answers.produced⟩, valid.counts, valid.fresh⟩
  | done =>
      exact ⟨.idle ⟨rfl, answers.server, answers.toServer, rfl, answers.executed,
        answers.produced.symm⟩, valid.counts, valid.fresh⟩

/-- The server receives only test cases. -/
theorem Proxy.Valid.serves {state next : Proxy config} {count : Nat} {moves : Bool}
    (valid : state.Valid) (stepped : state.serverRecv count moves = some next) :
    ∃ testcase, state.Serves testcase := by
  have nothing : state.server = .size → state.toServer ≠ [] := by
    intro server toServer
    unfold Proxy.serverRecv at stepped
    rw [server, toServer] at stepped
    dsimp only at stepped
    rw [receive_nil] at stepped
    cases stepped
  cases valid.phase with
  | serving testcase serves => exact ⟨testcase, serves⟩
  | idle idle => exact absurd idle.toServer (nothing idle.server)
  | answering result answers => exact absurd answers.toServer (nothing answers.server)

theorem serverRecv_valid {state next : Proxy config} {count : Nat} {moves : Bool}
    (valid : state.Valid) (admits : state.Admits (.serverRecv count moves))
    (stepped : state.serverRecv count moves = some next) : next.Valid := by
  obtain ⟨testcase, serves⟩ := valid.serves stepped
  obtain ⟨server, buf2, toServer, rfl, serving, fresh⟩ :=
    serverRecv_served serves.sendable serves.serving valid.fresh admits stepped
  exact ⟨.serving testcase ⟨serves.sendable, serves.client, serves.toClient, serving,
    serves.given, serves.handed⟩, valid.counts, fresh⟩

theorem run_answers {state next : Proxy config} {testcase : List UInt8}
    {result : Result config.mapSize} (ready : state.server = .ready testcase)
    (fresh : state.buf2.stale = false) (admits : state.Admits (.run result))
    (stepped : state.run result = some next) :
    ∃ sent, next = state.ran testcase result sent ∧ Answering config result .status sent := by
  unfold Proxy.run at stepped
  rw [ready] at stepped
  dsimp only at stepped
  split at stepped
  · next build =>
    cases stepped
    exact ⟨_, rfl, .plain build⟩
  · next deflate build =>
    obtain ⟨compressed, isData, fits, allocated⟩ := admits deflate build
    have sound : ¬ (state.buf2.stale = true ∨
        state.buf2.allocated < (some compressed |>.getD []).length + 8) := by
      rintro (stale | outside)
      · exact Bool.false_ne_true (fresh.symm.trans stale)
      · exact absurd outside (Nat.not_lt.mpr allocated)
    rw [isData, if_neg sound] at stepped
    cases stepped
    have enabled : config.deflate.isSome = true := Option.isSome_iff_exists.mpr ⟨_, build⟩
    exact ⟨_, rfl, .status (.compressed build isData fits) enabled⟩

/-- The server runs what the client has sent. -/
theorem Proxy.Valid.runs {state : Proxy config} (valid : state.Valid) {testcase : List UInt8}
    (ready : state.server = .ready testcase) : state.Serves testcase ∧ state.toServer = [] := by
  cases valid.phase with
  | idle idle => cases ready.symm.trans idle.server
  | answering result answers => cases ready.symm.trans answers.server
  | serving other serves =>
      have serving := serves.serving
      generalize toServer : state.toServer = sent at serving
      rw [ready] at serving
      cases serving
      exact ⟨serves, rfl⟩

theorem run_ready {state next : Proxy config} {result : Result config.mapSize}
    (stepped : state.run result = some next) : ∃ testcase, state.server = .ready testcase := by
  unfold Proxy.run at stepped
  split at stepped
  · next testcase ready => exact ⟨testcase, ready⟩
  · cases stepped

theorem run_valid {state next : Proxy config} {result : Result config.mapSize}
    (valid : state.Valid) (admits : state.Admits (.run result))
    (stepped : state.run result = some next) : next.Valid := by
  obtain ⟨testcase, ready⟩ := run_ready stepped
  obtain ⟨serves, toServer⟩ := valid.runs ready
  obtain ⟨sent, rfl, answering⟩ := run_answers ready valid.fresh admits stepped
  refine ⟨.answering result ⟨rfl, toServer, ?_, serves.given.symm, ?_⟩, ?_, valid.fresh⟩
  · unfold Proxy.ran
    dsimp only
    rw [serves.client, serves.toClient]
    exact answering
  · unfold Proxy.ran
    dsimp only
    rw [List.map_append, serves.handed]
    rfl
  · unfold Proxy.ran
    dsimp only
    rw [List.length_append, List.length_append, valid.counts]
    rfl

theorem step_valid (state : Proxy config) (action : Action config) (next : Proxy config)
    (valid : state.Valid) (admits : state.Admits action)
    (stepped : (proxy config).step state action = some next) : next.Valid := by
  cases action with
  | testcase testcase => exact testcase_valid valid admits stepped
  | clientRecv count => exact clientRecv_valid valid admits stepped
  | serverRecv count moves => exact serverRecv_valid valid admits stepped
  | run result => exact run_valid valid admits stepped

theorem init_valid (config : Config) : (Proxy.init config).Valid where
  phase := .idle ⟨rfl, rfl, rfl, rfl, rfl, rfl⟩
  counts := rfl
  fresh := rfl

/-! ## A round goes on until the client waits again -/

/-- A piece of what is left to receive. -/
theorem receive_possible {received rest data : List UInt8} {room : Nat}
    (whole : received ++ rest = data) (more : received.length < data.length)
    (fits : data.length ≤ room) : (receive rest (room - received.length) 1).isSome = true := by
  have length := congrArg List.length whole
  rw [List.length_append] at length
  unfold receive
  rw [if_pos (by omega), Option.isSome_some]

theorem receive_header_possible {header : List UInt8} (behind : List UInt8)
    (four : header.length = 4) : receive (header ++ behind) 4 4 = some (header, behind) := by
  unfold receive
  have possible : 0 < 4 ∧ 4 ≤ 4 ∧ 4 ≤ (header ++ behind).length := by
    rw [List.length_append]
    omega
  rw [if_pos possible, ← four, List.take_left, List.drop_left]

theorem serverRecv_possible {state : Proxy config} {testcase : List UInt8}
    (sendable : Sendable config testcase)
    (serving : Serving config testcase state.server state.toServer)
    (waits : ∀ testcase, state.server ≠ .ready testcase) :
    ∃ count, (state.serverRecv count false).isSome = true := by
  unfold Proxy.serverRecv
  generalize server : state.server = position at serving
  generalize toServer : state.toServer = sent at serving
  cases serving with
  | size =>
      have header : ∃ length behind, config.message testcase = u32Bytes length ++ behind := by
        rcases sendable.message with plain | ⟨deflate, data, -, -, flagged⟩
        · exact ⟨_, _, plain⟩
        · exact ⟨_, _, flagged⟩
      obtain ⟨length, behind, header⟩ := header
      refine ⟨4, ?_⟩
      dsimp only
      rw [header, receive_header_possible behind (length_u32Bytes length)]
      rfl
  | @plain received rest whole more =>
      refine ⟨1, ?_⟩
      dsimp only
      rw [Option.isSome_map]
      exact receive_possible whole more (Nat.le_refl _)
  | @clen deflate data compressed =>
      refine ⟨4, ?_⟩
      dsimp only
      rw [receive_header_possible data (length_u32Bytes _), Option.bind_some]
      dsimp only
      rw [length_u32Bytes, if_neg (Nat.lt_irrefl 4), compressed.build, Option.map_some]
      split <;> rfl
  | @compressed deflate data received rest compressed whole more =>
      obtain ⟨_, possible⟩ := Option.isSome_iff_exists.mp
        (receive_possible whole more (Nat.le_refl _))
      refine ⟨1, ?_⟩
      dsimp only
      rw [possible, compressed.build]
      rfl
  | ready => exact absurd server (waits testcase)

theorem clientRecv_possible {state : Proxy config} {result : Result config.mapSize}
    (answering : Answering config result state.client state.toClient) :
    ∃ count, (state.clientRecv count).isSome = true := by
  unfold Proxy.clientRecv
  generalize client : state.client = position at answering
  generalize toClient : state.toClient = sent at answering
  have four : result.status.val.length = 4 := result.status.property
  cases answering with
  | plain build =>
      refine ⟨4, ?_⟩
      dsimp only
      rw [receive_header_possible _ four]
      rfl
  | status payload build =>
      refine ⟨4, ?_⟩
      dsimp only
      rw [receive_header_possible _ four]
      rfl
  | compressLen payload build =>
      refine ⟨4, ?_⟩
      dsimp only
      rw [receive_header_possible _ (length_u32Bytes _)]
      rfl
  | coverage payload whole more =>
      refine ⟨1, ?_⟩
      dsimp only
      split
      · rfl
      · rw [Option.isSome_map]
        exact receive_possible whole more (payload.room result.map.property)

theorem run_possible {state : Proxy config} {testcase : List UInt8}
    (ready : state.server = .ready testcase) (result : Result config.mapSize) :
    (state.run result).isSome = true := by
  unfold Proxy.run
  rw [ready]
  dsimp only
  split
  · rfl
  · split <;> rfl

/-- A client that does not wait is not stuck. -/
theorem Proxy.Valid.continues {state : Proxy config} (valid : state.Valid)
    (busy : state.client ≠ .waiting) : ∃ action, (state.step action).isSome = true := by
  cases valid.phase with
  | idle idle => exact absurd idle.client busy
  | answering result answers =>
      obtain ⟨count, possible⟩ := clientRecv_possible answers.answering
      exact ⟨.clientRecv count, possible⟩
  | serving testcase serves =>
      by_cases ready : ∃ testcase, state.server = .ready testcase
      · obtain ⟨_, ready⟩ := ready
        let result : Result config.mapSize :=
          ⟨⟨List.replicate 4 0, rfl⟩, ⟨List.replicate config.mapSize 0, List.length_replicate⟩⟩
        exact ⟨.run result, run_possible ready result⟩
      · obtain ⟨count, possible⟩ := serverRecv_possible serves.sendable serves.serving
          (not_exists.mp ready)
        exact ⟨.serverRecv count false, possible⟩

/-- What can still happen before the client waits for the next test case. -/
def Proxy.left (state : Proxy config) : Nat :=
  state.toServer.length + state.toClient.length +
    (state.given.length - state.executed.length) * (9 + config.coverageRoom)

theorem receive_shortens {channel bytes rest : List UInt8} {room count : Nat}
    (received : receive channel room count = some (bytes, rest)) :
    rest.length < channel.length := by
  obtain ⟨split, length, positive, -⟩ := receive_spec received
  have whole := congrArg List.length split
  rw [List.length_append] at whole
  omega

@[simp] theorem Proxy.plain_toServer (state : Proxy config) (size : Nat) (received : List UInt8) :
    (state.plain size received).toServer = state.toServer := by
  unfold plain
  split <;> rfl

@[simp] theorem Proxy.compressed_toServer (state : Proxy config) (deflate : Deflate)
    (size clen : Nat) (received : List UInt8) :
    (state.compressed deflate size clen received).toServer = state.toServer := by
  unfold compressed
  split
  · rfl
  · split <;> rfl

@[simp] theorem Proxy.coverage_toClient (state : Proxy config) (status : List UInt8) (len : Nat)
    (received : List UInt8) : (state.coverage status len received).toClient = state.toClient := by
  unfold coverage coverageReceived
  split
  · rfl
  · split
    · dsimp only
      split <;> rfl
    · rfl

theorem serverRecv_shortens {state next : Proxy config} {count : Nat} {moves : Bool}
    (stepped : state.serverRecv count moves = some next) :
    next.toServer.length < state.toServer.length := by
  unfold Proxy.serverRecv at stepped
  split at stepped
  · obtain ⟨⟨bytes, rest⟩, received, rfl⟩ := Option.map_eq_some_iff.mp stepped
    have shorter := receive_shortens received
    dsimp only
    split_ifs <;> simpa using shorter
  · obtain ⟨⟨bytes, rest⟩, received, rfl⟩ := Option.map_eq_some_iff.mp stepped
    simpa using receive_shortens received
  · obtain ⟨⟨bytes, rest⟩, received, stepped⟩ := Option.bind_eq_some_iff.mp stepped
    have shorter := receive_shortens received
    dsimp only at stepped
    split at stepped
    · cases stepped
      exact shorter
    · split at stepped
      · cases stepped
        exact shorter
      · obtain ⟨deflate, -, rfl⟩ := Option.map_eq_some_iff.mp stepped
        simpa using shorter
  · obtain ⟨⟨bytes, rest⟩, received, stepped⟩ := Option.bind_eq_some_iff.mp stepped
    obtain ⟨deflate, -, rfl⟩ := Option.map_eq_some_iff.mp stepped
    simpa using receive_shortens received
  · obtain ⟨⟨bytes, rest⟩, received, rfl⟩ := Option.map_eq_some_iff.mp stepped
    exact receive_shortens received
  · cases stepped

theorem clientRecv_shortens {state next : Proxy config} {count : Nat}
    (room : ∀ status len received, state.client = .coverage status len received →
      received.length < config.coverageRoom)
    (stepped : state.clientRecv count = some next) :
    next.toClient.length < state.toClient.length := by
  unfold Proxy.clientRecv at stepped
  split at stepped
  · obtain ⟨⟨bytes, rest⟩, received, rfl⟩ := Option.map_eq_some_iff.mp stepped
    have shorter := receive_shortens received
    dsimp only
    split_ifs <;> simpa using shorter
  · obtain ⟨⟨bytes, rest⟩, received, rfl⟩ := Option.map_eq_some_iff.mp stepped
    have shorter := receive_shortens received
    dsimp only
    split_ifs <;> simpa using shorter
  · next status len received client =>
    have positive := Nat.sub_ne_zero_of_lt (room status len received client)
    rw [if_neg positive] at stepped
    obtain ⟨⟨bytes, rest⟩, received, rfl⟩ := Option.map_eq_some_iff.mp stepped
    simpa using receive_shortens received
  · obtain ⟨⟨bytes, rest⟩, received, rfl⟩ := Option.map_eq_some_iff.mp stepped
    exact receive_shortens received
  · cases stepped

theorem Answering.room {result : Result config.mapSize} {client : Client} {sent : List UInt8}
    (answering : Answering config result client sent) (status : List UInt8) (len : Nat)
    (received : List UInt8) (collects : client = .coverage status len received) :
    received.length < config.coverageRoom := by
  cases answering with
  | plain => cases collects
  | status => cases collects
  | compressLen => cases collects
  | coverage payload whole more =>
      cases collects
      exact Nat.lt_of_lt_of_le more (payload.room result.map.property)

theorem Answering.length_le {result : Result config.mapSize} {sent : List UInt8}
    (answering : Answering config result .status sent) :
    sent.length ≤ 8 + config.coverageRoom := by
  have four : result.status.val.length = 4 := result.status.property
  cases answering with
  | plain build =>
      have fits := (Payload.plain build).room result.map.property
      rw [List.length_append, four]
      omega
  | status payload =>
      have fits := payload.room result.map.property
      rw [List.length_append, List.length_append, length_u32Bytes, four]
      omega

/-- Whatever is not a new test case brings the end of the round nearer. -/
theorem step_left {state next : Proxy config} {action : Action config} (valid : state.Valid)
    (admits : state.Admits action) (same : ∀ testcase, action ≠ .testcase testcase)
    (stepped : state.step action = some next) : next.left < state.left := by
  cases action with
  | testcase testcase => exact absurd rfl (same testcase)
  | clientRecv count =>
      obtain ⟨result, answers⟩ := valid.answers stepped
      have shorter := clientRecv_shortens answers.answering.room stepped
      unfold Proxy.left
      cases clientRecv_answered answers.answering admits stepped with
      | further answering => exact Nat.add_lt_add_right (Nat.add_lt_add_left shorter _) _
      | done => exact Nat.add_lt_add_right (Nat.add_lt_add_left shorter _) _
  | serverRecv count moves =>
      obtain ⟨testcase, serves⟩ := valid.serves stepped
      have shorter := serverRecv_shortens stepped
      obtain ⟨server, buf2, toServer, rfl, -⟩ :=
        serverRecv_served serves.sendable serves.serving valid.fresh admits stepped
      exact Nat.add_lt_add_right (Nat.add_lt_add_right shorter _) _
  | run result =>
      obtain ⟨testcase, ready⟩ := run_ready stepped
      obtain ⟨serves, toServer⟩ := valid.runs ready
      obtain ⟨sent, rfl, answering⟩ := run_answers ready valid.fresh admits stepped
      have short := answering.length_le
      have before : state.given.length - state.executed.length = 1 := by
        rw [serves.given, List.length_append]
        exact Nat.add_sub_cancel_left _ 1
      have behind : state.given.length - (state.executed ++ [testcase]).length = 0 := by
        rw [serves.given, Nat.sub_self]
      unfold Proxy.left Proxy.ran
      dsimp only
      rw [behind, before, serves.toClient, toServer]
      simp only [List.length_append, List.length_nil]
      omega

/-- Without a new test case no more than `left` actions follow. -/
theorem runFrom_left {actions : List (Action config)} {state final : Proxy config}
    (valid : state.Valid) (same : ∀ testcase, .testcase testcase ∉ actions)
    (admitted : (proxy config).Admitted Proxy.Admits state actions)
    (ran : (proxy config).runFrom state actions = some final) :
    actions.length ≤ state.left := by
  induction actions generalizing state with
  | nil => exact Nat.zero_le _
  | cons action rest ih =>
      rw [Machine.runFrom_cons, Option.bind_eq_some_iff] at ran
      obtain ⟨next, stepped, ran⟩ := ran
      have nearer : next.left < state.left := by
        refine step_left valid admitted.1 (fun testcase given => ?_) stepped
        exact same testcase (given ▸ List.mem_cons_self)
      have further := ih (step_valid state action next valid admitted.1 stepped)
        (fun testcase member => same testcase (List.mem_cons_of_mem _ member))
        (admitted.2 next stepped) ran
      exact Nat.lt_of_le_of_lt further nearer

/-! ## Agreement -/

/-- The server has run what the client has read, and the client has handed on what
the server got for it, but for one test case that is on its way. -/
structure Proxy.Agrees (state : Proxy config) : Prop where
  executed : state.executed <+: state.given
  handed : state.handed <+: state.produced.map Result.bytes
  each : state.produced.length = state.executed.length
  pending : state.given.length ≤ state.handed.length + 1
  settled : state.client = .waiting →
    state.executed = state.given ∧ state.handed = state.produced.map Result.bytes
  continues : state.client ≠ .waiting → ∃ action, (state.step action).isSome = true

theorem Proxy.Valid.agrees {state : Proxy config} (valid : state.Valid) : state.Agrees := by
  have counts := valid.counts
  cases valid.phase with
  | idle idle =>
      refine ⟨idle.executed ▸ List.prefix_refl _, idle.handed ▸ List.prefix_refl _, counts, ?_,
        fun _ => ⟨idle.executed, idle.handed⟩, valid.continues⟩
      rw [idle.handed, List.length_map, counts, idle.executed]
      exact Nat.le_succ _
  | serving testcase serves =>
      have busy : state.client ≠ .waiting := fun waiting => by cases serves.client.symm.trans waiting
      refine ⟨serves.given ▸ List.prefix_append _ _, serves.handed ▸ List.prefix_refl _, counts, ?_,
        fun waiting => absurd waiting busy, valid.continues⟩
      rw [serves.handed, List.length_map, counts, serves.given, List.length_append]
      exact Nat.le_refl _
  | answering result answers =>
      have busy : state.client ≠ .waiting := fun waiting =>
        absurd (waiting ▸ answers.answering) Answering.not_waiting
      refine ⟨answers.executed ▸ List.prefix_refl _, answers.produced ▸ List.prefix_append _ _,
        counts, ?_, fun waiting => absurd waiting busy, valid.continues⟩
      have lengths := congrArg List.length answers.produced
      rw [List.length_map, List.length_append, counts, answers.executed] at lengths
      exact Nat.le_of_eq lengths

/-- In every run that `Admits` allows, whatever pieces the rest of the data arrives
in, the two programs agree, and a round is over after a bounded number of actions. -/
theorem admitted_agrees (config : Config) (actions : List (Action config)) (final : Proxy config)
    (admitted : (proxy config).Admitted Proxy.Admits (.init config) actions)
    (ran : (proxy config).run actions = some final) :
    final.Agrees ∧ ∀ (more : List (Action config)) (last : Proxy config),
      (∀ testcase, .testcase testcase ∉ more) → (proxy config).Admitted Proxy.Admits final more →
        (proxy config).runFrom final more = some last → more.length ≤ final.left := by
  have valid : final.Valid :=
    (proxy config).runFrom_invariant_of_admitted Proxy.Valid step_valid (init_valid config) admitted
      ran
  exact ⟨valid.agrees, fun more last same admitted ran => runFrom_left valid same admitted ran⟩

end

/-- The header of a block that is stored as it is. -/
def storedHeader (len : Nat) : List UInt8 :=
  [1, UInt8.ofNat len, UInt8.ofNat (len / 2 ^ 8), UInt8.ofNat (65535 - len),
    UInt8.ofNat ((65535 - len) / 2 ^ 8)]

/-- The library on data that is too short to be worth compressing. -/
def stored : Deflate where
  compress available data :=
    if data.length ≤ 65535 ∧ data.length + 5 ≤ available then
      some (storedHeader data.length ++ data)
    else none
  decompress compressed room :=
    if compressed.take 5 = storedHeader (compressed.length - 5) ∧ compressed.length - 5 ≤ room then
      some (compressed.drop 5)
    else none
  compress_fits := by
    intro available data compressed isData
    split at isData
    · next fits =>
      cases isData
      refine ⟨List.cons_ne_nil _ _, ?_⟩
      rw [List.length_append, Nat.add_comm]
      exact fits.2
    · cases isData
  decompress_compress := by
    intro available data compressed room isData short
    split at isData
    · cases isData
      have length : (storedHeader data.length ++ data).length - 5 = data.length := by
        rw [List.length_append]
        exact Nat.add_sub_cancel_left 5 _
      rw [length]
      exact if_pos ⟨rfl, short⟩
    · cases isData

def storedConfig : Config where
  deflate := some stored
  compressTestcases := true
  maxLen := 16
  mapSize := 8
  maxLen_lt := by decide
  mapSize_lt := by decide
  mapSize_ge := by decide

def storedRound : List (Action storedConfig) :=
  [.testcase [0x61, 0x62, 0x63], .serverRecv 4 false, .serverRecv 1 false, .serverRecv 2 false,
    .run ⟨⟨[0, 11, 0, 0], rfl⟩, ⟨[1, 0, 0, 0, 0, 0, 0, 2], rfl⟩⟩, .clientRecv 4, .clientRecv 4,
    .clientRecv 6, .clientRecv 7]

theorem admitted_agrees_storedRound : ∃ final, (proxy storedConfig).run storedRound = some final ∧
    final.executed = [[0x61, 0x62, 0x63]] ∧
    final.handed = [([0, 11, 0, 0], [1, 0, 0, 0, 0, 0, 0, 2])] ∧ final.Agrees := by
  have admitted : (proxy storedConfig).Admitted Proxy.Admits (.init storedConfig) storedRound := by
    refine .cons ⟨List.cons_ne_nil _ _, fun _ used => by cases used⟩ rfl ?_
    refine .cons rfl rfl (.cons trivial rfl (.cons trivial rfl ?_))
    refine .cons (fun deflate build => ?_) rfl ?_
    · cases build
      exact ⟨_, rfl, by decide, by decide⟩
    · exact .cons rfl rfl (.cons rfl rfl (.cons trivial rfl (.cons trivial rfl trivial)))
  exact ⟨_, rfl, rfl, rfl, (admitted_agrees storedConfig storedRound _ admitted rfl).1⟩

def splitHeader : List (Action storedConfig) :=
  [.testcase [0x61, 0x62, 0x63], .serverRecv 1 false, .serverRecv 3 false]

/-- The rest of a header that arrives in two pieces goes to `&size + 1`. -/
theorem splitHeader_corrupts : ∃ final, (proxy storedConfig).run splitHeader = some final ∧
    final.server = .corrupted ∧ final.executed = [] ∧ ¬ final.Agrees := by
  obtain ⟨final, ran, client, toClient, server, executed⟩ : ∃ final,
      (proxy storedConfig).run splitHeader = some final ∧ final.client = .status ∧
        final.toClient = [] ∧ final.server = .corrupted ∧ final.executed = [] :=
    ⟨_, rfl, rfl, rfl, rfl, rfl⟩
  refine ⟨final, ran, server, executed, fun agrees => ?_⟩
  have busy : final.client ≠ .waiting := fun waiting => by cases client.symm.trans waiting
  obtain ⟨action, possible⟩ := agrees.continues busy
  cases action with
  | testcase testcase =>
      rw [Proxy.step, Proxy.testcase, client] at possible
      cases possible
  | clientRecv count =>
      rw [Proxy.step, clientRecv_starved count client toClient] at possible
      cases possible
  | serverRecv count moves =>
      rw [Proxy.step, Proxy.serverRecv, server] at possible
      cases possible
  | run result =>
      rw [Proxy.step, Proxy.run, server] at possible
      cases possible

end SbFuzz.Utils.NetworkProxy
