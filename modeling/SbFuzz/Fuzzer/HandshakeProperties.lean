import SbFuzz.Fuzzer.Handshake

/-! The stream of the handshake of the new fork server, in step with what the target still
writes and AFL still reads. -/

set_option autoImplicit false

namespace SbFuzz.Fuzzer.Handshake

open SbFuzz.Systems

/-! ## Options -/

section

variable (config : Config)

theorem options_mapsize : config.options &&& fsNewOptMapsize ≠ 0 := by
  unfold Config.options
  split <;> split <;> decide

theorem options_shdmemFuzz : config.options &&& fsNewOptShdmemFuzz ≠ 0 ↔
    config.sharedmemFuzzing = true := by
  unfold Config.options
  cases config.sharedmemFuzzing with
  | true =>
    refine iff_of_true ?_ rfl
    rw [if_pos rfl]
    split <;> decide
  | false =>
    refine iff_of_false ?_ Bool.false_ne_true
    rw [if_neg Bool.false_ne_true]
    split <;> decide

theorem options_autodict : config.options &&& fsNewOptAutodict ≠ 0 ↔ config.dictionary ≠ [] := by
  unfold Config.options
  by_cases empty : config.dictionary = []
  · rw [if_pos empty]
    split <;> exact iff_of_false (by decide) (not_not_intro empty)
  · rw [if_neg empty]
    split <;> exact iff_of_true (by decide) empty

theorem dictionaryLen_toNat : config.dictionaryLen.toNat = config.dictionary.length :=
  (UInt32.toNat_ofNat' ..).trans (Nat.mod_eq_of_lt config.dictionary_lt)

/-! ## The stream -/

def Config.dictPart : List UInt8 :=
  if config.dictionary = [] then []
  else Codec.u32.write config.dictionaryLen ++ config.dictionary

def Config.fromMapSize : List UInt8 :=
  Codec.u32.write config.mapSize ++ (config.dictPart ++ Codec.u32.write version)

def Config.fromOptions : List UInt8 := Codec.u32.write config.options ++ config.fromMapSize

/-- What the target still writes in the handshake. -/
def Target.rest : Target → List UInt8
  | .hello => Codec.u32.write version ++ config.fromOptions
  | .reply => config.fromOptions
  | .options => config.fromOptions
  | .mapSize => config.fromMapSize
  | .dictLen => config.dictPart ++ Codec.u32.write version
  | .dict offset => config.dictionary.drop offset ++ Codec.u32.write version
  | .welcome => Codec.u32.write version
  | .connected => []
  | .exited => []

/-- What AFL still reads in the handshake. -/
def Afl.expected : Afl → List UInt8
  | .hello => Codec.u32.write version ++ config.fromOptions
  | .options => config.fromOptions
  | .mapSize _ => config.fromMapSize
  | .dictSize => config.dictPart ++ Codec.u32.write version
  | .dict _ received => config.dictionary.drop received.length ++ Codec.u32.write version
  | .welcome => Codec.u32.write version
  | .started => []
  | .old => []
  | .split => []
  | .fatal => []

/-- AFL with the map size and the flag of the target. -/
def Config.shared : Fsrv :=
  { config.fsrv with
    mapSize := roundUp config.mapSize
    realMapSize := config.mapSize
    useShmemFuzz := config.fsrv.useShmemFuzz || config.sharedmemFuzzing }

/-- AFL after the handshake. -/
def Config.agreed : Fsrv :=
  { config.shared with
    extras := config.fsrv.extras ++
      if config.addsExtras then entries config.dictionary.length config.dictionary else [] }

/-- What AFL holds while it waits. -/
def Afl.Holds (fsrv : Fsrv) : Afl → Prop
  | .hello => fsrv = config.fsrv
  | .options => fsrv = config.fsrv
  | .mapSize status => fsrv = config.fsrv ∧ status = config.options
  | .dictSize => fsrv = config.shared ∧ config.dictionary ≠ []
  | .dict size received => fsrv = config.shared ∧ size = config.dictionary.length ∧
      received.length < size ∧ received = config.dictionary.take received.length
  | .welcome => fsrv = config.agreed
  | .started => fsrv = config.agreed
  | .old => False
  | .split => False
  | .fatal => False

def Target.Proper : Target → Prop
  | .dictLen => config.dictionary ≠ []
  | .dict offset => offset < config.dictionary.length
  | .exited => False
  | .hello => True
  | .reply => True
  | .options => True
  | .mapSize => True
  | .welcome => True
  | .connected => True

/-- The two programs in step with each other. -/
structure State.Good (state : State) : Prop where
  stream : state.toAfl ++ state.target.rest config = state.afl.expected config ++ state.following
  following : state.following = [] ∨ state.target = .connected
  proper : state.target.Proper config
  holds : state.afl.Holds config state.fsrv
  first : state.afl = .hello → state.target = .hello ∨ state.target = .reply
  keep : state.afl ≠ .hello → state.keep = version
  toTarget : state.toTarget =
    if state.target = .reply ∧ state.afl ≠ .hello then Codec.u32.write reply else []

/-- What AFL checks of the target. -/
structure Config.Accepted : Prop where
  mapSize : roundUp config.mapSize ≤ config.fsrv.ownMapSize
  shared : config.sharedmemFuzzing = true → config.supportShmemFuzz = true
  dictionary : config.dictionary = [] ∨
    2 ≤ config.dictionary.length ∧ config.dictionary.length ≤ 0xffffff

def State.Sound (state : State) : Prop :=
  state.Good config ∨ state.afl = .fatal ∧ ¬ config.Accepted

variable {config}

theorem fromMapSize_length : config.fromMapSize.length = 8 + config.dictPart.length := by
  unfold Config.fromMapSize
  rw [List.length_append, List.length_append, Codec.u32_write_length, Codec.u32_write_length]
  omega

theorem fromOptions_length : config.fromOptions.length = 12 + config.dictPart.length := by
  unfold Config.fromOptions
  rw [List.length_append, fromMapSize_length, Codec.u32_write_length]
  omega

theorem dictPart_of_ne (some' : config.dictionary ≠ []) :
    config.dictPart = Codec.u32.write config.dictionaryLen ++ config.dictionary := if_neg some'

/-- AFL waits for a word. -/
def Afl.AwaitsWord : Afl → Prop
  | .hello => True
  | .options => True
  | .mapSize _ => True
  | .dictSize => True
  | .welcome => True
  | .dict _ _ => False
  | .started => False
  | .old => False
  | .split => False
  | .fatal => False

theorem dictPart_length : config.dictPart.length = 0 ∧ config.dictionary.length = 0 ∨
    config.dictPart.length = 4 + config.dictionary.length ∧ 0 < config.dictionary.length := by
  by_cases empty : config.dictionary = []
  · unfold Config.dictPart
    rw [if_pos empty, empty]
    exact .inl ⟨rfl, rfl⟩
  · rw [dictPart_of_ne empty, List.length_append, Codec.u32_write_length]
    exact .inr ⟨rfl, List.length_pos_iff.mpr empty⟩

/-- What is left to write is a number of whole words and a part of the dictionary. -/
theorem Target.Proper.rest_length {target : Target} (proper : target.Proper config) :
    (target.rest config).length = 16 + config.dictPart.length ∨
    (target.rest config).length = 12 + config.dictPart.length ∨
    (target.rest config).length = 8 + config.dictPart.length ∨
    (target.rest config).length = 4 + config.dictPart.length ∨
    4 < (target.rest config).length ∧ (target.rest config).length ≤ 4 + config.dictionary.length ∨
    (target.rest config).length = 4 ∨
    (target.rest config).length = 0 ∧ target = .connected := by
  cases target with
  | hello =>
    left
    rw [Target.rest, List.length_append, fromOptions_length, Codec.u32_write_length]
    omega
  | reply => exact .inr (.inl fromOptions_length)
  | options => exact .inr (.inl fromOptions_length)
  | mapSize => exact .inr (.inr (.inl fromMapSize_length))
  | dictLen =>
    refine .inr (.inr (.inr (.inl ?_)))
    rw [Target.rest, List.length_append, Codec.u32_write_length, Nat.add_comm]
  | dict offset =>
    have inside : offset < config.dictionary.length := proper
    refine .inr (.inr (.inr (.inr (.inl ?_))))
    rw [Target.rest, List.length_append, List.length_drop, Codec.u32_write_length]
    omega
  | welcome => exact .inr (.inr (.inr (.inr (.inr (.inl rfl)))))
  | connected => exact .inr (.inr (.inr (.inr (.inr (.inr ⟨rfl, rfl⟩)))))
  | exited => exact proper.elim

theorem Afl.AwaitsWord.expected_length {afl : Afl} {fsrv : Fsrv} (awaits : afl.AwaitsWord)
    (holds : afl.Holds config fsrv) :
    (afl.expected config).length = 16 + config.dictPart.length ∨
    (afl.expected config).length = 12 + config.dictPart.length ∨
    (afl.expected config).length = 8 + config.dictPart.length ∨
    (afl.expected config).length = 4 + config.dictPart.length ∧ 0 < config.dictionary.length ∨
    (afl.expected config).length = 4 := by
  cases afl with
  | hello =>
    left
    rw [Afl.expected, List.length_append, fromOptions_length, Codec.u32_write_length]
    omega
  | options => exact .inr (.inl fromOptions_length)
  | mapSize status => exact .inr (.inr (.inl fromMapSize_length))
  | dictSize =>
    refine .inr (.inr (.inr (.inl ⟨?_, List.length_pos_iff.mpr holds.2⟩)))
    rw [Afl.expected, List.length_append, Codec.u32_write_length, Nat.add_comm]
  | welcome => exact .inr (.inr (.inr (.inr rfl)))
  | _ => exact awaits.elim

/-- A word that has begun to arrive is there. -/
theorem State.Good.word_arrived {state : State} (good : state.Good config)
    (awaits : state.afl.AwaitsWord) (some' : state.toAfl ≠ []) : 4 ≤ state.toAfl.length := by
  have lengths := congrArg List.length good.stream
  have positive := List.length_pos_iff.mpr some'
  have written := good.proper.rest_length
  have awaited := awaits.expected_length good.holds
  have part := @dictPart_length config
  rw [List.length_append, List.length_append] at lengths
  rcases good.following with none | connected
  · rw [none, List.length_nil] at lengths
    omega
  · rw [connected] at lengths
    have rest : (Target.connected.rest config).length = 0 := rfl
    omega

/-- A word is read off the stream. -/
theorem readWord_spec {state : State} {word : UInt32} {rest tail : List UInt8}
    (stream : state.toAfl ++ rest = Codec.u32.write word ++ tail)
    (enough : 4 ≤ state.toAfl.length) :
    ∃ remaining, remaining ++ rest = tail ∧ ∀ next, state.readWord next =
      some (next { state with toAfl := remaining } word) := by
  have head : state.toAfl.take 4 = Codec.u32.write word := by
    have first := congrArg (List.take 4) stream
    rwa [List.take_append_of_le_length enough, List.take_left' (Codec.u32_write_length word)] at first
  have split := List.take_append_drop 4 state.toAfl
  rw [head] at split
  refine ⟨state.toAfl.drop 4, ?_, fun next => ?_⟩
  · rw [← split, List.append_assoc] at stream
    exact List.append_cancel_left stream
  · have some' : state.toAfl ≠ [] := List.ne_nil_of_length_pos (by omega)
    unfold State.readWord
    rw [if_neg some']
    conv_lhs => rw [← split, Codec.u32.read_write]

/-! ## Steps of the target -/

theorem State.Good.toTarget_nil {state : State} (good : state.Good config)
    (past : state.target ≠ .reply) : state.toTarget = [] :=
  good.toTarget.trans (if_neg fun both => past both.1)

theorem State.Good.send {state : State} (good : state.Good config) {word : UInt32} {next : Target}
    (rest : state.target.rest config = Codec.u32.write word ++ next.rest config)
    (early : state.target ≠ .connected ∧ state.target ≠ .reply) (proper : next.Proper config)
    (first : state.afl = .hello ↔ next = .reply) :
    (state.send word next).Good config where
  stream := by
    have stream := good.stream
    rw [rest, ← List.append_assoc] at stream
    exact stream
  following := good.following.elim .inl fun connected => absurd connected early.1
  proper := proper
  holds := good.holds
  first := fun afl => .inr (first.mp afl)
  keep := good.keep
  toTarget := by
    rw [if_neg fun both => both.2 (first.mpr both.1)]
    exact good.toTarget_nil early.2

theorem State.Good.afl_ne_hello {state : State} (good : state.Good config)
    (past : state.target ≠ .hello ∧ state.target ≠ .reply) : state.afl ≠ .hello :=
  fun afl => (good.first afl).elim past.1 past.2

/-- Before the target has written anything AFL waits for it. -/
theorem State.Good.afl_hello {state : State} (good : state.Good config)
    (begins : state.target = .hello) : state.afl = .hello ∧ state.toAfl = [] := by
  have lengths := congrArg List.length good.stream
  have none : state.following = [] := good.following.elim id fun connected => by
    rw [begins] at connected
    cases connected
  have part := @dictPart_length config
  have holds := good.holds
  rw [begins, none, List.length_append, List.append_nil, Target.rest, List.length_append,
    fromOptions_length, Codec.u32_write_length] at lengths
  cases afl : state.afl with
  | hello =>
    rw [afl, Afl.expected, List.length_append, fromOptions_length, Codec.u32_write_length] at lengths
    exact ⟨rfl, List.length_eq_zero_iff.mp (by omega)⟩
  | options =>
    rw [afl, Afl.expected, fromOptions_length] at lengths
    omega
  | mapSize status =>
    rw [afl, Afl.expected, fromMapSize_length] at lengths
    omega
  | dictSize =>
    rw [afl, Afl.expected, List.length_append, Codec.u32_write_length] at lengths
    omega
  | dict size received =>
    rw [afl, Afl.expected, List.length_append, List.length_drop, Codec.u32_write_length] at lengths
    omega
  | welcome =>
    rw [afl, Afl.expected, Codec.u32_write_length] at lengths
    omega
  | started =>
    have ended : (Afl.started.expected config).length = 0 := rfl
    rw [afl, ended] at lengths
    omega
  | _ =>
    rw [afl] at holds
    exact holds.elim

theorem rest_dictFrom {offset : Nat} (inside : offset ≤ config.dictionary.length) :
    (dictFrom config offset).rest config =
      config.dictionary.drop offset ++ Codec.u32.write version := by
  unfold dictFrom
  split
  · rfl
  · rw [List.drop_of_length_le (by omega)]
    rfl

theorem proper_dictFrom (offset : Nat) : (dictFrom config offset).Proper config := by
  unfold dictFrom
  split
  · next inside => exact inside
  · trivial

theorem dictFrom_ne (offset : Nat) {target : Target} (other : ∀ k, target ≠ .dict k)
    (another : target ≠ .welcome) : dictFrom config offset ≠ target := by
  unfold dictFrom
  split
  · exact (other offset).symm
  · exact another.symm

theorem State.Good.targetStep {state next : State} {count : Nat} (good : state.Good config)
    (step : state.targetStep config count = some next) : next.Good config := by
  have proper := good.proper
  have toTarget := good.toTarget
  unfold State.targetStep at step
  cases target : state.target with
  | hello =>
    rw [target] at step toTarget
    cases step
    exact good.send (by rw [target]; rfl) (by simp [target]) trivial
      (iff_of_true (good.afl_hello target).1 rfl)
  | reply =>
    rw [target] at step toTarget
    obtain ⟨⟨status2, rest⟩, received, rfl⟩ := Option.map_eq_some_iff.mp step
    by_cases waits : state.afl = .hello
    · rw [toTarget, if_neg fun both => both.2 waits] at received
      cases received
    · rw [toTarget, if_pos ⟨rfl, waits⟩, ← List.append_nil (Codec.u32.write reply),
        Codec.u32.read_write] at received
      cases received
      have stream := good.stream
      rw [target] at stream
      exact
        { stream
          following := good.following.elim .inl fun connected => by simp [target] at connected
          proper := trivial
          holds := good.holds
          first := fun again => absurd again waits
          keep := good.keep
          toTarget := rfl }
  | options =>
    rw [target] at step
    cases step
    exact good.send (by rw [target]; rfl) (by simp [target]) trivial
      (iff_of_false (good.afl_ne_hello (by simp [target])) (by simp))
  | mapSize =>
    rw [target] at step
    cases step
    refine good.send ?_ (by simp [target]) ?_ ?_
    · rw [target, Target.rest, Config.fromMapSize]
      unfold Config.dictPart
      split
      · rfl
      · next some' => rw [Target.rest, dictPart_of_ne some']
    · split
      · trivial
      · next some' => exact some'
    · refine iff_of_false (good.afl_ne_hello (by simp [target])) ?_
      split <;> simp
  | dictLen =>
    rw [target] at step proper
    cases step
    refine good.send ?_ (by simp [target]) (proper_dictFrom 0) ?_
    · rw [target, Target.rest, rest_dictFrom (Nat.zero_le _), dictPart_of_ne proper,
        List.append_assoc]
      rfl
    · exact iff_of_false (good.afl_ne_hello (by simp [target])) (dictFrom_ne 0 (by simp) (by simp))
  | dict offset =>
    rw [target] at step proper
    have inside : offset < config.dictionary.length := proper
    dsimp only at step
    split at step
    · next some' =>
      cases step
      have waits := good.afl_ne_hello (by simp [target])
      have stream := good.stream
      rw [target, Target.rest, ← List.take_append_drop count (config.dictionary.drop offset),
        List.drop_drop, List.append_assoc, ← rest_dictFrom some'.2, ← List.append_assoc] at stream
      exact
        { stream
          following := good.following.elim .inl fun connected => by simp [target] at connected
          proper := proper_dictFrom _
          holds := good.holds
          first := fun again => absurd again waits
          keep := good.keep
          toTarget := by
            rw [if_neg fun both => dictFrom_ne _ (by simp) (by simp) both.1]
            exact good.toTarget_nil (by simp [target]) }
    · cases step
  | welcome =>
    rw [target] at step
    cases step
    exact good.send (by rw [target]; rfl) (by simp [target]) trivial
      (iff_of_false (good.afl_ne_hello (by simp [target])) (by simp))
  | connected =>
    rw [target] at step
    cases step
  | exited =>
    rw [target] at proper
    exact proper.elim

/-! ## Steps of AFL -/

/-- A step of AFL behind its greeting. -/
theorem State.Good.advance {state : State} (good : state.Good config) (greeted : state.afl ≠ .hello)
    {afl : Afl} {fsrv : Fsrv} {remaining : List UInt8}
    (stream : remaining ++ state.target.rest config = afl.expected config ++ state.following)
    (holds : afl.Holds config fsrv) (later : afl ≠ .hello) :
    { state with afl, fsrv, toAfl := remaining }.Good config where
  stream := stream
  following := good.following
  proper := good.proper
  holds := holds
  first := fun again => absurd again later
  keep := fun _ => good.keep greeted
  toTarget := good.toTarget.trans (if_congr
    (and_congr_right fun _ => iff_of_true greeted later) rfl rfl)

theorem readWord_ne {state next : State} {k : State → UInt32 → State}
    (step : state.readWord k = some next) : state.toAfl ≠ [] := by
  intro none
  rw [State.readWord, if_pos none] at step
  cases step

theorem aflHello_version (state : State) : state.aflHello version =
    { state with
      afl := .options
      keep := version
      toTarget := state.toTarget ++ Codec.u32.write reply } := rfl

theorem aflOptions_options (state : State) :
    state.aflOptions config config.options = { state with afl := .mapSize config.options } :=
  if_pos (options_mapsize config)

theorem State.Good.hello {state next : State} (good : state.Good config) (afl : state.afl = .hello)
    (step : state.readWord (fun state status => state.aflHello status) = some next) :
    next.Good config := by
  have some' := readWord_ne step
  have stream := good.stream
  rw [afl, Afl.expected, List.append_assoc] at stream
  obtain ⟨remaining, stream, reads⟩ :=
    readWord_spec stream (good.word_arrived (by rw [afl]; trivial) some')
  rw [reads, aflHello_version] at step
  cases step
  have target : state.target = .reply :=
    (good.first afl).elim (fun begins => absurd (good.afl_hello begins).2 some') id
  have holds := good.holds
  rw [afl] at holds
  exact
    { stream
      following := good.following
      proper := good.proper
      holds
      first := fun again => nomatch again
      keep := fun _ => rfl
      toTarget := by
        rw [good.toTarget, if_neg fun both => both.2 afl, if_pos ⟨target, by simp⟩]
        rfl }

theorem State.Good.options {state next : State} (good : state.Good config)
    (afl : state.afl = .options)
    (step : state.readWord (fun state status => state.aflOptions config status) = some next) :
    next.Good config := by
  have stream := good.stream
  rw [afl, Afl.expected, Config.fromOptions, List.append_assoc] at stream
  obtain ⟨remaining, stream, reads⟩ :=
    readWord_spec stream (good.word_arrived (by rw [afl]; trivial) (readWord_ne step))
  rw [reads, aflOptions_options] at step
  cases step
  have holds := good.holds
  rw [afl] at holds
  exact good.advance (by simp [afl]) stream ⟨holds, rfl⟩ (by simp)

theorem agreed_of_empty (empty : config.dictionary = []) : config.shared = config.agreed := by
  unfold Config.agreed
  rw [empty]
  simp [entries, Config.shared]

/-- The map size and the flag. -/
theorem State.Good.mapSize {state next : State} (good : state.Good config) {status : UInt32}
    (afl : state.afl = .mapSize status)
    (step : state.readWord (fun state size => state.aflMapSize config status size) = some next) :
    next.Sound config := by
  have holds := good.holds
  rw [afl] at holds
  obtain ⟨fsrv, rfl⟩ := holds
  have stream := good.stream
  rw [afl, Afl.expected, Config.fromMapSize, List.append_assoc] at stream
  obtain ⟨remaining, stream, reads⟩ :=
    readWord_spec stream (good.word_arrived (by rw [afl]; trivial) (readWord_ne step))
  rw [reads] at step
  unfold State.aflMapSize State.shared at step
  rw [fsrv] at step
  simp only [options_shdmemFuzz, options_autodict] at step
  split at step
  · next larger =>
    cases step
    exact .inr ⟨rfl, fun accepted => absurd accepted.mapSize (UInt32.not_le.mpr larger)⟩
  · split at step
    · next refused =>
      cases step
      refine .inr ⟨rfl, fun accepted => ?_⟩
      have supported := accepted.shared refused.1
      rw [refused.2] at supported
      cases supported
    · cases step
      have flag : decide (config.sharedmemFuzzing = true) = config.sharedmemFuzzing := by simp
      rw [flag]
      left
      by_cases empty : config.dictionary = []
      · rw [if_neg (not_not_intro empty)]
        refine good.advance (by simp [afl]) ?_ (agreed_of_empty empty) (by simp)
        rwa [Config.dictPart, if_pos empty, List.nil_append] at stream
      · rw [if_pos empty]
        exact good.advance (by simp [afl]) stream ⟨rfl, empty⟩ (by simp)

theorem State.Good.dictSize {state next : State} (good : state.Good config)
    (afl : state.afl = .dictSize) {count : Nat}
    (step : state.aflStep config count = some next) : next.Sound config := by
  have holds := good.holds
  rw [afl] at holds
  obtain ⟨fsrv, some'⟩ := holds
  have stream := good.stream
  rw [afl, Afl.expected, dictPart_of_ne some', List.append_assoc, List.append_assoc] at stream
  unfold State.aflStep at step
  rw [afl] at step
  dsimp only at step
  obtain ⟨remaining, stream, reads⟩ :=
    readWord_spec stream (good.word_arrived (by rw [afl]; trivial) (readWord_ne step))
  rw [reads, dictionaryLen_toNat] at step
  split at step
  · next illegal =>
    cases step
    refine .inr ⟨rfl, fun accepted => ?_⟩
    have legal := accepted.dictionary.resolve_left some'
    omega
  · cases step
    have positive := List.length_pos_iff.mpr some'
    refine .inl (good.advance (by simp [afl]) ?_ ⟨fsrv, rfl, positive, rfl⟩ (by simp))
    rw [stream, Afl.expected, List.append_assoc]
    rfl

/-- A part of the dictionary. -/
theorem State.Good.dict {state next : State} (good : state.Good config) {size : Nat}
    {received : List UInt8} (afl : state.afl = .dict size received) {count : Nat}
    (step : state.aflStep config count = some next) : next.Good config := by
  have holds := good.holds
  rw [afl] at holds
  obtain ⟨fsrv, rfl, inside, prefix'⟩ := holds
  have stream := good.stream
  rw [afl, Afl.expected, List.append_assoc] at stream
  unfold State.aflStep at step
  rw [afl] at step
  dsimp only at step
  split at step
  · next some' =>
    obtain ⟨positive, room, arrived⟩ := some'
    have left : count ≤ (config.dictionary.drop received.length).length := by
      rw [List.length_drop]
      exact room
    have head := congrArg (List.take count) stream
    rw [List.take_append_of_le_length arrived, List.take_append_of_le_length left] at head
    have tail := congrArg (List.drop count) stream
    rw [List.drop_append_of_le_length arrived, List.drop_append_of_le_length left,
      List.drop_drop] at tail
    have longer : received ++ state.toAfl.take count =
        config.dictionary.take (received.length + count) := by
      rw [List.take_add, ← prefix', head]
    have length : (received ++ state.toAfl.take count).length = received.length + count := by
      rw [List.length_append, List.length_take_of_le arrived]
    unfold State.dictReceived at step
    rw [length] at step
    split at step
    · next more =>
      cases step
      refine good.advance (by simp [afl]) ?_ ⟨fsrv, rfl, length.symm ▸ more, ?_⟩ (by simp)
      · rw [tail, Afl.expected, length, List.append_assoc]
      · rw [length]
        exact longer
    · next whole =>
      cases step
      have all : received.length + count = config.dictionary.length := by omega
      rw [all, List.take_length] at longer
      rw [all, List.drop_length, List.nil_append] at tail
      refine good.advance (by simp [afl]) tail ?_ (by simp)
      rw [longer, all, fsrv]
      rfl
  · cases step

theorem State.Good.welcome {state next : State} (good : state.Good config)
    (afl : state.afl = .welcome) {count : Nat}
    (step : state.aflStep config count = some next) : next.Good config := by
  have holds := good.holds
  rw [afl] at holds
  have stream := good.stream
  rw [afl, Afl.expected] at stream
  unfold State.aflStep at step
  rw [afl] at step
  dsimp only at step
  obtain ⟨remaining, stream, reads⟩ :=
    readWord_spec stream (good.word_arrived (by rw [afl]; trivial) (readWord_ne step))
  have keep := good.keep (by simp [afl])
  rw [reads, if_pos keep.symm] at step
  cases step
  have rest : remaining ++ state.target.rest config =
      Afl.started.expected config ++ state.following := stream
  exact good.advance (by simp [afl]) rest holds (by simp)

theorem State.Good.aflStep {state next : State} {count : Nat} (good : state.Good config)
    (step : state.aflStep config count = some next) : next.Sound config := by
  have holds := good.holds
  have whole := step
  unfold State.aflStep at step
  cases afl : state.afl with
  | hello =>
    rw [afl] at step
    exact .inl (good.hello afl step)
  | options =>
    rw [afl] at step
    exact .inl (good.options afl step)
  | mapSize status =>
    rw [afl] at step
    exact good.mapSize afl step
  | dictSize => exact good.dictSize afl whole
  | dict size received => exact .inl (good.dict afl whole)
  | welcome => exact .inl (good.welcome afl whole)
  | started =>
    rw [afl] at step
    cases step
  | _ =>
    rw [afl] at holds
    exact holds.elim

end

end SbFuzz.Fuzzer.Handshake
