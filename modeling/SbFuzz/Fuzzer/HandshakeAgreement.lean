import SbFuzz.Fuzzer.HandshakeProperties

/-! What AFL and the target hold after the handshake of the new fork server, and when AFL
refuses it. -/

set_option autoImplicit false

namespace SbFuzz.Fuzzer.Handshake

open SbFuzz.Systems

section

variable {config : Config}

/-! ## Runs -/

theorem good_init : (State.init config).Good config where
  stream := by
    unfold State.init
    dsimp only
    rw [List.nil_append, List.append_nil, Target.rest, Afl.expected]
  following := .inl rfl
  proper := trivial
  holds := rfl
  first := fun _ => .inl rfl
  keep := fun other => absurd rfl other
  toTarget := (if_neg fun both => nomatch both.1).symm

theorem State.Good.follow {state : State} (good : state.Good config)
    (connected : state.target = .connected) (bytes : List UInt8) :
    { state with
      toAfl := state.toAfl ++ bytes
      following := state.following ++ bytes }.Good config where
  stream := by
    have stream := good.stream
    rw [connected, Target.rest, List.append_nil] at stream
    dsimp only
    rw [connected, Target.rest, List.append_nil, stream, List.append_assoc]
  following := .inr connected
  proper := good.proper
  holds := good.holds
  first := good.first
  keep := good.keep
  toTarget := good.toTarget

/-- The target goes on without AFL. -/
theorem targetStep_afl {state next : State} {count : Nat}
    (step : state.targetStep config count = some next) : next.afl = state.afl := by
  unfold State.targetStep at step
  split at step
  · cases step; rfl
  · obtain ⟨_, _, rfl⟩ := Option.map_eq_some_iff.mp step
    rfl
  · cases step; rfl
  · cases step; rfl
  · cases step; rfl
  · split at step
    · cases step; rfl
    · cases step
  · cases step; rfl
  · cases step
  · cases step

theorem State.Sound.step {state next : State} {action : Action} (sound : state.Sound config)
    (step : state.step config action = some next) : next.Sound config := by
  cases sound with
  | inl good =>
    cases action with
    | target count => exact .inl (good.targetStep step)
    | afl count => exact good.aflStep step
    | follow bytes =>
      unfold State.step at step
      dsimp only at step
      split at step
      · next connected =>
        cases step
        exact .inl (good.follow connected bytes)
      · cases step
  | inr refused =>
    obtain ⟨fatal, reason⟩ := refused
    refine .inr ⟨?_, reason⟩
    cases action with
    | target count => exact (targetStep_afl step).trans fatal
    | afl count =>
      unfold State.step State.aflStep at step
      rw [fatal] at step
      cases step
    | follow bytes =>
      unfold State.step at step
      dsimp only at step
      split at step
      · cases step
        exact fatal
      · cases step

theorem sound_of_reachable {state : State} (reachable : (handshake config).Reachable state) :
    state.Sound config :=
  (handshake config).reachable_invariant (State.Sound config) (.inl good_init)
    (fun _ _ _ sound step => sound.step step) reachable

theorem readWord_goes {state : State} (some' : state.toAfl ≠ []) (k : State → UInt32 → State) :
    ∃ next, state.readWord k = some next := by
  unfold State.readWord
  rw [if_neg some']
  split
  · exact ⟨_, rfl⟩
  · exact ⟨_, rfl⟩

theorem State.Good.expected_ne {state : State} (good : state.Good config)
    (waits : state.afl ≠ .started) : state.afl.expected config ≠ [] := by
  have holds := good.holds
  intro none
  have empty := congrArg List.length none
  cases afl : state.afl with
  | dict size received =>
    rw [afl, Afl.expected, List.length_append, Codec.u32_write_length] at empty
    cases empty
  | started => exact waits afl
  | old =>
    rw [afl] at holds
    exact holds
  | split =>
    rw [afl] at holds
    exact holds
  | fatal =>
    rw [afl] at holds
    exact holds
  | _ =>
    have word : state.afl.AwaitsWord := by
      rw [afl]
      trivial
    have lengths := word.expected_length holds
    rw [empty, List.length_nil] at lengths
    omega

/-- Where AFL has nothing to read, the target goes on. -/
theorem State.Good.target_goes {state : State} (good : state.Good config)
    (waits : state.afl ≠ .started) (nothing : state.toAfl = []) :
    ∃ count next, state.targetStep config count = some next := by
  have stream := good.stream
  have expected := good.expected_ne waits
  have proper := good.proper
  rw [nothing, List.nil_append] at stream
  unfold State.targetStep
  cases target : state.target with
  | reply =>
    have greeted : state.afl ≠ .hello := by
      intro afl
      have lengths := congrArg List.length stream
      rw [target, afl, Target.rest, Afl.expected, List.length_append, List.length_append,
        Codec.u32_write_length] at lengths
      omega
    have toTarget := good.toTarget
    rw [if_pos ⟨target, greeted⟩, ← List.append_nil (Codec.u32.write reply)] at toTarget
    dsimp only
    rw [toTarget, Codec.u32.read_write]
    exact ⟨0, _, rfl⟩
  | dict offset =>
    rw [target] at proper
    exact ⟨1, _, if_pos ⟨Nat.le_refl 1, proper⟩⟩
  | connected =>
    rw [target] at stream
    exact absurd (List.append_eq_nil_iff.mp stream.symm).1 expected
  | exited =>
    rw [target] at proper
    exact proper.elim
  | _ => exact ⟨0, _, rfl⟩

/-- While AFL waits, one of the two can go on. -/
theorem State.Good.goes_on {state : State} (good : state.Good config)
    (waits : state.afl ≠ .started) :
    ∃ action next, (handshake config).step state action = some next := by
  by_cases nothing : state.toAfl = []
  · obtain ⟨count, next, step⟩ := good.target_goes waits nothing
    exact ⟨.target count, next, step⟩
  · have holds := good.holds
    have step : ∃ next, state.aflStep config 1 = some next := by
      unfold State.aflStep
      cases afl : state.afl with
      | dict size received =>
        rw [afl] at holds
        have room := holds.2.2.1
        have arrived := List.length_pos_iff.mpr nothing
        exact ⟨_, if_pos ⟨Nat.le_refl 1, by omega, arrived⟩⟩
      | started => exact absurd afl waits
      | old =>
        rw [afl] at holds
        exact holds.elim
      | split =>
        rw [afl] at holds
        exact holds.elim
      | fatal =>
        rw [afl] at holds
        exact holds.elim
      | _ => exact readWord_goes nothing _
    obtain ⟨next, step⟩ := step
    exact ⟨.afl 1, next, step⟩

/-! ## What AFL holds -/

def encode (tokens : List (List UInt8)) : List UInt8 :=
  tokens.flatMap fun token => UInt8.ofNat token.length :: token

theorem entries_encode {tokens : List (List UInt8)} (short : ∀ token ∈ tokens, token.length < 256)
    {fuel : Nat} (enough : (encode tokens).length ≤ fuel) :
    entries fuel (encode tokens) = tokens := by
  induction tokens generalizing fuel with
  | nil => cases fuel <;> rfl
  | cons token tokens ih =>
    have length : (UInt8.ofNat token.length).toNat = token.length :=
      UInt8.toNat_ofNat_of_lt' (short token List.mem_cons_self)
    have cons : encode (token :: tokens) = UInt8.ofNat token.length :: (token ++ encode tokens) := by
      simp [encode]
    rw [cons, List.length_cons, List.length_append] at enough
    cases fuel with
    | zero => omega
    | succ fuel =>
      have inside : token.length < (token ++ encode tokens).length + 1 := by
        rw [List.length_append]
        omega
      rw [cons, entries, length, if_pos inside, List.take_left' rfl, List.drop_left' rfl,
        ih (fun other member => short other (List.mem_cons_of_mem _ member)) (by omega)]

theorem roundUp_toNat {mapSize : UInt32} (fits : mapSize.toNat + 63 < 2 ^ 32) :
    (roundUp mapSize).toNat = (mapSize.toNat + 63) / 64 * 64 := by
  have rest : (mapSize % 64).toNat = mapSize.toNat % 64 := UInt32.toNat_mod _ _
  unfold roundUp
  split
  · next other =>
    have six : (6 : UInt32).toNat % 32 = 6 := rfl
    have sum : (mapSize + 63).toNat = mapSize.toNat + 63 := by
      rw [UInt32.toNat_add]
      exact Nat.mod_eq_of_lt fits
    rw [UInt32.toNat_shiftLeft, UInt32.toNat_shiftRight, six, sum, Nat.shiftRight_eq_div_pow,
      Nat.shiftLeft_eq]
    omega
  · next same =>
    have zero : mapSize.toNat % 64 = 0 := by
      rw [← rest, not_not.mp same]
      rfl
    omega

theorem State.Good.connected {state : State} (good : state.Good config)
    (started : state.afl = .started) : state.target = .connected ∧ state.toAfl = state.following := by
  have stream := good.stream
  have ended : Afl.started.expected config = [] := rfl
  rw [started, ended, List.nil_append] at stream
  have connected : state.target = .connected := by
    refine good.following.elim (fun none => ?_) id
    rw [none] at stream
    have rest := congrArg List.length (List.append_eq_nil_iff.mp stream).2
    have written := good.proper.rest_length
    rw [List.length_nil] at rest
    by_contra other
    simp only [other, and_false, or_false] at written
    omega
  rw [connected, Target.rest, List.append_nil] at stream
  exact ⟨connected, stream⟩

/-- When AFL has started, the two hold the same and every byte of the handshake is read, and none
behind it. Until then one of them can go on, unless AFL has refused what it does not accept. -/
theorem handshake_agrees {tokens : List (List UInt8)}
    (short : ∀ token ∈ tokens, token.length < 256) (written : config.dictionary = encode tokens)
    (fits : config.mapSize.toNat + 63 < 2 ^ 32)
    (known : config.fsrv.useShmemFuzz = true → config.sharedmemFuzzing = true)
    {state : State} (reachable : (handshake config).Reachable state) :
    (state.afl = .started →
      state.fsrv.mapSize.toNat = (config.mapSize.toNat + 63) / 64 * 64 ∧
      state.fsrv.realMapSize = config.mapSize ∧
      state.fsrv.useShmemFuzz = config.sharedmemFuzzing ∧
      state.fsrv.extras = config.fsrv.extras ++ (if config.addsExtras then tokens else []) ∧
      state.target = .connected ∧ state.toAfl = state.following ∧ state.toTarget = []) ∧
    (state.afl = .fatal → ¬ config.Accepted) ∧
    (state.afl ≠ .started → state.afl ≠ .fatal →
      ∃ action next, (handshake config).step state action = some next) := by
  rcases sound_of_reachable reachable with good | ⟨fatal, reason⟩
  · refine ⟨fun started => ?_, fun fatal => ?_, fun waits _ => good.goes_on waits⟩
    · have holds := good.holds
      rw [started] at holds
      have agreed : state.fsrv = config.agreed := holds
      obtain ⟨connected, following⟩ := good.connected started
      have nothing := good.toTarget_nil (by simp [connected])
      have flag : (config.fsrv.useShmemFuzz || config.sharedmemFuzzing) = config.sharedmemFuzzing :=
        Bool.or_eq_right_iff_imp.mpr known
      have listed : entries config.dictionary.length config.dictionary = tokens := by
        rw [written]
        exact entries_encode short (Nat.le_refl _)
      refine ⟨?_, ?_, ?_, ?_, connected, following, nothing⟩
      · rw [agreed]
        exact roundUp_toNat fits
      · rw [agreed]
        rfl
      · rw [agreed]
        exact flag
      · rw [agreed, Config.agreed, listed]
    · have holds := good.holds
      rw [fatal] at holds
      exact holds.elim
  · refine ⟨fun started => ?_, fun _ => reason, fun _ other => absurd fatal other⟩
    rw [fatal] at started
    cases started

/-- A target with a map of 100 bytes, the shared memory and one token. -/
def plainConfig (addsExtras : Bool) : Config where
  mapSize := 100
  sharedmemFuzzing := true
  dictionary := [2, 0x61, 0x62]
  dictionary_lt := by decide
  fsrv := ⟨0, 0, false, []⟩
  supportShmemFuzz := true
  addsExtras

/-- The writes and reads one after another, with the dictionary in two pieces. -/
def plainRun : List Action :=
  [.target 0, .afl 0, .target 0, .target 0, .afl 0, .target 0, .afl 0, .target 0, .afl 0,
    .target 1, .afl 1, .target 2, .afl 2, .target 0, .afl 0]

theorem handshake_agrees_plain : ∃ state, (handshake (plainConfig true)).run plainRun = some state ∧
    state.afl = .started ∧ state.fsrv.mapSize.toNat = 128 ∧
    state.fsrv.extras = [[0x61, 0x62]] := by
  obtain ⟨state, ran, started⟩ : ∃ state, (handshake (plainConfig true)).run plainRun = some state ∧
      state.afl = .started := ⟨_, rfl, rfl⟩
  have agrees := (@handshake_agrees (plainConfig true) [[0x61, 0x62]] (by simp) rfl (by decide)
    (fun _ => rfl) state ⟨_, ran⟩).1 started
  exact ⟨state, ran, started, agrees.1, agrees.2.2.2.1⟩

/-- AFL without dictionaries reads the token and drops it. -/
theorem handshake_ignores_token : ∃ state,
    (handshake (plainConfig false)).run plainRun = some state ∧ state.afl = .started ∧
      (plainConfig false).dictionary = encode [[0x61, 0x62]] ∧ state.fsrv.extras = [] :=
  ⟨_, rfl, rfl, rfl, rfl⟩

end

end SbFuzz.Fuzzer.Handshake
