import SbFuzz.Fuzzer.TrimCaseCustom

/-! What `trim_case_custom` leaves in the file and in the queue entry: the last
accepted candidate, or what was there before. -/

set_option autoImplicit false

namespace SbFuzz.Fuzzer.TrimCaseCustom

open TrimCase (Memory QueueEntry bytes ckWrite)

variable {env : Env} {q : QueueEntry}

/-! ## Candidates -/

/-- A candidate is accepted for the checksum of its run. Without `afl_custom_fuzz_send`, what is kept
of it was delivered or, to keep the original, is what the mutator returned. -/
structure Attempt.Sound (env : Env) (q : QueueEntry) (attempt : Attempt) : Prop where
  cksum : attempt.accepted ↔ env.hash64 (env.target attempt.delivered).traceBits = q.execCksum
  kept : env.fuzzSend = false →
    if env.postProcessKeepOriginal then 0 < env.maxLength → attempt.kept = attempt.returned
    else attempt.kept = attempt.delivered

/-- What the loop keeps. -/
structure Trims (env : Env) (q : QueueEntry) (state : State) : Prop where
  entry : state.q = q
  outBuf : state.outBuf.map (fun kept => bytes kept.1 0 kept.2) = state.lastAccepted.map Attempt.kept
  sound : ∀ attempt ∈ state.attempts, attempt.Sound env q
  clean : state.outBuf.isSome → env.hash64 state.cleanTraceCustom = q.execCksum

theorem trims_start (env : Env) (q : QueueEntry) : Trims env q (start q) where
  entry := rfl
  outBuf := rfl
  sound := fun _ member => nomatch member
  clean := fun started => nomatch started

def Step.Trims (env : Env) (q : QueueEntry) : Step → Prop
  | .next state => TrimCaseCustom.Trims env q state
  | .aborted state => state.q = q
  | .fatal state => state.q = q

theorem Trims.reject {state : State} (trims : Trims env q state) :
    (state.reject env).Trims env q := by
  unfold State.reject
  extract_lets retval2
  split
  · exact trims.entry
  · exact ⟨trims.entry, trims.outBuf, trims.sound, trims.clean⟩

/-- A candidate that is not accepted. -/
theorem Trims.rejected {state ran : State} (trims : Trims env q state) {attempt : Attempt}
    (sound : attempt.Sound env q) (unlike : attempt.accepted = false) (entry : ran.q = state.q)
    (outBuf : ran.outBuf = state.outBuf) (clean : ran.cleanTraceCustom = state.cleanTraceCustom)
    (attempts : ran.attempts = state.attempts ++ [attempt]) : Trims env q ran where
  entry := entry.trans trims.entry
  outBuf := by
    have same : ran.lastAccepted = state.lastAccepted := by
      simp [State.lastAccepted, attempts, unlike]
    rw [outBuf, same]
    exact trims.outBuf
  sound := by
    rw [attempts]
    intro other member
    rcases List.mem_append.mp member with earlier | here
    · exact trims.sound other earlier
    · exact List.mem_singleton.mp here ▸ sound
  clean := by
    rw [outBuf, clean]
    exact trims.clean

theorem Trims.run {state : State} (trims : Trims env q state) {retbuf : Memory} {len : Nat}
    {delivery : Delivery} (written : writeToTestcase env state.trimExec retbuf len = some delivery) :
    (state.run env retbuf len delivery).Trims env q := by
  unfold State.run
  extract_lets execution same ran attempt tried
  have cksum : same ↔ env.hash64 execution.traceBits = q.execCksum := by
    simp only [same, decide_eq_true_eq, trims.entry]
  have sound : attempt.Sound env q := ⟨cksum, writeToTestcase_kept written⟩
  split
  · exact trims.entry
  · split
    · next accepted =>
      have last : (tried.lastAccepted).map Attempt.kept = some delivery.kept := by
        simp [State.lastAccepted, tried, List.filter_append, attempt, accepted]
      refine ⟨trims.entry, ?_, ?_, ?_⟩
      · exact last.symm
      · intro other member
        rcases List.mem_append.mp member with earlier | here
        · exact trims.sound other earlier
        · exact List.mem_singleton.mp here ▸ sound
      · intro _
        dsimp only
        split
        · exact cksum.mp accepted
        · next started => exact trims.clean (by simpa [Option.isSome_iff_ne_none] using started)
    · next unlike =>
      have kept : Trims env q tried :=
        trims.rejected sound (Bool.eq_false_iff.mpr unlike) rfl rfl rfl rfl
      exact kept.reject

theorem step_trims {state : State} (trims : Trims env q state) : (state.step env).Trims env q := by
  unfold State.step
  split
  · exact trims.entry
  · next retbuf retlen answered =>
    split
    · exact trims.reject
    · next nonempty =>
      extract_lets len
      split
      · exact trims.reject
      · next delivery written =>
        split
        · exact trims.reject
        · exact trims.run written

/-! ## The stage -/

/-- What is said of the file and the entry after the stage. -/
structure Faithful (env : Env) (q : QueueEntry) (state : State) (attempt : Attempt) : Prop where
  /-- The run of what was delivered gave the checksum. -/
  cksum : env.hash64 (env.target attempt.delivered).traceBits = q.execCksum
  execCksum : state.q.execCksum = q.execCksum
  len : state.q.len = attempt.kept.length
  /-- `ck_write` ends early where the writes are cut short in certain ways. -/
  file : env.os.Finishes 0 state.q.len 0 → state.q.file = attempt.kept
  delivered : env.fuzzSend = false → env.postProcessKeepOriginal = false →
    attempt.kept = attempt.delivered
  original : env.fuzzSend = false → env.postProcessKeepOriginal = true → 0 < env.maxLength →
    attempt.kept = attempt.returned
  /-- Running the file gives the checksum. -/
  replay : env.fuzzSend = false → env.postProcessKeepOriginal = false →
    env.os.Finishes 0 state.q.len 0 →
    env.hash64 (env.target state.q.file).traceBits = q.execCksum
  /-- The trace for the scores is one with the checksum. -/
  clean : env.hash64 state.traceBits = q.execCksum

def Ended.Faithful (env : Env) (q : QueueEntry) : Ended → Prop
  | .completed state =>
    match state.lastAccepted with
    | none => state.q = q
    | some attempt => TrimCaseCustom.Faithful env q state attempt
  | .aborted state => state.q = q
  | .fatal state => state.q = q

theorem Trims.finish {state : State} (trims : Trims env q state) :
    (Ended.completed (state.finish env)).Faithful env q := by
  have same : (state.finish env).lastAccepted = state.lastAccepted := by
    unfold State.finish
    split <;> rfl
  have outBuf := trims.outBuf
  simp only [Ended.Faithful, same]
  cases last : state.lastAccepted with
  | none =>
    rw [last] at outBuf
    have unchanged : state.outBuf = none := Option.map_eq_none_iff.mp outBuf
    unfold State.finish
    rw [unchanged]
    exact trims.entry
  | some attempt =>
    rw [last] at outBuf
    obtain ⟨⟨mem, len⟩, saved, kept⟩ := Option.map_eq_some_iff.mp outBuf
    have member := List.mem_filter.mp (List.mem_of_getLast? last)
    have sound := trims.sound attempt member.1
    have finished : state.finish env = { state with
        q := { state.q with len, file := (ckWrite env.os 0 ⟨[], 0⟩ mem 0 len).2.data }
        traceBits := state.cleanTraceCustom } := by
      unfold State.finish
      rw [saved]
    rw [finished]
    have ran := sound.cksum.mp member.2
    have unchanged : state.q.execCksum = q.execCksum := congrArg QueueEntry.execCksum trims.entry
    have file : env.os.Finishes 0 len 0 → (ckWrite env.os 0 ⟨[], 0⟩ mem 0 len).2.data = attempt.kept :=
      fun finishes => ((TrimCase.ckWrite_finishes_iff env.os 0 mem len).mpr finishes).trans kept
    have delivered (unsent : env.fuzzSend = false) (moves : env.postProcessKeepOriginal = false) :
        attempt.kept = attempt.delivered := by
      simpa [moves] using sound.kept unsent
    refine ⟨ran, unchanged, ?_, file, delivered, ?_, ?_, ?_⟩
    · rw [← kept, TrimCase.bytes_length]
    · intro unsent keeps positive
      have stays := sound.kept unsent
      rw [keeps] at stays
      exact stays positive
    · intro unsent moves finishes
      dsimp only at finishes ⊢
      rw [file finishes, delivered unsent moves]
      exact ran
    · exact trims.clean (by rw [saved]; rfl)

theorem loop_faithful {stageMax fuel : Nat} {state : State} {ended : Ended} (trims : Trims env q state)
    (ran : state.loop env stageMax fuel = some ended) : ended.Faithful env q := by
  induction fuel generalizing state with
  | zero =>
    unfold State.loop at ran
    split at ran
    · exact nomatch ran
    · cases ran
      exact trims.finish
  | succ fuel ih =>
    unfold State.loop at ran
    split at ran
    · have stepped := step_trims trims
      cases took : state.step env with
      | next next =>
        rw [took] at ran stepped
        exact ih stepped ran
      | aborted aborted =>
        rw [took] at ran stepped
        cases ran
        exact stepped
      | fatal dead =>
        rw [took] at ran stepped
        cases ran
        exact stepped
    · cases ran
      exact trims.finish

/-- When the stage completes, the last accepted candidate is in the file and in the entry; otherwise
both are as they were. -/
theorem trimCaseCustom_faithful {fuel : Nat} {ended : Ended}
    (ran : trimCaseCustom env fuel q = some ended) : ended.Faithful env q :=
  loop_faithful (trims_start env q) ran

/-! ## A mutator with two steps -/

def ofList (content : List UInt8) : Memory := fun k => content.getD k 0

/-- The candidates are the first two bytes and nothing; the target looks at the first byte. -/
def shrinkEnv : Env where
  os := ⟨fun _ len => len, fun _ len => Nat.le_refl len⟩
  target := fun mem => ⟨.none, [mem.headD 0]⟩
  hash64 := fun trace => (trace.headD 0).toUInt64
  stopSoon := fun _ => false
  initTrim := 2
  trim := fun step => if step = 0 then some (ofList [0x41, 0x42], 2) else some (ofList [], 0)
  postTrim := fun step _ => step + 1
  postProcess := []
  fuzzSend := false
  postProcessKeepOriginal := false
  minLength := 1
  maxLength := 1024 * 1024

def fourBytes : QueueEntry := ⟨4, 0x41, [0x41, 0x42, 0x43, 0x44]⟩

theorem trimCaseCustom_faithful_shrink :
    ∃ ended, trimCaseCustom shrinkEnv 2 fourBytes = some ended ∧ ended.state.q.len = 2 ∧
      ended.Faithful shrinkEnv fourBytes :=
  ⟨_, rfl, rfl, @trimCaseCustom_faithful shrinkEnv fourBytes 2 _ rfl⟩

/-- `AFL_POST_PROCESS_KEEP_ORIGINAL` is set, and a byte is put behind every test case. -/
def keepEnv : Env :=
  { shrinkEnv with
    postProcess := [fun _ content =>
      ⟨ofList content, some (some (ofList (content ++ [0x2e])), content.length + 1)⟩]
    postProcessKeepOriginal := true }

/-- The candidate is stored without the byte that was put behind it. -/
theorem trimCaseCustom_keeps_original :
    ∃ state attempt, trimCaseCustom keepEnv 2 fourBytes = some (.completed state) ∧
      state.lastAccepted = some attempt ∧ attempt.delivered = [0x41, 0x42, 0x2e] ∧
      state.q.file ≠ attempt.delivered ∧ state.q.len ≠ attempt.delivered.length :=
  ⟨_, _, rfl, rfl, rfl, by decide, by decide⟩

end SbFuzz.Fuzzer.TrimCaseCustom
