import SbFuzz.Fuzzer.TrimCase

/-! The candidates of `trim_case`, what it makes of a test case, and that it ends. -/

set_option autoImplicit false

namespace SbFuzz.Fuzzer.TrimCase

/-! ## Memory -/

@[simp] theorem bytes_length (memory : Memory) (start len : Nat) :
    (bytes memory start len).length = len := by simp [bytes]

theorem bytes_append (memory : Memory) (start first second : Nat) :
    bytes memory start (first + second) =
      bytes memory start first ++ bytes memory (start + first) second := by
  unfold bytes
  rw [List.range_add, List.map_append, List.map_map]
  refine congrArg _ (List.map_congr_left fun k _ => ?_)
  rw [Function.comp_apply, Nat.add_assoc]

theorem bytes_congr {left right : Memory} {start begin' len : Nat}
    (same : ∀ k < len, left (start + k) = right (begin' + k)) :
    bytes left start len = bytes right begin' len :=
  List.map_congr_left fun k member => same k (List.mem_range.mp member)

/-- The buffer without a range of it. -/
def gap (buffer : List UInt8) (pos avail : Nat) : List UInt8 :=
  buffer.take pos ++ buffer.drop (pos + avail)

theorem gap_sublist (buffer : List UInt8) (pos avail : Nat) :
    List.Sublist (gap buffer pos avail) buffer := by
  have tail : List.Sublist (buffer.drop (pos + avail)) (buffer.drop pos) := by
    rw [← List.drop_drop]
    exact List.drop_sublist _ _
  have whole := (List.Sublist.refl (buffer.take pos)).append tail
  rwa [List.take_append_drop] at whole

theorem gap_bytes (memory : Memory) {pos avail len : Nat} (inside : pos + avail ≤ len) :
    gap (bytes memory 0 len) pos avail =
      bytes memory 0 pos ++ bytes memory (pos + avail) (len - pos - avail) := by
  obtain ⟨tail, rfl⟩ := Nat.exists_eq_add_of_le inside
  have rest : pos + avail + tail - pos - avail = tail := by omega
  unfold gap
  rw [rest]
  congr 1
  · rw [Nat.add_assoc, bytes_append]
    exact List.take_left' (bytes_length ..)
  · rw [bytes_append, Nat.zero_add]
    exact List.drop_left' (bytes_length ..)

theorem bytes_copy (target source : Memory) (dst src len : Nat) :
    bytes (copy target dst source src len) 0 (dst + len) =
      bytes target 0 dst ++ bytes source src len := by
  rw [bytes_append]
  congr 1
  · refine bytes_congr fun k below => ?_
    exact if_neg fun inside => by omega
  · refine bytes_congr fun k below => ?_
    unfold copy
    rw [if_pos (by omega), Nat.zero_add, Nat.add_sub_cancel_left]

theorem State.content_remove (state : State) {pos avail : Nat} (inside : pos + avail ≤ state.q.len) :
    (state.remove pos avail).content = gap state.content pos avail := by
  have len : state.q.len - avail = pos + (state.q.len - pos - avail) := by omega
  unfold State.content
  rw [gap_bytes _ inside]
  exact (congrArg _ len).trans (bytes_copy _ _ _ _ _)

/-! ## Writing -/

/-- Calls of `write` that take all bytes. -/
def Os.Complete (os : Os) : Prop := ∀ call len, os.written call len = len

theorem File.write_nil (file : File) : file.write [] = file := by
  cases file
  simp [write]

theorem ckWrite_complete {os : Os} (complete : os.Complete) (calls : Nat) (file : File)
    (memory : Memory) (start len : Nat) :
    (ckWrite os calls file memory start len).2 = file.write (bytes memory start len) := by
  unfold ckWrite
  cases len with
  | zero => exact (File.write_nil file).symm
  | succ rounds =>
    rw [if_neg (Nat.succ_ne_zero _), ckWriteLoop, complete, if_neg fun short => short.1 rfl]

theorem File.write_write (old first second : List UInt8) :
    ((File.write ⟨old, 0⟩ first).write second).data =
      first ++ second ++ old.drop (first.length + second.length) := by
  have start : (File.write ⟨old, 0⟩ first).data = first ++ old.drop first.length := by
    simp [File.write]
  have offset : (File.write ⟨old, 0⟩ first).offset = first.length := Nat.zero_add _
  unfold File.write at start offset ⊢
  dsimp only at start offset ⊢
  rw [start, offset, List.take_left' rfl, List.drop_append, List.drop_of_length_le (by omega),
    List.nil_append, List.drop_drop]
  congr 2
  omega

theorem truncate_append (first second : List UInt8) :
    truncate (first ++ second) first.length = first := by
  have long : first.length - (first ++ second).length = 0 := by simp
  rw [truncate, long, List.take_left' rfl, List.replicate_zero, List.append_nil]

theorem received_gap {env : Env} (plain : env.postProcess = []) (complete : env.os.Complete)
    (state : State) {pos avail : Nat} (inside : pos + avail ≤ state.q.len) :
    env.received (writeWithGap env state pos avail).fsrv = gap state.content pos avail := by
  have len : state.q.len - avail = pos + (state.q.len - pos - avail) := by omega
  unfold writeWithGap Env.received State.content
  rw [gap_bytes _ inside]
  simp only [plain, List.isEmpty_nil, if_true]
  by_cases shared : env.useShmemFuzz = true
  · simp only [shared, if_true]
    rw [len, bytes_copy]
    congr 1
    have head := bytes_copy state.fsrv.shmem state.inBuf 0 0 pos
    rwa [Nat.zero_add] at head
  · simp only [shared, if_false, Bool.false_eq_true]
    rw [ckWrite_complete complete, ckWrite_complete complete]
    unfold Env.openFile
    by_cases stdin : env.useStdin = true
    · simp only [stdin, if_true]
      rw [File.write_write, len]
      have size : pos + (state.q.len - pos - avail) = (bytes state.inBuf 0 pos ++
          bytes state.inBuf (pos + avail) (state.q.len - pos - avail)).length := by simp
      rw [size]
      exact truncate_append _ _
    · simp only [stdin, if_false, Bool.false_eq_true]
      rw [File.write_write, List.drop_nil, List.append_nil]

/-! ## The loops -/

/-- What is left of a buffer when chunks are deleted, each at a multiple of its length and cut at
the end of the buffer. -/
inductive Trimmed (original : List UInt8) : List UInt8 → Prop where
  | whole : Trimmed original original
  | chunk {buffer : List UInt8} {removeLen k : Nat} :
      Trimmed original buffer → 0 < removeLen → k * removeLen < buffer.length →
      Trimmed original
        (gap buffer (k * removeLen) (min removeLen (buffer.length - k * removeLen)))

theorem Trimmed.sublist {original buffer : List UInt8} (trimmed : Trimmed original buffer) :
    List.Sublist buffer original := by
  induction trimmed with
  | whole => exact .refl _
  | chunk _ _ _ ih => exact (gap_sublist _ _ _).trans ih

def maxFile : Nat := 1 * 1024 * 1024

/-- The state of the trimming of a buffer, for a target with these checksums. -/
structure State.Sound (cksum : List UInt8 → UInt64) (original : List UInt8) (state : State) :
    Prop where
  trimmed : Trimmed original state.content
  same : cksum state.content = cksum original
  entry : state.q.execCksum = cksum original
  short : state.q.len ≤ maxFile
  exact : ∀ candidate ∈ state.candidates,
    candidate.received = gap candidate.buffer candidate.removePos candidate.trimAvail

theorem writeWithGap_q (env : Env) (state : State) (pos avail : Nat) :
    (writeWithGap env state pos avail).q = state.q ∧
      (writeWithGap env state pos avail).inBuf = state.inBuf := by
  unfold writeWithGap
  dsimp only
  split
  · exact ⟨rfl, rfl⟩
  · exact ⟨rfl, rfl⟩

theorem State.attempt_content (env : Env) (state : State) (pos avail : Nat) :
    (state.attempt env pos avail).1.q = state.q ∧
      (state.attempt env pos avail).1.content = state.content := by
  obtain ⟨q, inBuf⟩ := writeWithGap_q env state pos avail
  refine ⟨q, ?_⟩
  unfold State.content
  exact congrArg₂ (fun memory len => bytes memory 0 len) inBuf (congrArg QueueEntry.len q)

section

variable {env : Env} {cksum : List UInt8 → UInt64} {original : List UInt8}
  (deterministic : ∀ k input, (env.runs k input).cksum = cksum input)
  (plain : env.postProcess = []) (complete : env.os.Complete)

include plain complete in
theorem State.Sound.attempt {state : State} (sound : state.Sound cksum original) {pos avail : Nat}
    (inside : pos + avail ≤ state.q.len) :
    (state.attempt env pos avail).1.Sound cksum original := by
  obtain ⟨q, content⟩ := state.attempt_content env pos avail
  refine ⟨content ▸ sound.trimmed, content ▸ sound.same, q ▸ sound.entry, q ▸ sound.short,
    fun candidate member => ?_⟩
  · rcases List.mem_append.mp member with old | new
    · exact sound.exact candidate old
    · cases List.mem_singleton.mp new
      exact received_gap plain complete state inside

include deterministic plain complete in
/-- A candidate with the checksum of the entry replaces the buffer. -/
theorem State.Sound.remove {state : State} (sound : state.Sound cksum original) {pos avail : Nat}
    (inside : pos + avail ≤ state.q.len) (chunk : Trimmed original (gap state.content pos avail))
    (accepted : (state.attempt env pos avail).2.cksum = state.q.execCksum) :
    ((state.attempt env pos avail).1.remove pos avail).Sound cksum original := by
  have tried := sound.attempt plain complete inside
  obtain ⟨q, content⟩ := state.attempt_content env pos avail
  have removed : ((state.attempt env pos avail).1.remove pos avail).content =
      gap state.content pos avail := by
    rw [State.content_remove _ (q.symm ▸ inside), content]
  refine ⟨removed.symm ▸ chunk, ?_, tried.entry,
    Nat.le_trans (Nat.sub_le _ _) (q.symm ▸ sound.short), tried.exact⟩
  have run : (state.attempt env pos avail).2 =
      env.runs state.execs (env.received (writeWithGap env state pos avail).fsrv) := rfl
  rw [removed, ← sound.entry, ← accepted, run, deterministic,
    received_gap plain complete state inside]

include deterministic plain complete in
/-- The inner loop ends, since what is left behind the position gets shorter. -/
theorem trimChunks_sound {removeLen : Nat} (positive : 0 < removeLen) (small : removeLen < 2 ^ 30)
    {fuel k : Nat} {state : State} (sound : state.Sound cksum original)
    (enough : state.q.len - k * removeLen ≤ fuel) :
    ∃ ended, trimChunks env fuel removeLen (k * removeLen) state = some ended ∧
      ended.state.Sound cksum original := by
  induction fuel generalizing k state with
  | zero =>
    refine ⟨.done state, ?_, sound⟩
    rw [trimChunks, if_neg (by omega)]
  | succ fuel ih =>
    unfold trimChunks
    split
    · next before =>
      have inside : k * removeLen + min removeLen (state.q.len - k * removeLen) ≤ state.q.len := by
        omega
      obtain ⟨q, content⟩ := state.attempt_content env (k * removeLen)
        (min removeLen (state.q.len - k * removeLen))
      have tried := sound.attempt plain complete inside
      dsimp only
      split
      · exact ⟨_, rfl, tried⟩
      · split
        · next accepted =>
          have length : state.content.length = state.q.len := bytes_length _ _ _
          have chunk := Trimmed.chunk sound.trimmed positive (length.symm ▸ before)
          rw [length] at chunk
          refine ih (sound.remove deterministic plain complete inside chunk accepted) ?_
          have shorter : ((state.attempt env (k * removeLen)
              (min removeLen (state.q.len - k * removeLen))).1.remove (k * removeLen)
              (min removeLen (state.q.len - k * removeLen))).q.len =
              state.q.len - min removeLen (state.q.len - k * removeLen) :=
            congrArg (fun q => QueueEntry.len q - _) q
          rw [shorter]
          omega
        · have short := sound.short
          have next : (k * removeLen + removeLen) % 2 ^ 32 = (k + 1) * removeLen := by
            unfold maxFile at short
            rw [Nat.mod_eq_of_lt (by omega), Nat.add_mul, Nat.one_mul]
          rw [next]
          refine ih tried ?_
          rw [q, Nat.add_mul]
          omega
    · exact ⟨_, rfl, sound⟩

include deterministic plain complete in
/-- The outer loop ends, since the chunks get shorter. -/
theorem trimStages_sound {inner fuel removeLen : Nat} {state : State} (long : maxFile ≤ inner)
    (small : removeLen < 2 ^ 30) (enough : removeLen ≤ fuel)
    (sound : state.Sound cksum original) :
    ∃ ended, trimStages env inner fuel removeLen state = some ended ∧
      ended.state.Sound cksum original := by
  induction fuel generalizing removeLen state with
  | zero =>
    refine ⟨.done state, ?_, sound⟩
    rw [trimStages, if_neg]
    unfold trimMinBytes
    omega
  | succ fuel ih =>
    unfold trimStages
    split
    · next goes =>
      have positive : 0 < removeLen := by
        unfold trimMinBytes at goes
        omega
      have room : state.q.len - 1 * removeLen ≤ inner :=
        Nat.le_trans (Nat.sub_le _ _) (Nat.le_trans sound.short long)
      obtain ⟨ended, chunks, after⟩ :=
        trimChunks_sound deterministic plain complete positive small sound room
      rw [Nat.one_mul] at chunks
      dsimp only
      rw [chunks]
      cases ended with
      | abort trimmed => exact ⟨_, rfl, after⟩
      | done trimmed => exact ih (by omega) (by omega) after
    · exact ⟨_, rfl, sound⟩

end

/-! ## The whole function -/

theorem rewriteLoop_complete {os : Os} (complete : os.Complete) (inBuf : Memory) (len calls : Nat)
    (file : File) {fuel : Nat} (positive : 0 < fuel) :
    ∃ written, rewriteLoop os inBuf len fuel calls file 0 = some written := by
  cases fuel with
  | zero => exact absurd positive (Nat.lt_irrefl 0)
  | succ fuel =>
    unfold rewriteLoop
    split
    · dsimp only
      rw [complete, Nat.zero_add, Nat.sub_zero, rewriteLoop.eq_def, if_neg (Nat.lt_irrefl _)]
      exact ⟨_, rfl⟩
    · exact ⟨_, rfl⟩

theorem State.save_complete {env : Env} (complete : env.os.Complete) {fuel : Nat}
    (positive : 0 < fuel) (state : State) :
    ∃ saved, state.save env fuel = some saved ∧ saved.content = state.content ∧
      saved.candidates = state.candidates := by
  unfold State.save
  split
  · obtain ⟨written, rewrites⟩ :=
      rewriteLoop_complete complete state.inBuf state.q.len state.calls ⟨[], 0⟩ positive
    rw [rewrites]
    exact ⟨_, rfl, rfl, rfl⟩
  · exact ⟨_, rfl, rfl, rfl⟩

theorem lenPow2_lt (len : Nat) : lenPow2 len < 2 ^ 32 := UInt32.toNat_lt _

/-- Trimming ends with chunks deleted and the same checksum, and runs the target on the buffers
without the trimmed ranges. -/
theorem trimCase_sound {env : Env} {cksum : List UInt8 → UInt64}
    (deterministic : ∀ k input, (env.runs k input).cksum = cksum input)
    (plain : env.postProcess = []) (complete : env.os.Complete) (fsrv : Fsrv) {q : QueueEntry}
    (inBuf : Memory) (short : q.len ≤ maxFile) (known : q.execCksum = cksum (bytes inBuf 0 q.len)) :
    ∃ fuel ended, trimCase env fuel fsrv q inBuf = some ended ∧
      Trimmed (bytes inBuf 0 q.len) ended.state.content ∧
      List.Sublist ended.state.content (bytes inBuf 0 q.len) ∧
      cksum ended.state.content = q.execCksum ∧
      ∀ candidate ∈ ended.state.candidates,
        candidate.received = gap candidate.buffer candidate.removePos candidate.trimAvail := by
  have begins : (start fsrv q inBuf).Sound cksum (bytes inBuf 0 q.len) :=
    ⟨.whole, rfl, known, short, fun _ member => (List.not_mem_nil member).elim⟩
  have small : max (lenPow2 q.len / trimStartSteps) trimMinBytes < 2 ^ 30 := by
    have bound := lenPow2_lt q.len
    unfold trimStartSteps trimMinBytes
    omega
  obtain ⟨ended, stages, sound⟩ := trimStages_sound deterministic plain complete
    (show maxFile ≤ 2 ^ 30 by decide) small (Nat.le_of_lt small) begins
  have ends : ∃ ended, trimCase env (2 ^ 30) fsrv q inBuf = some ended ∧
      ∃ state : State, state.Sound cksum (bytes inBuf 0 q.len) ∧
        ended.state.content = state.content ∧ ended.state.candidates = state.candidates := by
    unfold trimCase
    split
    · exact ⟨_, rfl, _, begins, rfl, rfl⟩
    · rw [stages]
      cases ended with
      | abort trimmed => exact ⟨_, rfl, _, sound, rfl, rfl⟩
      | done trimmed =>
        dsimp only
        split
        · have unprocessed : trimmed.process env = trimmed := by
            simp [State.process, plain]
          obtain ⟨saved, saves, content, candidates⟩ :=
            State.save_complete complete (show 0 < 2 ^ 30 by decide) trimmed
          rw [unprocessed, saves]
          exact ⟨_, rfl, _, sound, content, candidates⟩
        · exact ⟨_, rfl, _, sound, rfl, rfl⟩
  obtain ⟨ended, trims, state, sound, content, candidates⟩ := ends
  refine ⟨2 ^ 30, ended, trims, ?_⟩
  rw [content, candidates, known]
  exact ⟨sound.trimmed, sound.trimmed.sublist, sound.same, sound.exact⟩

/-- A target that looks at the first byte only, with its input in a file. -/
def firstByteEnv : Env where
  os := ⟨fun _ len => len, fun _ _ => Nat.le_refl _⟩
  runs _ input := ⟨.none, (input.headD 0).toUInt64, false⟩
  useShmemFuzz := false
  useStdin := true
  noUnlink := false
  postProcess := []
  postProcessKeepOriginal := false
  minLength := 1
  maxLength := maxFile

theorem trimCase_sound_firstByte : ∃ fuel ended,
    trimCase firstByteEnv fuel ⟨fun _ => 0, 0, []⟩ ⟨12, 7, List.replicate 12 7⟩ (fun _ => 7) =
        some ended ∧
      (ended.state.content.headD 0).toUInt64 = 7 ∧
      List.Sublist ended.state.content (bytes (fun _ => 7) 0 12) := by
  obtain ⟨fuel, ended, trims, _, sublist, same, _⟩ :=
    @trimCase_sound firstByteEnv (fun input => (input.headD 0).toUInt64) (fun _ _ => rfl) rfl
      (fun _ _ => rfl) ⟨fun _ => 0, 0, []⟩ ⟨12, 7, List.replicate 12 7⟩ (fun _ => 7) (by decide) rfl
  exact ⟨fuel, ended, trims, same, sublist⟩

end SbFuzz.Fuzzer.TrimCase
