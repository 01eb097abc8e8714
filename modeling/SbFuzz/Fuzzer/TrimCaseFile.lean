import SbFuzz.Fuzzer.TrimCaseProperties

/-! The file of a test case that `trim_case` has made shorter, for every pattern of short
writes. -/

set_option autoImplicit false

namespace SbFuzz.Fuzzer.TrimCase

/-! ## Short writes -/

/-- The bytes that the first writes from this call on take together, when each write asks for all
that is left. -/
def Os.taken (os : Os) (calls len : Nat) : Nat → Nat
  | 0 => 0
  | k + 1 => os.taken calls len k + os.written (calls + k) (len - os.taken calls len k)

/-- From the write `k` on, every write takes some bytes and ends at another place than what was
left before it, until one ends at the length. -/
def Os.Finishes (os : Os) (calls len k : Nat) : Prop :=
  ∃ last, k ≤ last ∧ os.taken calls len (last + 1) = len ∧
    ∀ j, k ≤ j → j < last → os.taken calls len j < os.taken calls len (j + 1) ∧
      os.taken calls len j + os.taken calls len (j + 1) ≠ len

/-- From the write `k` on, every write takes bytes that the buffer has at its start and again
where the write stands. -/
def Os.Rewrites (os : Os) (inBuf : Memory) (calls len k : Nat) : Prop :=
  ∀ n, k ≤ n → ∀ j, os.taken calls len n + j < os.taken calls len (n + 1) →
    inBuf j = inBuf (os.taken calls len n + j)

/-- The writes that `trim_case` needs for the file of this state. -/
def State.Saves (env : Env) (state : State) : Prop :=
  if env.noUnlink then env.os.Rewrites state.inBuf state.calls state.q.len 0
  else env.os.Finishes state.calls state.q.len 0

theorem Os.taken_le (os : Os) (calls len k : Nat) : os.taken calls len k ≤ len := by
  induction k with
  | zero => exact Nat.zero_le _
  | succ k ih =>
    have piece := os.written_le (calls + k) (len - os.taken calls len k)
    unfold taken
    omega

theorem Os.taken_mono (os : Os) (calls len : Nat) {k n : Nat} (order : k ≤ n) :
    os.taken calls len k ≤ os.taken calls len n := by
  induction order with
  | refl => exact Nat.le_refl _
  | step _ ih => exact Nat.le_trans ih (Nat.le_add_right _ _)

theorem bytes_inj {left right : Memory} {start begin' len : Nat} :
    bytes left start len = bytes right begin' len ↔
      ∀ k < len, left (start + k) = right (begin' + k) := by
  constructor
  · intro same k below
    have here := congrArg (fun list => list[k]?) same
    simpa [bytes, below] using here
  · exact bytes_congr

/-- An open file whose bytes all come before the offset. -/
def File.AtEnd (file : File) : Prop := file.offset = file.data.length

theorem File.AtEnd.write {file : File} (atEnd : file.AtEnd) (piece : List UInt8) :
    (file.write piece).data = file.data ++ piece ∧ (file.write piece).AtEnd := by
  have data : (file.write piece).data = file.data ++ piece := by
    unfold File.write
    dsimp only
    rw [atEnd, List.take_length, List.drop_of_length_le (Nat.le_add_right _ _), List.append_nil]
  refine ⟨data, ?_⟩
  unfold File.AtEnd
  rw [data, List.length_append, ← atEnd]
  rfl

/-! ## `ck_write` -/

/-- A write after which the loop goes on. -/
theorem Os.Finishes.next {os : Os} {calls len k : Nat}
    (some' : os.taken calls len k < os.taken calls len (k + 1))
    (elsewhere : os.taken calls len k + os.taken calls len (k + 1) ≠ len)
    (left : os.taken calls len (k + 1) ≠ len) :
    os.Finishes calls len k ↔ os.Finishes calls len (k + 1) := by
  constructor
  · intro ⟨last, after, ends, before⟩
    have later : last ≠ k := fun same => left (same ▸ ends)
    exact ⟨last, by omega, ends, fun j above => before j (by omega)⟩
  · intro ⟨last, after, ends, before⟩
    refine ⟨last, by omega, ends, fun j above below => ?_⟩
    by_cases here : j = k
    · exact here ▸ ⟨some', elsewhere⟩
    · exact before j (by omega) below

/-- A write after which the loop ends although bytes are left. -/
theorem Os.not_finishes {os : Os} {calls len k : Nat} (left : os.taken calls len (k + 1) ≠ len)
    (stops : os.taken calls len k = os.taken calls len (k + 1) ∨
      os.taken calls len k + os.taken calls len (k + 1) = len) : ¬ os.Finishes calls len k := by
  intro ⟨last, after, ends, before⟩
  have later : last ≠ k := fun same => left (same ▸ ends)
  obtain ⟨some', elsewhere⟩ := before k (Nat.le_refl k) (by omega)
  cases stops with
  | inl nothing => exact absurd nothing (Nat.ne_of_lt some')
  | inr here => exact elsewhere here

theorem ckWriteLoop_finishes_iff {os : Os} {memory : Memory} {calls len rounds k off : Nat}
    {file : File} (atEnd : file.AtEnd) (left : os.taken calls len k < len)
    (enough : len - os.taken calls len k ≤ rounds) :
    (ckWriteLoop os memory rounds (calls + k) file (os.taken calls len k) off
        (len - os.taken calls len k)).2.data =
      file.data ++ bytes memory off (len - os.taken calls len k) ↔ os.Finishes calls len k := by
  induction rounds generalizing k off file with
  | zero => omega
  | succ rounds ih =>
    obtain ⟨data, stays⟩ :=
      atEnd.write (bytes memory off (os.written (calls + k) (len - os.taken calls len k)))
    have next : os.taken calls len (k + 1) =
      os.taken calls len k + os.written (calls + k) (len - os.taken calls len k) := rfl
    have bound := os.taken_le calls len (k + 1)
    unfold ckWriteLoop
    dsimp only
    split
    · next goes =>
      have step : os.Finishes calls len k ↔ os.Finishes calls len (k + 1) :=
        Os.Finishes.next (by omega) (by omega) (by omega)
      have rest : len - os.taken calls len k - os.written (calls + k) (len - os.taken calls len k) =
          len - os.taken calls len (k + 1) := by omega
      have whole : len - os.taken calls len k =
          os.written (calls + k) (len - os.taken calls len k) +
            (len - os.taken calls len (k + 1)) := by omega
      have later := @ih (k + 1) (off + os.written (calls + k) (len - os.taken calls len k)) _ stays
        (by omega) (by omega)
      rw [step, ← later, rest, data, List.append_assoc, ← bytes_append, ← whole, next, Nat.add_assoc]
    · next stops =>
      rw [data]
      by_cases all : os.written (calls + k) (len - os.taken calls len k) =
          len - os.taken calls len k
      · rw [all]
        have ends : os.taken calls len (k + 1) = len := by omega
        exact iff_of_true rfl ⟨k, Nat.le_refl k, ends, fun j above below => by omega⟩
      · refine iff_of_false (fun same => ?_) (Os.not_finishes (by omega) (by omega))
        have lengths := congrArg List.length (List.append_cancel_left same)
        rw [bytes_length, bytes_length] at lengths
        exact all lengths

theorem ckWrite_finishes_iff (os : Os) (calls : Nat) (memory : Memory) (len : Nat) :
    (ckWrite os calls ⟨[], 0⟩ memory 0 len).2.data = bytes memory 0 len ↔
      os.Finishes calls len 0 := by
  unfold ckWrite
  split
  · next empty =>
    have ends : os.taken calls len 1 = len := by
      have bound := os.taken_le calls len 1
      omega
    subst empty
    exact iff_of_true rfl ⟨0, Nat.le_refl 0, ends, fun j above below => by omega⟩
  · exact ckWriteLoop_finishes_iff (k := 0) rfl (Nat.pos_of_ne_zero ‹_›) (Nat.le_refl _)

/-! ## The file that is not unlinked -/

theorem Os.rewrites_succ {os : Os} {inBuf : Memory} {calls len k : Nat} :
    os.Rewrites inBuf calls len k ↔
      (∀ j, os.taken calls len k + j < os.taken calls len (k + 1) →
        inBuf j = inBuf (os.taken calls len k + j)) ∧ os.Rewrites inBuf calls len (k + 1) := by
  constructor
  · intro rewrites
    exact ⟨rewrites k (Nat.le_refl k), fun n after => rewrites n (by omega)⟩
  · intro ⟨here, later⟩ n after
    by_cases first : n = k
    · exact first ▸ here
    · exact later n (by omega)

theorem Os.rewrites_of_taken {os : Os} (inBuf : Memory) {calls len k : Nat}
    (all : os.taken calls len k = len) : os.Rewrites inBuf calls len k := by
  intro n after j below
  have before := os.taken_mono calls len after
  have bound := os.taken_le calls len (n + 1)
  omega

theorem append_piece_iff {data : List UInt8} {inBuf : Memory} {len : Nat} (piece : Nat)
    (length : data.length = len) :
    data ++ bytes inBuf 0 piece = bytes inBuf 0 (len + piece) ↔
      data = bytes inBuf 0 len ∧ ∀ j < piece, inBuf j = inBuf (len + j) := by
  rw [bytes_append, Nat.zero_add]
  constructor
  · intro same
    obtain ⟨before, behind⟩ := List.append_inj same (length.trans (bytes_length _ _ _).symm)
    refine ⟨before, fun j below => ?_⟩
    have here := bytes_inj.mp behind j below
    rwa [Nat.zero_add] at here
  · intro ⟨before, behind⟩
    rw [before]
    refine congrArg _ (bytes_congr fun j below => ?_)
    rw [Nat.zero_add]
    exact behind j below

theorem rewriteLoop_rewrites_iff {os : Os} {inBuf : Memory} {calls len fuel k : Nat} {file : File}
    {written : Nat × File} (atEnd : file.AtEnd) (length : file.data.length = os.taken calls len k)
    (rewrites : rewriteLoop os inBuf len fuel (calls + k) file (os.taken calls len k) =
      some written) :
    written.2.data = bytes inBuf 0 len ↔
      file.data = bytes inBuf 0 (os.taken calls len k) ∧ os.Rewrites inBuf calls len k := by
  induction fuel generalizing k file with
  | zero =>
    rw [rewriteLoop] at rewrites
    split at rewrites
    · cases rewrites
    · next complete =>
      have all := Nat.le_antisymm (os.taken_le calls len k) (Nat.le_of_not_lt complete)
      cases rewrites
      rw [all]
      exact (and_iff_left (Os.rewrites_of_taken inBuf all)).symm
  | succ fuel ih =>
    unfold rewriteLoop at rewrites
    split at rewrites
    · have next : os.taken calls len (k + 1) =
        os.taken calls len k + os.written (calls + k) (len - os.taken calls len k) := rfl
      obtain ⟨data, stays⟩ :=
        atEnd.write (bytes inBuf 0 (os.written (calls + k) (len - os.taken calls len k)))
      have longer := congrArg List.length data
      rw [List.length_append, length, bytes_length] at longer
      have later := ih (k := k + 1) stays longer rewrites
      rw [later, data, next, append_piece_iff _ length, and_assoc, Os.rewrites_succ (k := k)]
      simp only [next, Nat.add_lt_add_iff_left]
    · next complete =>
      have all := Nat.le_antisymm (os.taken_le calls len k) (Nat.le_of_not_lt complete)
      cases rewrites
      rw [all]
      exact (and_iff_left (Os.rewrites_of_taken inBuf all)).symm

/-- The file is the buffer exactly after these writes. -/
theorem State.save_agrees_iff {env : Env} {fuel : Nat} {state saved : State}
    (saves : state.save env fuel = some saved) :
    saved.q.file = saved.content ↔ state.Saves env := by
  unfold State.save at saves
  unfold State.Saves
  split at saves
  · next kept =>
    rw [if_pos kept]
    obtain ⟨written, rewrites, rfl⟩ := Option.map_eq_some_iff.mp saves
    have atEnd : File.AtEnd ⟨[], 0⟩ := rfl
    have whole := rewriteLoop_rewrites_iff (k := 0) atEnd rfl rewrites
    exact whole.trans (and_iff_right rfl)
  · next unlinked =>
    rw [if_neg unlinked]
    cases saves
    exact ckWrite_finishes_iff env.os state.calls state.inBuf state.q.len

/-! ## Trimming that is interrupted -/

/-- A run after which `trim_case` gives up. -/
def Run.Interrupts (run : Run) : Prop := run.stopSoon = true ∨ run.fault = .error

theorem Run.interrupts_iff (run : Run) :
    (run.stopSoon || run.fault == .error) = true ↔ run.Interrupts := by
  simp [Interrupts]

/-- One of the runs on the candidates is such a run. -/
def Env.Interrupted (env : Env) (state : State) : Prop :=
  ∃ k candidate, state.candidates[k]? = some candidate ∧ (env.runs k candidate.received).Interrupts

/-- A state before the file is written, of an entry that was `q` at first. -/
structure State.Unwritten (q : QueueEntry) (state : State) : Prop where
  numbered : state.execs = state.candidates.length
  file : state.q.file = q.file
  bound : state.q.len ≤ q.len
  shorter : state.needsWrite = true → state.q.len < q.len

theorem writeWithGap_needsWrite (env : Env) (state : State) (pos avail : Nat) :
    (writeWithGap env state pos avail).needsWrite = state.needsWrite := by
  unfold writeWithGap
  dsimp only
  split
  · rfl
  · rfl

theorem State.Unwritten.attempt {q : QueueEntry} {state : State} (unwritten : state.Unwritten q)
    (env : Env) (pos avail : Nat) : (state.attempt env pos avail).1.Unwritten q := by
  obtain ⟨same, -⟩ := state.attempt_content env pos avail
  have marks : (state.attempt env pos avail).1.needsWrite = state.needsWrite :=
    writeWithGap_needsWrite env state pos avail
  constructor
  · exact (congrArg (· + 1) unwritten.numbered).trans (by simp [State.attempt])
  · rw [same]
    exact unwritten.file
  · rw [same]
    exact unwritten.bound
  · rw [same, marks]
    exact unwritten.shorter

theorem State.Unwritten.remove {q : QueueEntry} {state : State} (unwritten : state.Unwritten q)
    {pos avail : Nat} (some' : 0 < avail) (inside : pos + avail ≤ state.q.len) :
    (state.remove pos avail).Unwritten q := by
  have bound := unwritten.bound
  have len : (state.remove pos avail).q.len = state.q.len - avail := rfl
  exact ⟨unwritten.numbered, unwritten.file, by omega, fun _ => by omega⟩

theorem Env.interrupted_attempt {env : Env} {state : State} {pos avail : Nat}
    (numbered : state.execs = state.candidates.length) :
    env.Interrupted (state.attempt env pos avail).1 ↔
      env.Interrupted state ∨ (state.attempt env pos avail).2.Interrupts := by
  constructor
  · intro ⟨k, candidate, found, interrupts⟩
    rcases Nat.lt_or_ge k state.candidates.length with old | new
    · have before := (List.getElem?_append_left old).symm.trans found
      exact .inl ⟨k, candidate, before, interrupts⟩
    · have last := (List.getElem?_append_right new).symm.trans found
      obtain ⟨inside, rfl⟩ := List.getElem?_eq_some_iff.mp last
      have here : k = state.execs := by
        rw [List.length_singleton] at inside
        omega
      rw [List.getElem_singleton, here] at interrupts
      exact .inr interrupts
  · intro either
    cases either with
    | inl before =>
      obtain ⟨k, candidate, found, interrupts⟩ := before
      have old := (List.getElem?_eq_some_iff.mp found).1
      exact ⟨k, candidate, (List.getElem?_append_left old).trans found, interrupts⟩
    | inr now =>
      refine ⟨state.execs, ⟨state.content, pos, avail,
        env.received (writeWithGap env state pos avail).fsrv⟩, ?_, now⟩
      exact numbered ▸ List.getElem?_concat_length

/-- How a loop leaves the state: it gives up exactly after a run that interrupts it. -/
def Ended.Described (env : Env) (q : QueueEntry) : Ended → Prop
  | .done state => state.Unwritten q ∧ ¬ env.Interrupted state
  | .abort state => state.Unwritten q ∧ env.Interrupted state

theorem trimChunks_described {env : Env} {q : QueueEntry} {fuel removeLen removePos : Nat}
    {state : State} {ended : Ended} (positive : 0 < removeLen) (unwritten : state.Unwritten q)
    (quiet : ¬ env.Interrupted state)
    (chunks : trimChunks env fuel removeLen removePos state = some ended) :
    ended.Described env q := by
  induction fuel generalizing removePos state with
  | zero =>
    rw [trimChunks] at chunks
    split at chunks
    · cases chunks
    · cases chunks
      exact ⟨unwritten, quiet⟩
  | succ fuel ih =>
    unfold trimChunks at chunks
    split at chunks
    · next before =>
      obtain ⟨same, -⟩ := state.attempt_content env removePos
        (min removeLen (state.q.len - removePos))
      have tried := unwritten.attempt env removePos (min removeLen (state.q.len - removePos))
      have interrupted := @Env.interrupted_attempt env state removePos
        (min removeLen (state.q.len - removePos)) unwritten.numbered
      dsimp only at chunks
      split at chunks
      · next gives =>
        cases chunks
        exact ⟨tried, interrupted.mpr (.inr ((Run.interrupts_iff _).mp gives))⟩
      · next goes =>
        have silent : ¬ env.Interrupted (state.attempt env removePos
            (min removeLen (state.q.len - removePos))).1 := by
          rw [interrupted, ← Run.interrupts_iff]
          exact not_or.mpr ⟨quiet, goes⟩
        split at chunks
        · have inside : removePos + min removeLen (state.q.len - removePos) ≤
              (state.attempt env removePos (min removeLen (state.q.len - removePos))).1.q.len := by
            rw [same]
            omega
          exact ih (tried.remove (by omega) inside) silent chunks
        · exact ih tried silent chunks
    · cases chunks
      exact ⟨unwritten, quiet⟩

theorem trimStages_described {env : Env} {q : QueueEntry} {inner fuel removeLen : Nat}
    {state : State} {ended : Ended} (unwritten : state.Unwritten q)
    (quiet : ¬ env.Interrupted state)
    (stages : trimStages env inner fuel removeLen state = some ended) :
    ended.Described env q := by
  induction fuel generalizing removeLen state with
  | zero =>
    rw [trimStages] at stages
    split at stages
    · cases stages
    · cases stages
      exact ⟨unwritten, quiet⟩
  | succ fuel ih =>
    unfold trimStages at stages
    split at stages
    · next goes =>
      have positive : 0 < removeLen := by
        unfold trimMinBytes at goes
        omega
      dsimp only at stages
      cases chunks : trimChunks env inner removeLen removeLen state with
      | none =>
        rw [chunks] at stages
        cases stages
      | some between =>
        have described := trimChunks_described positive unwritten quiet chunks
        rw [chunks] at stages
        cases between with
        | abort trimmed =>
          cases stages
          exact described
        | done trimmed => exact ih described.1 described.2 stages
    · cases stages
      exact ⟨unwritten, quiet⟩

/-! ## The whole function -/

/-- How the loops of `trim_case` end, before the file is written. -/
def trimmedState (env : Env) (fuel : Nat) (fsrv : Fsrv) (q : QueueEntry) (inBuf : Memory) :
    Option Ended :=
  trimStages env fuel fuel (max (lenPow2 q.len / trimStartSteps) trimMinBytes) (start fsrv q inBuf)

/-- After an accepted removal the file is the buffer exactly when no run has interrupted the
trimming and the file is saved whole. -/
theorem trimCase_agrees_iff {env : Env} {fuel : Nat} {fsrv : Fsrv} {q : QueueEntry}
    {inBuf : Memory} {ended : Ended} (recorded : q.file.length = q.len)
    (returns : trimCase env fuel fsrv q inBuf = some ended)
    (removed : ended.state.needsWrite = true) :
    ended.state.q.file = ended.state.content ↔
      ∃ trimmed, trimmedState env fuel fsrv q inBuf = some trimmed ∧
        ¬ env.Interrupted trimmed.state ∧ (trimmed.state.process env).Saves env := by
  have begins : (start fsrv q inBuf).Unwritten q :=
    ⟨rfl, rfl, Nat.le_refl _, fun marked => absurd marked Bool.false_ne_true⟩
  have quiet : ¬ env.Interrupted (start fsrv q inBuf) := by
    intro ⟨k, candidate, found, _⟩
    cases found
  unfold trimCase at returns
  split at returns
  · cases returns
    cases removed
  · cases stages : trimmedState env fuel fsrv q inBuf with
    | none =>
      unfold trimmedState at stages
      rw [stages] at returns
      cases returns
    | some trimmed =>
      have described := trimStages_described begins quiet stages
      unfold trimmedState at stages
      rw [stages] at returns
      cases trimmed with
      | abort trimmed =>
        cases returns
        obtain ⟨unwritten, interrupted⟩ := described
        refine iff_of_false (fun agrees => ?_) fun ⟨other, same, silent, _⟩ => ?_
        · have lengths := congrArg List.length agrees
          have shorter := unwritten.shorter removed
          have content : trimmed.content.length = trimmed.q.len := bytes_length _ _ _
          change trimmed.q.file.length = trimmed.content.length at lengths
          rw [unwritten.file, content] at lengths
          omega
        · cases same
          exact silent interrupted
      | done trimmed =>
        dsimp only at returns
        split at returns
        · obtain ⟨saved, saves, rfl⟩ := Option.map_eq_some_iff.mp returns
          rw [show (Ended.done saved).state = saved from rfl, State.save_agrees_iff saves]
          constructor
          · intro whole
            exact ⟨_, rfl, described.2, whole⟩
          · intro ⟨other, same, _, whole⟩
            cases same
            exact whole
        · next unmarked =>
          cases returns
          exact absurd removed unmarked

theorem trimCase_agrees_iff_firstByte : ∃ ended,
    trimCase firstByteEnv 64 ⟨fun _ => 0, 0, []⟩ ⟨12, 7, List.replicate 12 7⟩ (fun _ => 7) =
        some ended ∧
      (ended.state.q.file = ended.state.content ↔
        ∃ trimmed, trimmedState firstByteEnv 64 ⟨fun _ => 0, 0, []⟩ ⟨12, 7, List.replicate 12 7⟩
            (fun _ => 7) = some trimmed ∧
          ¬ firstByteEnv.Interrupted trimmed.state ∧
          (trimmed.state.process firstByteEnv).Saves firstByteEnv) := by
  obtain ⟨ended, trims, removed⟩ : ∃ ended, trimCase firstByteEnv 64 ⟨fun _ => 0, 0, []⟩
      ⟨12, 7, List.replicate 12 7⟩ (fun _ => 7) = some ended ∧ ended.state.needsWrite = true :=
    ⟨_, rfl, rfl⟩
  exact ⟨ended, trims, trimCase_agrees_iff rfl trims removed⟩

/-- The user stops the fuzzer in the run after the first removal. -/
theorem trimCase_stopped_disagrees : ∃ ended,
    trimCase { firstByteEnv with runs := fun k input => ⟨.none, (input.headD 0).toUInt64, k == 1⟩ }
        64 ⟨fun _ => 0, 0, []⟩ ⟨12, 7, List.replicate 12 7⟩ (fun _ => 7) = some ended ∧
      bytes (fun _ => 7) 0 12 = List.replicate 12 7 ∧ ended.state.needsWrite = true ∧
      ended.state.q.len = 8 ∧ ended.state.q.file = List.replicate 12 7 ∧
      ended.state.q.file ≠ ended.state.content :=
  ⟨_, rfl, rfl, rfl, rfl, rfl, by decide⟩

end SbFuzz.Fuzzer.TrimCase
