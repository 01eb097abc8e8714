import SbFuzz.Fuzzer.PersistentRecord

/-! What the files of a record hold of the life of a persistent child. -/

set_option autoImplicit false

namespace SbFuzz.Fuzzer.PersistentRecord

open SbFuzz.Systems.RingBuffer

def Fsrv.inputs (fsrv : Fsrv) : List (Option (List UInt8)) :=
  fsrv.record.oldestFirst.map Entry.file

section

variable {session after : Session} {fsrv : Fsrv} {size : Nat}

theorem Fsrv.length_inputs : fsrv.inputs.length = fsrv.record.slots.length := by
  rw [Fsrv.inputs, List.length_map, RingBuf.length_oldestFirst]

theorem Entry.file_of {buf : List UInt8} (nonempty : buf ≠ []) :
    Entry.file ⟨some buf, buf.length⟩ = some buf := by
  have positive : buf.length ≠ 0 := List.length_eq_zero_iff.not.mpr nonempty
  rw [Entry.file, if_neg positive, Option.map_some, List.take_length]

/-- The cells that the fork server may write of, and the child they are of. -/
structure Tracks (size : Nat) (session : Session) : Prop where
  length : session.fsrv.inputs.length = size
  positive : 0 < size
  recent : ∃ base, base.length = size ∧ (session.life.whole → base = List.replicate size none) ∧
    session.fsrv.inputs = window base session.life.recorded
  earlier : ∃ earlier, session.life.executed = earlier ++ session.life.recorded ∧
    (session.life.whole → earlier = [])

/-- After an interruption the record is taken as it is. -/
theorem Tracks.restart (positive : 0 < size) (length : session.fsrv.inputs.length = size)
    (recorded : session.life.recorded = []) (whole : session.life.whole = false) :
    Tracks size session := by
  refine ⟨length, positive, ⟨session.fsrv.inputs, length, fun isWhole => ?_, ?_⟩,
    session.life.executed, ?_, fun isWhole => ?_⟩
  · rw [whole] at isWhole
    cases isWhole
  · rw [recorded, window_nil]
  · rw [recorded, List.append_nil]
  · rw [whole] at isWhole
    cases isWhole

theorem start_tracks (useShmemFuzz : Bool) (depth : Depth) :
    Tracks depth.entries (.start useShmemFuzz depth) := by
  have slots : (Session.start useShmemFuzz depth).fsrv.record.slots.length = depth.entries :=
    List.length_replicate
  exact Tracks.restart (Nat.lt_of_lt_of_le Nat.two_pos depth.two)
    (Fsrv.length_inputs.trans slots) rfl rfl

/-! ## Steps -/

theorem writeToTestcase_inputs {buf : List UInt8} :
    (fsrv.writeToTestcase buf).inputs =
      fsrv.inputs.tail ++ [Entry.file ⟨some buf, buf.length⟩] := by
  rw [Fsrv.inputs, Fsrv.writeToTestcase, RingBuf.oldestFirst_push, List.map_append, List.map_tail]
  rfl

theorem childPid_inputs {pid : Int} {older : List (Option (List UInt8))}
    {last : Option (List UInt8)} (order : fsrv.inputs = older ++ [last]) :
    (fsrv.childPid pid).inputs =
      if fsrv.persistentRecordPid ≠ pid then List.replicate older.length none ++ [last]
      else fsrv.inputs := by
  rw [Fsrv.childPid]
  split
  · obtain ⟨before, newest, split, rfl, same⟩ := List.map_eq_append_iff.mp order
    obtain ⟨entry, rfl, isLast⟩ := List.map_eq_singleton_iff.mp same
    rw [Fsrv.inputs, RingBuf.oldestFirst_keepNewest Entry.clear split, List.map_append, List.map_map,
      List.length_map, ← isLast]
    exact congrArg (· ++ _) List.map_const'
  · rfl

theorem length_deliver (delivery : Delivery) :
    (fsrv.deliver delivery).inputs.length = fsrv.inputs.length := by
  rw [Fsrv.length_inputs, Fsrv.length_inputs]
  cases delivery with
  | testcase buf => exact List.length_set
  | gap mem skipAt skipLen processed => rfl
  | sent input => rfl

theorem length_childPid (pid : Int) : (fsrv.childPid pid).inputs.length = fsrv.inputs.length := by
  rw [Fsrv.length_inputs, Fsrv.length_inputs, Fsrv.childPid]
  split
  · exact List.length_set.trans (List.length_map _)
  · rfl

theorem deliver_pid (delivery : Delivery) :
    (fsrv.deliver delivery).persistentRecordPid = fsrv.persistentRecordPid := by
  cases delivery <;> rfl

theorem deliver_cnt (delivery : Delivery) (pid : Int) :
    ((fsrv.deliver delivery).childPid pid).persistentRecordCnt = fsrv.persistentRecordCnt := by
  rw [Fsrv.childPid]
  split <;> cases delivery <;> rfl

theorem deliver_recorded {delivery : Delivery} (recorded : delivery.Recorded fsrv.useShmemFuzz) :
    (fsrv.deliver delivery).inputs =
      fsrv.inputs.tail ++ [some (fsrv.deliver delivery).testcase] := by
  cases delivery with
  | testcase buf =>
      obtain ⟨nonempty, fits⟩ := recorded
      have read : (fsrv.writeToTestcase buf).testcase = buf := by
        rw [Fsrv.writeToTestcase]
        simp only
        split
        · next shmem => exact List.take_of_length_le (fits shmem)
        · rfl
      rw [Fsrv.deliver, writeToTestcase_inputs, Entry.file_of nonempty, read]
  | gap mem skipAt skipLen processed => exact recorded.elim
  | sent input => exact recorded.elim

theorem runTarget_cases {run : Run} {later : Fsrv} {files : List RecordFile}
    (ran : fsrv.runTarget run = some (later, files)) :
    later.record = (fsrv.childPid (run.pid fsrv)).record ∧ later.testcase = fsrv.testcase ∧
      files = if run.fault = .tmout ∨ run.fault = .crash then
        (fsrv.childPid (run.pid fsrv)).storePersistentRecord run.fault run.opens else [] := by
  rw [Fsrv.runTarget] at ran
  have same : (fsrv.childPid (run.pid fsrv)).testcase = fsrv.testcase := by
    rw [Fsrv.childPid]
    split <;> rfl
  split at ran
  · cases ran
  · simp only at ran
    split at ran
    · next failed =>
      obtain ⟨rfl, rfl⟩ := Prod.mk.inj (Option.some.inj ran)
      exact ⟨rfl, same, (if_pos failed).symm⟩
    · next fine =>
      obtain ⟨rfl, rfl⟩ := Prod.mk.inj (Option.some.inj ran)
      exact ⟨rfl, same, (if_neg fine).symm⟩

theorem execute_tracks (tracks : Tracks size session) {delivery : Delivery} {run : Run}
    {later : Fsrv} {files : List RecordFile}
    (ran : (session.fsrv.deliver delivery).runTarget run = some (later, files)) :
    Tracks size ⟨later, session.life.execute session.fsrv delivery run⟩ := by
  obtain ⟨sameRecord, _, _⟩ := runTarget_cases ran
  have inputs : later.inputs =
      ((session.fsrv.deliver delivery).childPid (run.pid (session.fsrv.deliver delivery))).inputs := by
    rw [Fsrv.inputs, sameRecord]
    rfl
  have length : later.inputs.length = size := by
    rw [inputs, length_childPid, length_deliver]
    exact tracks.length
  by_cases recorded : delivery.Recorded session.fsrv.useShmemFuzz
  · have order := deliver_recorded recorded
    obtain ⟨base, baseLength, baseWhole, isWindow⟩ := tracks.recent
    obtain ⟨earlier, isSuffix, noneEarlier⟩ := tracks.earlier
    have room : base ≠ [] := List.ne_nil_of_length_pos (baseLength ▸ tracks.positive)
    rw [childPid_inputs order, deliver_pid, Run.pid, deliver_pid] at inputs
    rw [Life.execute]
    cases start : run.newChild with
    | none =>
        rw [start, Option.getD_none, if_neg (not_not_intro rfl), order, isWindow,
          ← window_push room] at inputs
        simp only [recorded, decide_true, if_true, Bool.decide_and, Bool.decide_eq_true,
          Bool.and_true]
        refine ⟨length, tracks.positive, ⟨base, baseLength, baseWhole, inputs⟩, earlier, ?_,
          noneEarlier⟩
        rw [isSuffix, List.append_assoc]
    | some pid =>
        rw [start, Option.getD_some] at inputs
        simp only [recorded, decide_true, if_true, true_and]
        by_cases reused : session.fsrv.persistentRecordPid = pid
        · have room' : session.fsrv.inputs ≠ [] :=
            List.ne_nil_of_length_pos (tracks.length ▸ tracks.positive)
          rw [if_neg (not_not_intro reused), order, ← window_singleton room'] at inputs
          refine ⟨length, tracks.positive, ⟨_, tracks.length, fun whole => ?_, inputs⟩, [], rfl,
            fun _ => rfl⟩
          exact absurd reused (of_decide_eq_true whole)
        · have tail : session.fsrv.inputs.tail.length = size - 1 := by
            rw [List.length_tail, tracks.length]
          have room' : List.replicate size (none : Option (List UInt8)) ≠ [] :=
            List.ne_nil_of_length_pos (List.length_replicate.symm ▸ tracks.positive)
          rw [if_pos reused, tail, ← List.tail_replicate, ← window_singleton room'] at inputs
          exact ⟨length, tracks.positive, ⟨_, List.length_replicate, fun _ => rfl, inputs⟩, [], rfl,
            fun _ => rfl⟩
  · refine Tracks.restart tracks.positive length ?_ ?_
    · rw [Life.execute]
      cases run.newChild <;> simp [recorded]
    · rw [Life.execute]
      cases run.newChild <;> simp [recorded]

theorem step_tracks (tracks : Tracks size session) {step : Step} {files : List RecordFile}
    (stepped : session.step step = some (after, files)) : Tracks size after := by
  cases step with
  | execute delivery run =>
      obtain ⟨⟨later, written⟩, ran, same⟩ := Option.map_eq_some_iff.mp stepped
      obtain ⟨rfl, rfl⟩ := Prod.mk.inj same
      exact execute_tracks tracks ran
  | cmplog buf =>
      obtain ⟨rfl, rfl⟩ := Prod.mk.inj (Option.some.inj stepped)
      exact Tracks.restart tracks.positive
        ((length_deliver (.testcase buf)).trans tracks.length) rfl rfl

theorem run_tracks (history : List Step) (tracks : Tracks size session)
    (reached : session.run history = some after) : Tracks size after := by
  induction history generalizing session with
  | nil =>
      obtain rfl := Option.some.inj reached
      exact tracks
  | cons step history ih =>
      obtain ⟨next, stepped, rest⟩ := Option.bind_eq_some_iff.mp reached
      obtain ⟨⟨_, files⟩, first, rfl⟩ := Option.map_eq_some_iff.mp stepped
      exact ih (step_tracks tracks first) rest

/-! ## Files -/

theorem Tracks.files (tracks : Tracks size session)
    (complete : session.life.whole ∨ size ≤ session.life.recorded.length) :
    session.fsrv.inputs.filterMap id =
      session.life.executed.drop (session.life.executed.length - size) := by
  obtain ⟨base, baseLength, baseWhole, isWindow⟩ := tracks.recent
  obtain ⟨earlier, isSuffix, noneEarlier⟩ := tracks.earlier
  rcases complete with whole | full
  · rw [isWindow, baseWhole whole, window_empty, isSuffix, noneEarlier whole, List.nil_append]
  · have behind : session.life.executed.length - size =
        earlier.length + (session.life.recorded.length - size) := by
      rw [isSuffix, List.length_append]
      omega
    subst baseLength
    rw [isWindow, window_full full, behind, isSuffix, List.drop_append]
    simp

/-- Every execution since the child was started, or the last ones as many as the record holds,
came through `afl_fsrv_write_to_testcase`. -/
theorem record_exact (useShmemFuzz : Bool) (depth : Depth) (history : List Step)
    (reached : (Session.start useShmemFuzz depth).run history = some session)
    {delivery : Delivery} {run : Run} {files : List RecordFile}
    (stepped : session.step (.execute delivery run) = some (after, files))
    (failed : run.fault = .tmout ∨ run.fault = .crash) (opens : ∀ cnt, run.opens cnt)
    (complete : after.life.whole ∨ depth.entries ≤ after.life.recorded.length) :
    files = (after.life.executed.drop (after.life.executed.length - depth.entries)).mapIdx
        (fun cnt data => ⟨run.fault, session.fsrv.persistentRecordCnt, cnt, data⟩) ∧
      after.life.executed.getLast? = some (session.fsrv.deliver delivery).testcase := by
  have tracks := step_tracks (run_tracks history (start_tracks useShmemFuzz depth) reached) stepped
  obtain ⟨⟨later, written⟩, ran, same⟩ := Option.map_eq_some_iff.mp stepped
  obtain ⟨rfl, rfl⟩ := Prod.mk.inj same
  obtain ⟨sameRecord, _, isStored⟩ := runTarget_cases ran
  have exact := tracks.files complete
  rw [Fsrv.inputs, List.filterMap_map, sameRecord] at exact
  refine ⟨?_, ?_⟩
  · rw [isStored, if_pos failed, Fsrv.storePersistentRecord, deliver_cnt,
      List.filter_eq_self.mpr fun file _ => opens file.cnt]
    exact congrArg _ exact
  · rw [Life.execute]
    cases run.newChild with
    | none => exact List.getLast?_concat
    | some pid => rfl

end

def firstRun : Step :=
  .execute (.testcase [1]) ⟨some 10, .ok, fun _ => true⟩

def trimRun : Step :=
  .execute (.gap [2, 3, 4] 0 1 none) ⟨none, .ok, fun _ => true⟩

def crashRun : Run := ⟨none, .crash, fun _ => true⟩

theorem record_exact_two :
    ∃ session after files,
      (Session.start true ⟨2, by decide, by decide⟩).run [firstRun] = some session ∧
      session.step (.execute (.testcase [5]) crashRun) = some (after, files) ∧
      files = (after.life.executed.drop (after.life.executed.length - 2)).mapIdx
        (fun cnt data => ⟨.crash, session.fsrv.persistentRecordCnt, cnt, data⟩) ∧
      after.life.executed.getLast? = some (session.fsrv.deliver (.testcase [5])).testcase := by
  have runs : ∃ session after files,
      (Session.start true ⟨2, by decide, by decide⟩).run [firstRun] = some session ∧
      session.step (.execute (.testcase [5]) crashRun) = some (after, files) ∧
      after.life.whole = true := ⟨_, _, _, rfl, rfl, rfl⟩
  obtain ⟨session, after, files, reached, stepped, whole⟩ := runs
  exact ⟨session, after, files, reached, stepped, record_exact true ⟨2, by decide, by decide⟩
    [firstRun] reached stepped (.inr rfl) (fun _ => rfl) (.inl whole)⟩

/-- A run in trimming is missing: the record ends with the inputs of the first and the last run. -/
theorem record_omits_trimming :
    ∃ session after files,
      (Session.start true ⟨2, by decide, by decide⟩).run [firstRun, trimRun] = some session ∧
      session.step (.execute (.testcase [5]) crashRun) = some (after, files) ∧
      after.life.executed = [[1], [3, 4], [5]] ∧
      files.map RecordFile.data = [[1], [5]] ∧
      files.map RecordFile.data ≠ after.life.executed.drop (after.life.executed.length - 2) :=
  ⟨_, _, _, rfl, rfl, rfl, rfl, by decide⟩

end SbFuzz.Fuzzer.PersistentRecord
