import Mathlib.Data.List.Basic
import SbFuzz.Fuzzer.RunTarget

/-! What holds between afl-fuzz, the fork server and its processes in whatever
order they act: which words are in flight, what the process at work may still
do, and what every finished run was. -/

set_option autoImplicit false

namespace SbFuzz.Fuzzer.RunTarget

open Unicornafl (wifsignaled sigkill)

variable {config : Config} {state next : State} {child : Child} {iteration : Iteration}
  {killed : Bool} {status : Nat} {finish : Finish}

/-! ## Wait statuses -/

theorem wifstopped_finishStatus (config : Config) (finish : Finish) :
    wifstopped (config.finishStatus finish) = true ↔ finish = .stopped := by
  cases finish with
  | stopped => simp [wifstopped, Config.finishStatus, sigstop]
  | exited code => simp [wifstopped, Config.finishStatus]
  | crashed signal core =>
      have bound := signal.2
      cases core <;> simp [wifstopped, Config.finishStatus] <;> omega
  | killed =>
      have bound := config.childKillSignal.2
      have unstopped : config.childKillSignal.val % 256 ≠ 0x7f := by omega
      simp [wifstopped, Config.finishStatus, unstopped]

theorem wifsignaled_finishStatus (config : Config) (finish : Finish) :
    wifsignaled (config.finishStatus finish) = true ↔
      finish = .killed ∨ ∃ signal core, finish = .crashed signal core := by
  cases finish with
  | stopped => simp [wifsignaled, Config.finishStatus, sigstop]
  | exited code =>
      have whole : code.toNat * 256 % 128 = 0 := by omega
      simp [wifsignaled, Config.finishStatus, whole]
  | crashed signal core =>
      have bound := signal.2
      cases core <;> simp [wifsignaled, Config.finishStatus] <;> omega
  | killed =>
      have bound := config.childKillSignal.2
      simp [wifsignaled, Config.finishStatus]
      omega

theorem wexitstatus_exited (config : Config) (code : UInt8) :
    wexitstatus (config.finishStatus (.exited code)) = code.toNat := by
  have bound := code.toNat_lt
  simp only [wexitstatus, Config.finishStatus]
  omega

theorem wexitstatus_stopped (config : Config) :
    wexitstatus (config.finishStatus .stopped) = sigstop := by
  simp [wexitstatus, Config.finishStatus, sigstop]

/-- The runs that the three tests take for a crash. A clean round of the
persistent loop is one of them where the crash exit code is that of `SIGSTOP`:
`WEXITSTATUS` is read without `WIFEXITED`. -/
def Config.CountsAsCrash (config : Config) : Finish → Prop
  | .stopped => config.usesCrashExitcode = true ∧ config.crashExitcode.toNat = sigstop
  | .exited code =>
      (config.usesAsan = true ∧ (code.toNat = msanError ∨ code.toNat = lsanError)) ∨
        (config.usesCrashExitcode = true ∧ code = config.crashExitcode)
  | .crashed _ _ => True
  | .killed => True

theorem crashes_finishStatus (config : Config) (finish : Finish) :
    config.crashes (config.finishStatus finish) = true ↔ config.CountsAsCrash finish := by
  have signals := wifsignaled_finishStatus config finish
  cases finish with
  | stopped =>
      have quiet : wifsignaled (config.finishStatus .stopped) = false := by
        simpa using signals
      have notMsan : (sigstop == msanError) = false := by decide
      have notLsan : (sigstop == lsanError) = false := by decide
      simp only [Config.crashes, quiet, wexitstatus_stopped, Config.CountsAsCrash, notMsan, notLsan,
        Bool.or_self, Bool.and_false, Bool.false_or, Bool.and_eq_true, beq_iff_eq]
      exact and_congr_right fun _ => eq_comm
  | exited code =>
      have quiet : wifsignaled (config.finishStatus (.exited code)) = false := by
        simpa using signals
      simp only [Config.crashes, quiet, wexitstatus_exited, Config.CountsAsCrash]
      simp [UInt8.toNat_inj]
  | crashed signal core =>
      have loud := signals.mpr (.inr ⟨signal, core, rfl⟩)
      simp [Config.crashes, loud, Config.CountsAsCrash]
  | killed =>
      have loud := signals.mpr (.inl rfl)
      simp [Config.crashes, loud, Config.CountsAsCrash]

/-! ## The counter of the persistent loop -/

/-- The test cases one process may be given: a counter that starts at zero
wraps once. -/
def Config.passes (config : Config) : Nat :=
  if config.maxCnt = 0 then 0x100000000 else config.maxCnt.toNat

theorem Config.passes_pos (config : Config) : 0 < config.passes := by
  unfold Config.passes
  split
  · omega
  · next nonzero =>
      have : config.maxCnt.toNat ≠ 0 := fun zero => nonzero (UInt32.toNat_inj.mp zero)
      omega

/-- `cycle_cnt` of a process in the body of the loop. -/
def Counting (config : Config) (child : Child) : Prop :=
  match child.pc with
  | .startup => child.pass = 1
  | .iteration => (child.pass = 1 ∧ child.cycleCnt = config.maxCnt) ∨
      (child.cycleCnt ≠ 0 ∧ child.cycleCnt.toNat + child.pass = config.passes + 1)
  | .leaving => True

/-- `cycle_cnt` of a process that has stopped itself. -/
structure Parked (config : Config) (child : Child) : Prop where
  pc : child.pc = .iteration
  more : child.cycleCnt ≠ 0
  count : child.cycleCnt.toNat + child.pass = config.passes

theorem UInt32.pred_toNat (count : UInt32) :
    (count - 1).toNat = if count = 0 then 0xffffffff else count.toNat - 1 := by
  have bound := count.toNat_lt
  rw [UInt32.toNat_sub]
  split
  · next zero => simp [zero]
  · next nonzero =>
      have positive : count.toNat ≠ 0 := fun zero => nonzero (UInt32.toNat_inj.mp zero)
      simp only [UInt32.toNat_one]
      omega

theorem Counting.park (counting : Counting config child)
    (pc : child.pc = .iteration) (more : child.cycleCnt - 1 ≠ 0) {life : Life} :
    Parked config { child with life, cycleCnt := child.cycleCnt - 1 } := by
  refine ⟨pc, more, ?_⟩
  have predecessor := UInt32.pred_toNat child.cycleCnt
  simp only [Counting, pc] at counting
  show (child.cycleCnt - 1).toNat + child.pass = config.passes
  rcases counting with ⟨first, start⟩ | ⟨nonzero, count⟩
  · rw [start] at predecessor ⊢
    unfold Config.passes
    split at predecessor
    · next zero =>
        rw [if_pos zero]
        omega
    · next nonzero =>
        have positive : config.maxCnt.toNat ≠ 0 := fun zero => nonzero (UInt32.toNat_inj.mp zero)
        rw [if_neg nonzero]
        omega
  · have positive : child.cycleCnt.toNat ≠ 0 := fun zero => nonzero (UInt32.toNat_inj.mp zero)
    rw [if_neg nonzero] at predecessor
    omega

theorem Parked.resume (parked : Parked config child)
    {life : Life} {run : Nat} :
    Counting config { child with life, run, pass := child.pass + 1 } := by
  have count := parked.count
  simp only [Counting, parked.pc]
  exact .inr ⟨parked.more, by omega⟩

theorem Parked.pass_lt (parked : Parked config child) :
    child.pass < config.passes := by
  have count := parked.count
  have positive : child.cycleCnt.toNat ≠ 0 := fun zero => parked.more (UInt32.toNat_inj.mp zero)
  omega

/-! ## The trace map -/

@[simp] theorem written_concat (writes : List Write) (entry : Write) :
    written (writes ++ [entry]) = (written writes).write entry := by
  simp [written]

/-! ## What has been done -/

/-- One finished run against what the process did that was given the test case. -/
structure Reports (config : Config) (result : Result) (iteration : Iteration) : Prop where
  pid : result.pid = iteration.pid
  testcase : result.testcase = iteration.testcase
  trace : result.trace = written iteration.writes
  finished : ∃ finish, iteration.finish = some finish ∧
    (result.timedOut = false → finish ≠ .killed ∧ result.status = config.finishStatus finish)
  outcome : result.outcome = config.outcome result.trace result.timedOut result.status

/-- A test case given to the process that stopped itself after test case `j`. -/
structure Continues (config : Config) (state : State) (iteration : Iteration) (j : Nat)
    (before : Iteration) (result : Result) : Prop where
  given : state.iterations[j]? = some before
  returned : state.results[j]? = some result
  samePid : iteration.pid = before.pid
  pass : iteration.pass = before.pass + 1
  stopped : before.finish = some .stopped
  inTime : result.timedOut = false
  isPersistent : config.isPersistent = true

/-- How a process came by its test case. -/
def Handed (config : Config) (state : State) (i : Nat) (iteration : Iteration) : Prop :=
  0 < iteration.pass ∧ iteration.pass ≤ config.passes ∧
    (iteration.pass = 1 ∨
      ∃ j before result, i = j + 1 ∧ Continues config state iteration j before result)

structure History (config : Config) (state : State) : Prop where
  others : ∀ pid, pid ≠ state.fsrv.childPid → state.Free pid
  reported : ∀ (i : Nat) result, state.results[i]? = some result →
    ∃ iteration, state.iterations[i]? = some iteration ∧ Reports config result iteration
  handed : ∀ (i : Nat) iteration, state.iterations[i]? = some iteration →
    Handed config state i iteration
  totalExecs : state.afl.totalExecs = state.results.length

theorem Handed.mono {i : Nat}
    {iteration after : Iteration} (handed : Handed config state i iteration)
    (pid : after.pid = iteration.pid) (pass : after.pass = iteration.pass)
    (iterations : ∀ j < state.results.length, next.iterations[j]? = state.iterations[j]?)
    (results : ∀ j < state.results.length, next.results[j]? = state.results[j]?) :
    Handed config next i after := by
  obtain ⟨positive, bounded, origin⟩ := handed
  refine ⟨pass ▸ positive, pass ▸ bounded, ?_⟩
  rcases origin with first | ⟨j, before, result, place, continues⟩
  · exact .inl (pass.trans first)
  · have inside : j < state.results.length :=
      (List.getElem?_eq_some_iff.mp continues.returned).1
    refine .inr ⟨j, before, result, place, ?_⟩
    exact {
      given := (iterations j inside).trans continues.given
      returned := (results j inside).trans continues.returned
      samePid := pid.trans continues.samePid
      pass := pass.trans continues.pass
      stopped := continues.stopped
      inTime := continues.inTime
      isPersistent := continues.isPersistent }

/-- Nothing of the history is about the pipes, the map or the control points. -/
theorem History.congr (history : History config state)
    (others : ∀ pid, pid ≠ next.fsrv.childPid → next.Free pid)
    (iterations : next.iterations = state.iterations) (results : next.results = state.results)
    (totalExecs : next.afl.totalExecs = state.afl.totalExecs) : History config next where
  others := others
  reported := by
    intro i result found
    rw [results] at found
    rw [iterations]
    exact history.reported i result found
  handed := by
    intro i iteration found
    rw [iterations] at found
    exact (history.handed i iteration found).mono rfl rfl (fun _ _ => by rw [iterations])
      fun _ _ => by rw [results]
  totalExecs := by rw [totalExecs, results, history.totalExecs]

/-! ## Steps of the process at work -/

/-- The process at work and the history of its test case change, and the map. -/
def State.work (state : State) (child : Child) (edit : Iteration → Iteration) (trace : Trace) :
    State :=
  { state with
    children := Function.update state.children state.fsrv.childPid (some child)
    iterations := state.iterations.modify state.results.length edit
    trace }

section
variable (state : State) (child : Child) (edit : Iteration → Iteration) (trace : Trace)

@[simp] theorem State.work_child :
    (state.work child edit trace).children state.fsrv.childPid = some child := by
  simp [State.work]

theorem State.setChild_eq_work :
    state.setChild state.fsrv.childPid child = state.work child id state.trace := by
  unfold State.work
  rw [List.modify_id]
  rfl

theorem State.work_free {pid : Pid} (other : pid ≠ state.fsrv.childPid) :
    (state.work child edit trace).Free pid ↔ state.Free pid := by
  simp [State.Free, State.work, Function.update_of_ne other]

theorem State.work_reaped_free :
    (state.work { child with life := .reaped } edit trace).Free state.fsrv.childPid := by
  intro other present
  rw [state.work_child] at present
  cases present
  rfl

end

/-- An edit that leaves the process and the place of a test case alone. -/
structure Mild (edit : Iteration → Iteration) : Prop where
  pid : ∀ iteration, (edit iteration).pid = iteration.pid
  testcase : ∀ iteration, (edit iteration).testcase = iteration.testcase
  pass : ∀ iteration, (edit iteration).pass = iteration.pass

theorem Mild.id : Mild id := ⟨fun _ => rfl, fun _ => rfl, fun _ => rfl⟩

theorem Mild.ends (finish : Finish) : Mild (Iteration.ends finish) :=
  ⟨fun _ => rfl, fun _ => rfl, fun _ => rfl⟩

theorem Mild.adds (entry : Write) : Mild (Iteration.adds entry) :=
  ⟨fun _ => rfl, fun _ => rfl, fun _ => rfl⟩

theorem Mild.clears (entry : Write) :
    Mild fun iteration => { iteration with writes := [entry] } :=
  ⟨fun _ => rfl, fun _ => rfl, fun _ => rfl⟩

theorem History.work (history : History config state)
    {edit : Iteration → Iteration} (mild : Mild edit) (child : Child) (trace : Trace) :
    History config (state.work child edit trace) := by
  have earlier (j : Nat) (inside : j < state.results.length) :
      (state.work child edit trace).iterations[j]? = state.iterations[j]? := by
    show (state.iterations.modify state.results.length edit)[j]? = _
    rw [List.getElem?_modify_ne _ _ (by omega)]
  refine ⟨fun pid other => ?_, fun i result found => ?_, fun i iteration found => ?_,
    history.totalExecs⟩
  · exact (state.work_free child edit trace other).mpr (history.others pid other)
  · obtain ⟨iteration, given, reports⟩ := history.reported i result found
    have inside : i < state.results.length := (List.getElem?_eq_some_iff.mp found).1
    exact ⟨iteration, (earlier i inside).trans given, reports⟩
  · change (state.iterations.modify state.results.length edit)[i]? = some iteration at found
    rw [List.getElem?_modify] at found
    obtain ⟨original, given, same⟩ := Option.map_eq_some_iff.mp found
    have handed := history.handed i original given
    split at same
    · subst same
      exact handed.mono (mild.pid original) (mild.pass original) earlier fun _ _ => rfl
    · subst same
      exact handed.mono rfl rfl earlier fun _ _ => rfl

/-! ## The process at work -/

/-- Where a process is with its test case, before the fork server has waited
for it. `killed` says that the run has timed out. -/
inductive Progress (config : Config) (child : Child) (iteration : Iteration) (killed : Bool) :
    Prop where
  | running : child.life = .running → killed = false → iteration.finish = none →
      Counting config child → Progress config child iteration killed
  | stopped : child.life = .stopped false killed →
      (killed = true → config.childKillSignal.val ≠ sigkill) → config.isPersistent = true →
      iteration.finish = some .stopped → Parked config child →
      Progress config child iteration killed
  | zombie {status : Nat} {finish : Finish} : child.life = .zombie status →
      wifstopped status = false → iteration.finish = some finish →
      (killed = false → finish ≠ .killed ∧ status = config.finishStatus finish) →
      Progress config child iteration killed

/-- The current test case belongs to this entry of the history. -/
structure Current (state : State) (iteration : Iteration) : Prop where
  given : state.iterations[state.results.length]? = some iteration
  count : state.iterations.length = state.results.length + 1
  pid : iteration.pid = state.fsrv.childPid
  testcase : iteration.testcase = state.testcase
  trace : state.trace = written iteration.writes
  positive : 0 < state.fsrv.childPid

structure Serves (config : Config) (state : State) (killed : Bool) (child : Child)
    (iteration : Iteration) : Prop where
  current : Current state iteration
  present : state.children state.fsrv.childPid = some child
  run : child.run = state.results.length
  pass : child.pass = iteration.pass
  childStopped : state.fsrv.childStopped = false
  progress : Progress config child iteration killed

theorem Current.work (current : Current state iteration)
    {edit : Iteration → Iteration} (mild : Mild edit) (child : Child) {trace : Trace}
    (kept : trace = written (edit iteration).writes) :
    Current (state.work child edit trace) (edit iteration) where
  given := by
    show (state.iterations.modify state.results.length edit)[state.results.length]? = _
    rw [List.getElem?_modify_eq, current.given]
    rfl
  count := by
    show (state.iterations.modify state.results.length edit).length = _
    rw [List.length_modify]
    exact current.count
  pid := (mild.pid iteration).trans current.pid
  testcase := (mild.testcase iteration).trans current.testcase
  trace := kept
  positive := current.positive

theorem Serves.work {after : Bool} {next : Child} {trace : Trace}
    (serves : Serves config state killed child iteration)
    {edit : Iteration → Iteration} (mild : Mild edit)
    (kept : trace = written (edit iteration).writes) (run : next.run = child.run)
    (pass : next.pass = child.pass) (progress : Progress config next (edit iteration) after) :
    Serves config (state.work next edit trace) after next (edit iteration) where
  current := serves.current.work mild next kept
  present := state.work_child next edit trace
  run := run.trans serves.run
  pass := pass.trans (serves.pass.trans (mild.pass iteration).symm)
  childStopped := serves.childStopped
  progress := progress

theorem Serves.work_self (serves : Serves config state killed child iteration) :
    state.work child id state.trace = state := by
  unfold State.work
  rw [List.modify_id, ← serves.present, Function.update_eq_self]

theorem Serves.work_eq (serves : Serves config state killed child iteration) (next : Child)
    (edit : Iteration → Iteration) :
    (state.setChild state.fsrv.childPid next).editIteration child.run edit =
      state.work next edit state.trace := by
  rw [serves.run]
  rfl

/-- The first call of `__afl_persistent_loop` wipes the map, a later one stops
the process, and the last one lets it leave the loop. -/
theorem Serves.persistentLoop
    (serves : Serves config state killed child iteration) (alive : child.life = .running)
    (inTime : killed = false) (unfinished : iteration.finish = none)
    (counting : Counting config child) (persistent : config.isPersistent = true)
    (stepped : config.aflPersistentLoop state state.fsrv.childPid child = some next) :
    ∃ after edit trace, Mild edit ∧ next = state.work after edit trace ∧
      Serves config next killed after (edit iteration) := by
  subst inTime
  unfold Config.aflPersistentLoop at stepped
  cases pc : child.pc with
  | startup =>
      simp only [pc, Option.some.injEq] at stepped
      simp only [Counting, pc] at counting
      let looping : Child := { child with pc := .iteration, cycleCnt := config.maxCnt }
      let wiped := Trace.zero.write ⟨0, 1⟩
      have same := serves.work_eq looping
        fun iteration => { iteration with writes := [⟨0, 1⟩] }
      rw [← stepped, same]
      refine ⟨looping, _, wiped, .clears ⟨0, 1⟩, rfl, ?_⟩
      exact serves.work (.clears ⟨0, 1⟩) rfl rfl rfl
        (.running alive rfl unfinished (.inl ⟨counting, rfl⟩))
  | iteration =>
      simp only [pc] at stepped
      split at stepped
      · next more =>
          rw [Option.some.injEq] at stepped
          let parked : Child :=
            { child with life := .stopped false false, cycleCnt := child.cycleCnt - 1 }
          have same := serves.work_eq parked (Iteration.ends .stopped)
          rw [← stepped, ← pc]
          refine ⟨parked, _, _, .ends .stopped, same, ?_⟩
          rw [same]
          exact serves.work (.ends .stopped) serves.current.trace rfl rfl
            (.stopped rfl (by simp) persistent rfl (counting.park pc more))
      · rw [Option.some.injEq] at stepped
        let leaving : Child := { child with pc := .leaving, cycleCnt := child.cycleCnt - 1 }
        rw [← stepped, state.setChild_eq_work leaving]
        refine ⟨leaving, id, state.trace, .id, rfl, ?_⟩
        exact serves.work .id serves.current.trace rfl rfl
          (.running alive rfl unfinished trivial)
  | leaving =>
      simp only [pc, reduceCtorEq] at stepped

/-- A running process may do as it likes with its own test case. -/
theorem Serves.childStep (serves : Serves config state killed child iteration)
    (alive : child.life = .running) {action : ChildAction}
    (stepped : config.childStep state state.fsrv.childPid child action = some next) :
    ∃ after edit trace, Mild edit ∧ next = state.work after edit trace ∧
      Serves config next killed after (edit iteration) := by
  obtain ⟨inTime, unfinished, counting⟩ :
      killed = false ∧ iteration.finish = none ∧ Counting config child := by
    cases serves.progress with
    | running _ inTime unfinished counting => exact ⟨inTime, unfinished, counting⟩
    | stopped life => rw [alive] at life; cases life
    | zombie life => rw [alive] at life; cases life
  have trace := serves.current.trace
  have ends (finish : Finish) (unkilled : finish ≠ .killed) (unstopped : finish ≠ .stopped) :
      Serves config (config.endChild state state.fsrv.childPid child finish) killed
        { child with life := .zombie (config.finishStatus finish) }
        (Iteration.ends finish iteration) ∧
      config.endChild state state.fsrv.childPid child finish =
        state.work { child with life := .zombie (config.finishStatus finish) }
          (Iteration.ends finish) state.trace := by
    have same := serves.work_eq { child with life := .zombie (config.finishStatus finish) }
      (Iteration.ends finish)
    have status : wifstopped (config.finishStatus finish) = false := by
      have stops := wifstopped_finishStatus config finish
      rw [← Bool.not_eq_true, stops]
      exact unstopped
    refine ⟨?_, same⟩
    unfold Config.endChild
    rw [same]
    exact serves.work (.ends finish) trace rfl rfl
      (.zombie rfl status rfl fun _ => ⟨unkilled, rfl⟩)
  have adds (entry : Write) :
      { state.editIteration child.run (Iteration.adds entry) with
        trace := state.trace.write entry } =
        state.work child (Iteration.adds entry) (state.trace.write entry) ∧
      Serves config (state.work child (Iteration.adds entry) (state.trace.write entry)) killed
        child (Iteration.adds entry iteration) := by
    constructor
    · unfold State.work State.editIteration
      rw [serves.run, ← serves.present, Function.update_eq_self]
    · refine serves.work (.adds entry) ?_ rfl rfl (.running alive inTime unfinished counting)
      rw [trace]
      exact (written_concat iteration.writes entry).symm
  cases action with
  | write entry =>
      cases pc : child.pc with
      | leaving =>
          simp only [Config.childStep, pc, Option.some.injEq] at stepped
          subst stepped
          exact ⟨child, id, state.trace, .id, serves.work_self.symm, serves⟩
      | startup =>
          simp only [Config.childStep, pc, Option.some.injEq] at stepped
          subst stepped
          exact ⟨_, _, _, .adds entry, (adds entry).1, (adds entry).1 ▸ (adds entry).2⟩
      | iteration =>
          simp only [Config.childStep, pc, Option.some.injEq] at stepped
          subst stepped
          exact ⟨_, _, _, .adds entry, (adds entry).1, (adds entry).1 ▸ (adds entry).2⟩
  | persistentLoop =>
      simp only [Config.childStep] at stepped
      split at stepped
      · next persistent =>
          exact serves.persistentLoop alive inTime unfinished counting persistent stepped
      · cases stepped
  | exit code =>
      simp only [Config.childStep, Option.some.injEq] at stepped
      subst stepped
      obtain ⟨after, same⟩ := ends (.exited code) (by simp) (by simp)
      exact ⟨_, _, _, .ends _, same, after⟩
  | crash signal core =>
      simp only [Config.childStep, Option.some.injEq] at stepped
      subst stepped
      obtain ⟨after, same⟩ := ends (.crashed signal core) (by simp) (by simp)
      exact ⟨_, _, _, .ends _, same, after⟩

/-! ## The process between two test cases -/

/-- A process whose stop `waitpid` has returned. -/
inductive Dozing (config : Config) (child : Child) (killed : Bool) : Prop where
  | waiting : child.life = .stopped true killed →
      (killed = true → config.childKillSignal.val ≠ sigkill) → Parked config child →
      Dozing config child killed
  | dead {status : Nat} : killed = true → config.childKillSignal.val = sigkill →
      child.life = .zombie status → Dozing config child killed

/-- A stopped process is kept for the next test case. -/
structure Kept (config : Config) (state : State) (killed : Bool) (child : Child)
    (iteration : Iteration) : Prop where
  present : state.children state.fsrv.childPid = some child
  last : state.iterations.getLast? = some iteration
  pid : iteration.pid = state.fsrv.childPid
  pass : iteration.pass = child.pass
  finish : iteration.finish = some .stopped
  isPersistent : config.isPersistent = true
  positive : 0 < state.fsrv.childPid
  dozing : Dozing config child killed

inductive Rested (config : Config) (state : State) (killed : Bool) : Prop where
  | gone : state.fsrv.childStopped = false → state.Free state.fsrv.childPid →
      Rested config state killed
  | kept {child : Child} {iteration : Iteration} : state.fsrv.childStopped = true →
      Kept config state killed child iteration → Rested config state killed

/-- The fork server has waited for the current test case. -/
structure Ended (config : Config) (state : State) (killed : Bool) (status : Nat)
    (iteration : Iteration) (finish : Finish) : Prop where
  current : Current state iteration
  finished : iteration.finish = some finish
  faithful : killed = false → finish ≠ .killed ∧ status = config.finishStatus finish
  rested : Rested config state killed

theorem Kept.congr (kept : Kept config state killed child iteration)
    (children : next.children = state.children) (iterations : next.iterations = state.iterations)
    (childPid : next.fsrv.childPid = state.fsrv.childPid) :
    Kept config next killed child iteration where
  present := by rw [children, childPid]; exact kept.present
  last := by rw [iterations]; exact kept.last
  pid := by rw [childPid]; exact kept.pid
  pass := kept.pass
  finish := kept.finish
  isPersistent := kept.isPersistent
  positive := by rw [childPid]; exact kept.positive
  dozing := kept.dozing

theorem Rested.congr
    (rested : Rested config state killed) (children : next.children = state.children)
    (iterations : next.iterations = state.iterations)
    (childPid : next.fsrv.childPid = state.fsrv.childPid)
    (childStopped : next.fsrv.childStopped = state.fsrv.childStopped) :
    Rested config next killed := by
  cases rested with
  | gone unstopped free =>
      refine .gone (childStopped.trans unstopped) ?_
      unfold State.Free
      rw [children, childPid]
      exact free
  | kept stopped kept =>
      exact .kept (childStopped.trans stopped) (kept.congr children iterations childPid)

theorem Ended.congr (ended : Ended config state killed status iteration finish)
    (current : Current next iteration) (children : next.children = state.children)
    (iterations : next.iterations = state.iterations)
    (childPid : next.fsrv.childPid = state.fsrv.childPid)
    (childStopped : next.fsrv.childStopped = state.fsrv.childStopped) :
    Ended config next killed status iteration finish :=
  ⟨current, ended.finished, ended.faithful,
    ended.rested.congr children iterations childPid childStopped⟩

theorem Current.last (current : Current state iteration) :
    state.iterations.getLast? = some iteration := by
  rw [List.getLast?_eq_getElem?, current.count]
  exact current.given

/-- A process that is kept does not run. -/
theorem Kept.not_running (kept : Kept config state killed child iteration) {other : Child}
    (present : state.children state.fsrv.childPid = some other) : other.life ≠ .running := by
  rw [kept.present] at present
  cases present
  cases kept.dozing with
  | waiting life => simp [life]
  | dead _ _ life => simp [life]

theorem Rested.not_running (rested : Rested config state killed)
    (present : state.children state.fsrv.childPid = some child) : child.life ≠ .running := by
  cases rested with
  | gone _ free => simp [free child present]
  | kept _ kept => exact kept.not_running present

/-! ## The kill after a timeout -/

theorem Serves.kill (serves : Serves config state false child iteration) :
    ∃ after edit, Mild edit ∧
      config.kill state state.fsrv.childPid = state.work after edit state.trace ∧
      Serves config (state.work after edit state.trace) true after (edit iteration) := by
  have trace := serves.current.trace
  have killStatus : wifstopped config.childKillSignal.val = false := by
    have stops := wifstopped_finishStatus config .killed
    simpa [Config.finishStatus] using stops
  unfold Config.kill
  rw [serves.present]
  cases serves.progress with
  | running life _ unfinished counting =>
      simp only [life]
      let dead : Child := { child with life := .zombie config.childKillSignal }
      refine ⟨dead, _, .ends .killed, serves.work_eq dead (Iteration.ends .killed), ?_⟩
      exact serves.work (.ends .killed) trace rfl rfl (.zombie rfl killStatus rfl (by simp))
  | stopped life _ persistent finish parked =>
      simp only [life]
      split
      · let dead : Child := { child with life := .zombie sigkill }
        refine ⟨dead, id, .id, state.setChild_eq_work dead, ?_⟩
        exact serves.work .id trace rfl rfl (.zombie rfl (by decide) finish (by simp))
      · next spared =>
          let waiting : Child := { child with life := .stopped false true }
          refine ⟨waiting, id, .id, state.setChild_eq_work waiting, ?_⟩
          exact serves.work .id trace rfl rfl
            (.stopped rfl (fun _ => spared) persistent finish
              ⟨parked.pc, parked.more, parked.count⟩)
  | zombie life status finish _ =>
      simp only [life]
      refine ⟨child, id, .id, serves.work_self.symm, ?_⟩
      exact serves.work .id trace rfl rfl (.zombie life status finish (by simp))

/-- The kill may come late, when the process rests or is gone. -/
theorem Rested.kill (rested : Rested config state false) :
    ∃ children, config.kill state state.fsrv.childPid = { state with children } ∧
      (∀ pid, pid ≠ state.fsrv.childPid → children pid = state.children pid) ∧
      Rested config { state with children } true := by
  cases rested with
  | gone unstopped free =>
      refine ⟨state.children, ?_, fun _ _ => rfl, .gone unstopped free⟩
      unfold Config.kill
      split
      · next child present => simp only [free child present]
      · rfl
  | @kept child iteration stopped kept =>
      obtain ⟨life, parked⟩ : child.life = .stopped true false ∧ Parked config child := by
        cases kept.dozing with
        | waiting life _ parked => exact ⟨life, parked⟩
        | dead killed => cases killed
      have keeps (after : Child) (pass : after.pass = child.pass)
          (dozing : Dozing config after true) :
          Rested config { state with
            children := Function.update state.children state.fsrv.childPid (some after) } true := by
        have kept : Kept config { state with
            children := Function.update state.children state.fsrv.childPid (some after) } true
            after iteration := {
          present := Function.update_self ..
          last := kept.last
          pid := kept.pid
          pass := kept.pass.trans pass.symm
          finish := kept.finish
          isPersistent := kept.isPersistent
          positive := kept.positive
          dozing }
        exact .kept stopped kept
      have elsewhere (after : Child) (pid : Pid) (other : pid ≠ state.fsrv.childPid) :
          Function.update state.children state.fsrv.childPid (some after) pid =
            state.children pid := Function.update_of_ne other ..
      unfold Config.kill
      simp only [kept.present, life]
      split
      · next lethal =>
          let dead : Child := { child with life := .zombie sigkill }
          exact ⟨_, rfl, elsewhere dead, keeps dead rfl (.dead rfl lethal rfl)⟩
      · next spared =>
          let waiting : Child := { child with life := .stopped true true }
          exact ⟨_, rfl, elsewhere waiting, keeps waiting rfl
            (.waiting rfl (fun _ => spared) ⟨parked.pc, parked.more, parked.count⟩)⟩

theorem Ended.kill (ended : Ended config state false status iteration finish)
    (history : History config state) :
    ∃ children, config.kill state state.fsrv.childPid = { state with children } ∧
      History config { state with children } ∧
      Ended config { state with children } true status iteration finish := by
  obtain ⟨children, killed, elsewhere, rested⟩ := ended.rested.kill
  refine ⟨children, killed, history.congr ?_ rfl rfl rfl, ?_⟩
  · intro pid other child present
    exact history.others pid other child ((elsewhere pid other).symm.trans present)
  · exact {
      current := { ended.current with }
      finished := ended.finished
      faithful := by simp
      rested }

/-! ## The fork server and its process -/

/-- `waitpid` with `WUNTRACED` where the target is persistent. -/
theorem Serves.waitpid (serves : Serves config state killed child iteration) :
    (config.waitpid state state.fsrv.childPid config.isPersistent = .blocks ∧
      child.life = .running ∧ killed = false) ∨
    ∃ after status finish,
      config.waitpid state state.fsrv.childPid config.isPersistent =
        .returns (state.work after id state.trace) status ∧
      ∀ pc, Ended config { state.work after id state.trace with
        fsrv := { state.fsrv with
          pc, childStopped := state.fsrv.childStopped || wifstopped status } }
        killed status iteration finish := by
  have current (after : Child) : Current (state.work after id state.trace) iteration :=
    serves.current.work .id after serves.current.trace
  unfold Config.waitpid
  rw [serves.present]
  cases serves.progress with
  | running life inTime => exact .inl ⟨by simp only [life], life, inTime⟩
  | stopped life spared persistent finish parked =>
      let waiting : Child := { child with life := .stopped true killed }
      refine .inr ⟨waiting, config.finishStatus .stopped, .stopped, ?_, fun pc => ?_⟩
      · simp only [life, persistent, if_true]
        rw [state.setChild_eq_work]
      · have stops := (wifstopped_finishStatus config .stopped).mpr rfl
        have kept : Kept config (state.work waiting id state.trace) killed waiting iteration := {
          present := state.work_child waiting id state.trace
          last := (current waiting).last
          pid := serves.current.pid
          pass := serves.pass.symm
          finish
          isPersistent := persistent
          positive := serves.current.positive
          dozing := .waiting rfl spared ⟨parked.pc, parked.more, parked.count⟩ }
        exact {
          current := { current waiting with }
          finished := finish
          faithful := fun _ => ⟨by simp, rfl⟩
          rested := .kept (by simp [stops]) (kept.congr rfl rfl rfl) }
  | @zombie status finish life unstopped finished faithful =>
      let gone : Child := { child with life := .reaped }
      refine .inr ⟨gone, status, finish, ?_, fun pc => ?_⟩
      · simp only [life]
        rw [state.setChild_eq_work]
      · exact {
          current := { current gone with }
          finished
          faithful
          rested := .gone (by simp [serves.childStopped, unstopped])
            (state.work_reaped_free child id state.trace) }

/-- The stopped process that afl-fuzz has killed is waited for, which does not
end if the signal leaves it stopped. -/
theorem Dozing.waitpid (dozing : Dozing config child true)
    (present : state.children state.fsrv.childPid = some child) :
    (config.waitpid state state.fsrv.childPid false = .blocks ∧
      config.childKillSignal.val ≠ sigkill ∧ Parked config child) ∨
    ∃ status, config.waitpid state state.fsrv.childPid false =
      .returns (state.work { child with life := .reaped } id state.trace) status := by
  unfold Config.waitpid
  rw [present]
  cases dozing with
  | waiting life spared parked => exact .inl ⟨by simp only [life], spared rfl, parked⟩
  | @dead status _ _ life =>
      refine .inr ⟨status, ?_⟩
      simp only [life]
      rw [state.setChild_eq_work]

/-! ## The next test case -/

/-- Every test case that was handed out has been answered, the last one in time
or not. -/
structure Settled (state : State) (killed : Bool) : Prop where
  count : state.iterations.length = state.results.length
  last : ∀ result, state.results.getLast? = some result → result.timedOut = killed

theorem modify_concat {α : Type} (items : List α) (item : α) (edit : α → α) :
    (items ++ [item]).modify items.length edit = items ++ [edit item] := by
  induction items with
  | nil => rfl
  | cons first rest ih => simpa using ih

theorem History.begin (history : History config state)
    (count : state.iterations.length = state.results.length)
    (others : ∀ pid, pid ≠ next.fsrv.childPid → next.Free pid)
    (iterations : next.iterations = state.iterations ++ [iteration])
    (results : next.results = state.results)
    (totalExecs : next.afl.totalExecs = state.afl.totalExecs)
    (handed : Handed config state state.results.length iteration) : History config next := by
  have earlier (j : Nat) (inside : j < state.results.length) :
      next.iterations[j]? = state.iterations[j]? := by
    rw [iterations, List.getElem?_append_left (by omega)]
  have same (j : Nat) (_ : j < state.results.length) : next.results[j]? = state.results[j]? := by
    rw [results]
  refine ⟨others, fun i result found => ?_, fun i other found => ?_, ?_⟩
  · rw [results] at found
    have inside : i < state.results.length := (List.getElem?_eq_some_iff.mp found).1
    obtain ⟨given, placed, reports⟩ := history.reported i result found
    exact ⟨given, (earlier i inside).trans placed, reports⟩
  · rw [iterations, List.getElem?_append] at found
    split at found
    · exact (history.handed i other found).mono rfl rfl earlier same
    · next outside =>
        have place : i = state.iterations.length := by
          have inside := (List.getElem?_eq_some_iff.mp found).1
          simp only [List.length_singleton] at inside
          omega
        subst place
        simp only [Nat.sub_self, List.getElem?_cons_zero, Option.some.injEq] at found
        subst found
        rw [count]
        exact handed.mono rfl rfl earlier same
  · rw [totalExecs, results, history.totalExecs]

/-- A new process takes the test case that is in place. -/
theorem State.begin_serves {pid : Pid}
    (count : state.iterations.length = state.results.length) (trace : state.trace = .zero)
    (childPid : state.fsrv.childPid = pid) (positive : 0 < pid)
    (unstopped : state.fsrv.childStopped = false) (run : child.run = state.iterations.length)
    (alive : child.life = .running) (counting : Counting config child) :
    Serves config (state.begin pid child) false child
      { pid, testcase := state.testcase, pass := child.pass, writes := [], finish := none } where
  current := {
    given := by simp [State.begin, State.setChild, ← count]
    count := by simp [State.begin, State.setChild, count]
    pid := childPid.symm
    testcase := rfl
    trace := trace
    positive := by rw [← childPid] at positive; exact positive }
  present := by
    show Function.update state.children pid (some child) state.fsrv.childPid = _
    rw [childPid, Function.update_self]
  run := run.trans count
  pass := rfl
  childStopped := unstopped
  progress := .running alive rfl rfl counting

/-- `SIGCONT` lets a process that has stopped itself, and that was not killed
since, take the next test case. -/
theorem Kept.sigcont {before : Iteration}
    (kept : Kept config state false child before) (settled : Settled state false)
    (trace : state.trace = .zero) (pc : FsrvPc) :
    ∃ after iteration,
      Serves config { config.sigcont state state.fsrv.childPid with
        fsrv := { state.fsrv with pc, childStopped := false } } false after iteration ∧
      config.sigcont state state.fsrv.childPid = { state with
        children := Function.update state.children state.fsrv.childPid (some after)
        iterations := state.iterations ++ [iteration]
        trace := written iteration.writes } ∧
      Handed config state state.results.length iteration := by
  obtain ⟨life, parked⟩ : child.life = .stopped true false ∧ Parked config child := by
    cases kept.dozing with
    | waiting life _ parked => exact ⟨life, parked⟩
    | dead killed => cases killed
  let after : Child :=
    { child with life := .running, run := state.iterations.length, pass := child.pass + 1 }
  let iteration : Iteration :=
    { pid := state.fsrv.childPid, testcase := state.testcase, pass := child.pass + 1,
      writes := [⟨0, 1⟩], finish := none }
  have resumed : config.sigcont state state.fsrv.childPid = { state with
      children := Function.update state.children state.fsrv.childPid (some after)
      iterations := state.iterations ++ [iteration]
      trace := written iteration.writes } := by
    unfold Config.sigcont
    simp only [kept.present, life]
    simp only [State.editIteration, State.begin, State.setChild]
    rw [modify_concat, trace]
    rfl
  refine ⟨after, iteration, ?_, resumed, ?_⟩
  · rw [resumed]
    exact {
      current := {
        given := by simp [← settled.count]
        count := by simp [settled.count]
        pid := rfl
        testcase := rfl
        trace := rfl
        positive := kept.positive }
      present := Function.update_self ..
      run := settled.count
      pass := rfl
      childStopped := rfl
      progress := .running rfl rfl rfl parked.resume }
  · have last := kept.last
    rw [List.getLast?_eq_getElem?, settled.count] at last
    have nonempty : state.results.length - 1 < state.results.length := by
      have inside := (List.getElem?_eq_some_iff.mp last).1
      have count := settled.count
      omega
    obtain ⟨result, returned⟩ : ∃ result,
        state.results[state.results.length - 1]? = some result :=
      ⟨_, List.getElem?_eq_getElem nonempty⟩
    have pass := kept.pass
    have bounded := parked.pass_lt
    refine ⟨Nat.succ_pos _, bounded,
      .inr ⟨state.results.length - 1, before, result, by omega, ?_⟩⟩
    exact {
      given := last
      returned
      samePid := kept.pid.symm
      pass := by show child.pass + 1 = before.pass + 1; omega
      stopped := kept.finish
      inTime := settled.last result (by rw [List.getLast?_eq_getElem?, returned])
      isPersistent := kept.isPersistent }

/-! ## The answer -/

theorem Ended.report (ended : Ended config state killed status iteration finish)
    (history : History config state) (timedOut : state.afl.lastRunTimedOut = killed)
    (answered : state.answered = state.fsrv.childPid) :
    History config (config.report state status) ∧
      Settled (config.report state status) killed ∧
      Rested config (config.report state status) killed := by
  have current := ended.current
  refine ⟨⟨history.others, fun i result found => ?_, fun i given found => ?_, ?_⟩,
    ⟨?_, ?_⟩, ?_⟩
  · change (state.results ++ [_])[i]? = some result at found
    rw [List.getElem?_append] at found
    split at found
    · exact history.reported i result found
    · next outside =>
        have place : i = state.results.length := by
          have inside := (List.getElem?_eq_some_iff.mp found).1
          simp only [List.length_singleton] at inside
          omega
        subst place
        simp only [Nat.sub_self, List.getElem?_cons_zero, Option.some.injEq] at found
        subst found
        refine ⟨iteration, current.given, ?_⟩
        exact {
          pid := answered.trans current.pid.symm
          testcase := current.testcase.symm
          trace := current.trace
          finished := ⟨finish, ended.finished, fun inTime =>
            ended.faithful (timedOut.symm.trans inTime)⟩
          outcome := rfl }
  · refine (history.handed i given found).mono rfl rfl (fun _ _ => rfl) fun j inside => ?_
    show (state.results ++ [_])[j]? = state.results[j]?
    rw [List.getElem?_append_left inside]
  · show state.afl.totalExecs + 1 = (state.results ++ [_]).length
    rw [history.totalExecs, List.length_append]
    rfl
  · show state.iterations.length = (state.results ++ [_]).length
    rw [current.count, List.length_append]
    rfl
  · intro result found
    change (state.results ++ [_]).getLast? = some result at found
    rw [List.getLast?_concat, Option.some.injEq] at found
    subst found
    exact timedOut
  · exact ended.rested.congr rfl rfl rfl rfl

/-! ## The conversation -/

/-- afl-fuzz has asked for a run of the test case. -/
structure Asked (state : State) : Prop where
  trace : state.trace = .zero
  inTime : state.afl.lastRunTimedOut = false

/-- afl-fuzz waits for a status, with or without a time limit. -/
inductive Awaits (afl : Afl) (childPid : Pid) : AflPc → Bool → Prop where
  | inTime : afl.lastRunTimedOut = false → afl.childPid = childPid →
      Awaits afl childPid .readStatus false
  | late : afl.lastRunTimedOut = true → Awaits afl childPid .readKilledStatus true

/-- The words in flight and the process, for each pair of control points that
afl-fuzz and the fork server can be at. -/
inductive Conversation (config : Config) (state : State) : AflPc → FsrvPc → Prop where
  | quiet : state.ctl = [] → state.st = [] → Settled state state.afl.lastRunTimedOut →
      Rested config state state.afl.lastRunTimedOut →
      Conversation config state .idle .readRequest
  | asked {word : Nat} : state.ctl = [word] → state.st = [] → Asked state →
      Settled state (word != 0) → Rested config state (word != 0) →
      Conversation config state .readPid .readRequest
  | reaping {child : Child} {iteration : Iteration} : state.ctl = [] → state.st = [] →
      Asked state → Settled state true → state.fsrv.childStopped = false →
      Kept config state true child iteration → Conversation config state .readPid .reapKilled
  | spawning : state.ctl = [] → state.st = [] → Asked state →
      state.iterations.length = state.results.length → state.fsrv.childStopped = false →
      state.Free state.fsrv.childPid → Conversation config state .readPid .spawn
  | resuming {child : Child} {iteration : Iteration} : state.ctl = [] → state.st = [] →
      Asked state → Settled state false → Kept config state false child iteration →
      Conversation config state .readPid .resume
  | announcing {child : Child} {iteration : Iteration} : state.ctl = [] → state.st = [] →
      state.afl.lastRunTimedOut = false → Serves config state false child iteration →
      Conversation config state .readPid .writePid
  | announced {child : Child} {iteration : Iteration} : state.ctl = [] →
      state.st = [state.fsrv.childPid] → state.afl.lastRunTimedOut = false →
      Serves config state false child iteration → Conversation config state .readPid .wait
  | ending {status : Nat} {iteration : Iteration} {finish : Finish} : state.ctl = [] →
      state.st = [state.fsrv.childPid] → state.afl.lastRunTimedOut = false →
      Ended config state false status iteration finish →
      Conversation config state .readPid (.writeStatus status)
  | answered {status : Nat} {iteration : Iteration} {finish : Finish} : state.ctl = [] →
      state.st = [state.fsrv.childPid, status] → state.afl.lastRunTimedOut = false →
      Ended config state false status iteration finish →
      Conversation config state .readPid .readRequest
  | awaited {pc : AflPc} {killed : Bool} {child : Child} {iteration : Iteration} :
      Awaits state.afl state.fsrv.childPid pc killed → state.ctl = [] → state.st = [] →
      state.answered = state.fsrv.childPid → Serves config state killed child iteration →
      Conversation config state pc .wait
  | awaitedEnding {pc : AflPc} {killed : Bool} {status : Nat} {iteration : Iteration}
      {finish : Finish} : Awaits state.afl state.fsrv.childPid pc killed → state.ctl = [] →
      state.st = [] → state.answered = state.fsrv.childPid →
      Ended config state killed status iteration finish →
      Conversation config state pc (.writeStatus status)
  | ready {pc : AflPc} {killed : Bool} {status : Nat} {iteration : Iteration}
      {finish : Finish} : Awaits state.afl state.fsrv.childPid pc killed → state.ctl = [] →
      state.st = [status] → state.answered = state.fsrv.childPid →
      Ended config state killed status iteration finish →
      Conversation config state pc .readRequest
  | failed {pc : AflPc} : pc = .readPid ∨ pc = .fatal → state.ctl = [] → state.st = [] →
      state.Free state.fsrv.childPid → Conversation config state pc .exited

structure Inv (config : Config) (state : State) : Prop where
  history : History config state
  conversation : Conversation config state state.afl.pc state.fsrv.pc

theorem Inv.initial (config : Config) : Inv config .initial where
  history := {
    others := by
      intro pid _ child present
      cases present
    reported := by
      intro i result found
      cases found
    handed := by
      intro i iteration found
      cases found
    totalExecs := rfl }
  conversation := by
    refine .quiet rfl rfl ⟨rfl, fun result found => by cases found⟩ (.gone rfl ?_)
    intro child present
    cases present

/-! ## Steps of afl-fuzz -/

theorem Inv.of {aflPc : AflPc} {fsrvPc : FsrvPc} (history : History config state)
    (waiting : state.afl.pc = aflPc) (pc : state.fsrv.pc = fsrvPc)
    (conversation : Conversation config state aflPc fsrvPc) : Inv config state := by
  subst waiting pc
  exact ⟨history, conversation⟩

/-- Between two runs nothing is in flight. -/
theorem Inv.idle (inv : Inv config state) (pc : state.afl.pc = .idle) :
    state.fsrv.pc = .readRequest ∧ state.ctl = [] ∧ state.st = [] ∧
      Settled state state.afl.lastRunTimedOut ∧
      Rested config state state.afl.lastRunTimedOut := by
  obtain ⟨fsrvPc, control⟩ : ∃ fsrvPc, state.fsrv.pc = fsrvPc := ⟨_, rfl⟩
  have conversation := inv.conversation
  rw [pc, control] at conversation
  rw [control]
  cases conversation with
  | quiet ctl st settled rested => exact ⟨rfl, ctl, st, settled, rested⟩
  | awaited awaits => cases awaits
  | awaitedEnding awaits => cases awaits
  | ready awaits => cases awaits
  | failed pc => simp at pc

theorem Inv.writeToTestcase {testcase : Nat} (inv : Inv config state)
    (stepped : aflFsrvRunTarget config state (.writeToTestcase testcase) = some next) :
    Inv config next := by
  simp only [aflFsrvRunTarget] at stepped
  split at stepped
  · next pc =>
      cases stepped
      obtain ⟨control, ctl, st, settled, rested⟩ := inv.idle pc
      exact .of (inv.history.congr inv.history.others rfl rfl rfl) pc control
        (.quiet ctl st { settled with } (rested.congr rfl rfl rfl rfl))
  · cases stepped

theorem Inv.request (inv : Inv config state)
    (stepped : aflFsrvRunTarget config state .request = some next) : Inv config next := by
  simp only [aflFsrvRunTarget] at stepped
  split at stepped
  · next pc =>
      cases stepped
      obtain ⟨control, ctl, st, settled, rested⟩ := inv.idle pc
      have word : ((if state.afl.lastRunTimedOut then 1 else 0) != 0) =
          state.afl.lastRunTimedOut := by
        cases state.afl.lastRunTimedOut <;> rfl
      have sent : state.ctl ++ [if state.afl.lastRunTimedOut then 1 else 0] =
          [if state.afl.lastRunTimedOut then 1 else 0] := by
        rw [ctl, List.nil_append]
      refine .of (inv.history.congr inv.history.others rfl rfl rfl) rfl control
        (.asked sent st ⟨rfl, rfl⟩ ?_ ?_)
      · rw [word]
        exact { settled with }
      · rw [word]
        exact rested.congr rfl rfl rfl rfl
  · cases stepped

theorem Inv.readPid (inv : Inv config state)
    (stepped : aflFsrvRunTarget config state .readPid = some next) : Inv config next := by
  obtain ⟨history, conversation⟩ := inv
  simp only [aflFsrvRunTarget] at stepped
  split at stepped
  · next word rest pc pending =>
      obtain ⟨other, control⟩ : ∃ other, state.fsrv.pc = other := ⟨_, rfl⟩
      rw [pc, control] at conversation
      have announced (first : word = state.fsrv.childPid) (positive : 0 < state.fsrv.childPid)
          (conversed : Conversation config { state with
            afl := { state.afl with pc := .readStatus, childPid := word }
            answered := word
            st := rest } .readStatus other) : Inv config next := by
        rw [if_neg (show word ≠ 0 from first ▸ Nat.pos_iff_ne_zero.mp positive)] at stepped
        cases stepped
        exact .of (history.congr history.others rfl rfl rfl) rfl control conversed
      have empty (st : state.st = []) : Inv config next := by
        rw [st] at pending
        cases pending
      cases conversation with
      | asked _ st => exact empty st
      | reaping _ st => exact empty st
      | spawning _ st => exact empty st
      | resuming _ st => exact empty st
      | announcing _ st => exact empty st
      | announced ctl st inTime serves =>
          rw [st] at pending
          cases pending
          exact announced rfl serves.current.positive (.awaited (.inTime inTime rfl) ctl rfl rfl
            { serves with current := { serves.current with } })
      | ending ctl st inTime ended =>
          rw [st] at pending
          cases pending
          exact announced rfl ended.current.positive (.awaitedEnding (.inTime inTime rfl) ctl rfl
            rfl (ended.congr { ended.current with } rfl rfl rfl rfl))
      | answered ctl st inTime ended =>
          rw [st] at pending
          cases pending
          exact announced rfl ended.current.positive (.ready (.inTime inTime rfl) ctl rfl
            rfl (ended.congr { ended.current with } rfl rfl rfl rfl))
      | awaited awaits => cases awaits
      | awaitedEnding awaits => cases awaits
      | ready awaits => cases awaits
      | failed _ _ st => exact empty st
  · next pc pending =>
      split at stepped
      · next exited =>
          cases stepped
          rw [pc, exited] at conversation
          cases conversation with
          | failed _ ctl st free =>
              exact .of (history.congr history.others rfl rfl rfl) rfl exited
                (.failed (.inr rfl) ctl st free)
      · cases stepped
  · cases stepped

theorem Inv.readStatus (inv : Inv config state)
    (stepped : aflFsrvRunTarget config state .readStatus = some next) : Inv config next := by
  obtain ⟨history, conversation⟩ := inv
  obtain ⟨aflPc, pc⟩ : ∃ aflPc, state.afl.pc = aflPc := ⟨_, rfl⟩
  obtain ⟨fsrvPc, other⟩ : ∃ fsrvPc, state.fsrv.pc = fsrvPc := ⟨_, rfl⟩
  rw [pc, other] at conversation
  have waits {killed : Bool} {status : Nat}
      (awaits : Awaits state.afl state.fsrv.childPid aflPc killed)
      (pending : state.st = [status]) :
      next = config.report { state with st := [] } status ∧
        state.afl.lastRunTimedOut = killed := by
    cases awaits with
    | inTime inTime =>
        simp only [aflFsrvRunTarget, pc, pending, Option.some.injEq] at stepped
        exact ⟨stepped.symm, inTime⟩
    | late late =>
        simp only [aflFsrvRunTarget, pc, pending, Option.some.injEq] at stepped
        exact ⟨stepped.symm, late⟩
  have starves {killed : Bool} (awaits : Awaits state.afl state.fsrv.childPid aflPc killed)
      (nothing : state.st = []) (serving : fsrvPc ≠ .exited) : False := by
    rw [← other] at serving
    cases awaits with
    | inTime => simp [aflFsrvRunTarget, pc, nothing, serving] at stepped
    | late => simp [aflFsrvRunTarget, pc, nothing, serving] at stepped
  have elsewhere (reads : aflPc ≠ .readStatus ∧ aflPc ≠ .readKilledStatus) : False := by
    cases aflPc <;> simp [aflFsrvRunTarget, pc] at stepped reads
  cases conversation with
  | ready awaits ctl st answered ended =>
      obtain ⟨rfl, timedOut⟩ := waits awaits st
      have ended : Ended config { state with st := [] } _ _ _ _ :=
        ended.congr { ended.current with } rfl rfl rfl rfl
      obtain ⟨history, settled, rested⟩ :=
        ended.report (history.congr history.others rfl rfl rfl) timedOut answered
      exact .of history rfl other
        (.quiet ctl rfl (timedOut.symm ▸ settled) (timedOut.symm ▸ rested))
  | awaited awaits _ st => exact (starves awaits st (by simp)).elim
  | awaitedEnding awaits _ st => exact (starves awaits st (by simp)).elim
  | failed aflPc => rcases aflPc with rfl | rfl <;> exact (elsewhere (by simp)).elim
  | _ => exact (elsewhere (by simp)).elim

theorem Inv.timeout (inv : Inv config state)
    (stepped : aflFsrvRunTarget config state .timeout = some next) : Inv config next := by
  obtain ⟨history, conversation⟩ := inv
  simp only [aflFsrvRunTarget] at stepped
  split at stepped
  · next pc =>
      obtain ⟨other, control⟩ : ∃ other, state.fsrv.pc = other := ⟨_, rfl⟩
      rw [pc, control] at conversation
      rw [Option.some.injEq] at stepped
      let late : State := { state with
        afl := { state.afl with pc := .readKilledStatus, childPid := -1, lastRunTimedOut := true } }
      have history : History config late := history.congr history.others rfl rfl rfl
      have ends {status : Nat} {iteration : Iteration} {finish : Finish}
          (ended : Ended config state false status iteration finish)
          (childPid : state.afl.childPid = state.fsrv.childPid) :
          ∃ children, next = { late with children } ∧ History config { late with children } ∧
            Ended config { late with children } true status iteration finish := by
        have ended : Ended config late false status iteration finish :=
          ended.congr { ended.current with } rfl rfl rfl rfl
        obtain ⟨children, killed, history, ended⟩ := ended.kill history
        rw [childPid] at stepped
        exact ⟨children, stepped.symm.trans killed, history, ended⟩
      cases conversation with
      | awaited awaits ctl st answered serves =>
          cases awaits with
          | inTime _ childPid =>
              have serves : Serves config late false _ _ :=
                { serves with current := { serves.current with } }
              obtain ⟨after, edit, mild, killed, serves⟩ := serves.kill
              rw [childPid] at stepped
              change config.kill late state.fsrv.childPid = next at stepped
              rw [killed] at stepped
              subst stepped
              exact .of (history.work mild after late.trace) rfl control
                (.awaited (.late rfl) ctl st answered serves)
      | awaitedEnding awaits ctl st answered ended =>
          cases awaits with
          | inTime _ childPid =>
              obtain ⟨children, rfl, history, ended⟩ := ends ended childPid
              exact .of history rfl control (.awaitedEnding (.late rfl) ctl st answered ended)
      | ready awaits ctl st answered ended =>
          cases awaits with
          | inTime _ childPid =>
              obtain ⟨children, rfl, history, ended⟩ := ends ended childPid
              exact .of history rfl control (.ready (.late rfl) ctl st answered ended)
      | failed pc => simp at pc
  · cases stepped

/-! ## Steps of the fork server -/

/-- A process that is given the next test case is the only one. -/
theorem History.others_update {pid : Pid} (free : ∀ other, other ≠ pid → state.Free other)
    {children : Pid → Option Child}
    (same : next.children = Function.update children pid (some child))
    (earlier : children = state.children) (other : Pid) (different : other ≠ pid) :
    next.Free other := by
  intro found present
  rw [same, Function.update_of_ne different, earlier] at present
  exact free other different found present

theorem Inv.fork {pid : Pid} (inv : Inv config state)
    (stepped : aflStartForkserver config state (.fork pid) = some next) : Inv config next := by
  obtain ⟨history, conversation⟩ := inv
  simp only [aflStartForkserver] at stepped
  split at stepped
  · next spawning =>
      split at stepped
      · next allowed =>
          obtain ⟨aflPc, waiting⟩ : ∃ aflPc, state.afl.pc = aflPc := ⟨_, rfl⟩
          rw [spawning, waiting] at conversation
          cases conversation with
          | spawning ctl st asked count unstopped free =>
              have everyone (other : Pid) (_ : other ≠ pid) : state.Free other := by
                by_cases same : other = state.fsrv.childPid
                · exact same ▸ free
                · exact history.others other same
              cases stepped
              exact .of (history.begin count (History.others_update everyone rfl rfl) rfl rfl rfl
                ⟨Nat.one_pos, config.passes_pos, .inl rfl⟩) waiting rfl
                (.announcing ctl st asked.inTime
                  (State.begin_serves count asked.trace rfl allowed.1 unstopped rfl rfl rfl))
      · cases stepped
  · cases stepped

theorem Inv.forkFails (inv : Inv config state)
    (stepped : aflStartForkserver config state .forkFails = some next) : Inv config next := by
  obtain ⟨history, conversation⟩ := inv
  simp only [aflStartForkserver] at stepped
  split at stepped
  · next spawning =>
      obtain ⟨aflPc, waiting⟩ : ∃ aflPc, state.afl.pc = aflPc := ⟨_, rfl⟩
      rw [spawning, waiting] at conversation
      cases conversation with
      | spawning ctl st _ _ _ free =>
          cases stepped
          exact .of (history.congr history.others rfl rfl rfl) waiting rfl
            (.failed (.inl rfl) ctl st free)
  · cases stepped

/-- The request decides between a new process, the stopped one, and the loss of
the stopped one. -/
theorem Conversation.readRequest {aflPc : AflPc} (history : History config state)
    (waiting : state.afl.pc = aflPc) (pc : state.fsrv.pc = .readRequest)
    (conversation : Conversation config state aflPc .readRequest)
    (stepped : aflStartForkserver config state .proceed = some next) : Inv config next := by
  simp only [aflStartForkserver, pc] at stepped
  have starves (ctl : state.ctl = []) : False := by
    simp [ctl] at stepped
  cases conversation with
  | quiet ctl => exact (starves ctl).elim
  | answered ctl => exact (starves ctl).elim
  | ready _ ctl => exact (starves ctl).elim
  | @asked word ctl st asked settled rested =>
      rw [ctl] at stepped
      cases rested with
      | gone unstopped free =>
          simp only [unstopped, Bool.false_and, Bool.false_eq_true, if_false, Bool.not_false,
            if_true, Option.some.injEq] at stepped
          subst stepped
          exact .of (history.congr history.others rfl rfl rfl) waiting rfl
            (.spawning rfl st { asked with } settled.count unstopped free)
      | kept stopped kept =>
          simp only [stopped, Bool.true_and, Bool.not_true, Bool.false_eq_true, if_false]
            at stepped
          cases killed : word != 0 with
          | true =>
              rw [killed] at settled kept stepped
              rw [if_pos rfl, Option.some.injEq] at stepped
              subst stepped
              exact .of (history.congr history.others rfl rfl rfl) waiting rfl
                (.reaping rfl st { asked with } { settled with } rfl (kept.congr rfl rfl rfl))
          | false =>
              rw [killed] at settled kept stepped
              rw [if_neg (by simp), Option.some.injEq] at stepped
              subst stepped
              exact .of (history.congr history.others rfl rfl rfl) waiting rfl
                (.resuming rfl st { asked with } { settled with } (kept.congr rfl rfl rfl))

theorem Conversation.reapKilled {aflPc : AflPc} (history : History config state)
    (waiting : state.afl.pc = aflPc) (pc : state.fsrv.pc = .reapKilled)
    (conversation : Conversation config state aflPc .reapKilled)
    (stepped : aflStartForkserver config state .proceed = some next) : Inv config next := by
  simp only [aflStartForkserver, pc] at stepped
  cases conversation with
  | @reaping child iteration ctl st asked settled unstopped kept =>
      rcases kept.dozing.waitpid kept.present with ⟨blocks, _⟩ | ⟨status, returns⟩
      · simp [blocks] at stepped
      · simp only [returns, Option.some.injEq] at stepped
        subst stepped
        have history := history.work .id { child with life := .reaped } state.trace
        refine .of (history.congr history.others rfl rfl rfl) waiting rfl
          (.spawning ctl st { asked with } ?_ unstopped
            (state.work_reaped_free child id state.trace))
        show (state.iterations.modify state.results.length id).length = state.results.length
        rw [List.modify_id]
        exact settled.count

theorem Conversation.resume {aflPc : AflPc} (history : History config state)
    (waiting : state.afl.pc = aflPc) (pc : state.fsrv.pc = .resume)
    (conversation : Conversation config state aflPc .resume)
    (stepped : aflStartForkserver config state .proceed = some next) : Inv config next := by
  simp only [aflStartForkserver, pc, Option.some.injEq] at stepped
  cases conversation with
  | resuming ctl st asked settled kept =>
      obtain ⟨after, iteration, serves, resumed, handed⟩ :=
        kept.sigcont settled asked.trace .writePid
      rw [resumed] at stepped serves
      subst stepped
      exact .of (history.begin settled.count (History.others_update history.others rfl rfl) rfl
        rfl rfl handed) waiting rfl (.announcing ctl st asked.inTime serves)

theorem Conversation.writePid {aflPc : AflPc} (history : History config state)
    (waiting : state.afl.pc = aflPc) (pc : state.fsrv.pc = .writePid)
    (conversation : Conversation config state aflPc .writePid)
    (stepped : aflStartForkserver config state .proceed = some next) : Inv config next := by
  simp only [aflStartForkserver, pc, Option.some.injEq] at stepped
  cases conversation with
  | announcing ctl st inTime serves =>
      subst stepped
      refine .of (history.congr history.others rfl rfl rfl) waiting rfl
        (.announced ctl ?_ inTime { serves with current := { serves.current with } })
      show state.st ++ [state.fsrv.childPid] = [state.fsrv.childPid]
      rw [st, List.nil_append]

theorem Conversation.wait {aflPc : AflPc} (history : History config state)
    (waiting : state.afl.pc = aflPc) (pc : state.fsrv.pc = .wait)
    (conversation : Conversation config state aflPc .wait)
    (stepped : aflStartForkserver config state .proceed = some next) : Inv config next := by
  simp only [aflStartForkserver, pc] at stepped
  have waits {killed : Bool} {child : Child} {iteration : Iteration}
      (serves : Serves config state killed child iteration) :
      ∃ after status finish, next = { state.work after id state.trace with
          fsrv := { state.fsrv with
            pc := .writeStatus status
            childStopped := state.fsrv.childStopped || wifstopped status } } ∧
        History config next ∧ Ended config next killed status iteration finish := by
    rcases serves.waitpid with ⟨blocks, _⟩ | ⟨after, status, finish, returns, ended⟩
    · simp [blocks] at stepped
    · simp only [returns, Option.some.injEq] at stepped
      subst stepped
      have history := history.work .id after state.trace
      exact ⟨after, status, finish, rfl, history.congr history.others rfl rfl rfl, ended _⟩
  cases conversation with
  | announced ctl st inTime serves =>
      obtain ⟨after, status, finish, rfl, history, ended⟩ := waits serves
      exact .of history waiting rfl (.ending ctl st inTime ended)
  | awaited awaits ctl st answered serves =>
      obtain ⟨after, status, finish, rfl, history, ended⟩ := waits serves
      exact .of history waiting rfl (.awaitedEnding awaits ctl st answered ended)

theorem Conversation.writeStatus {aflPc : AflPc} (history : History config state)
    (waiting : state.afl.pc = aflPc) (pc : state.fsrv.pc = .writeStatus status)
    (conversation : Conversation config state aflPc (.writeStatus status))
    (stepped : aflStartForkserver config state .proceed = some next) : Inv config next := by
  simp only [aflStartForkserver, pc, Option.some.injEq] at stepped
  subst stepped
  refine .of (history.congr history.others rfl rfl rfl) waiting rfl ?_
  cases conversation with
  | ending ctl st inTime ended =>
      refine .answered ctl ?_ inTime (ended.congr { ended.current with } rfl rfl rfl rfl)
      show state.st ++ [status] = [state.fsrv.childPid, status]
      rw [st]
      rfl
  | awaitedEnding awaits ctl st answered ended =>
      refine .ready awaits ctl ?_ answered (ended.congr { ended.current with } rfl rfl rfl rfl)
      show state.st ++ [status] = [status]
      rw [st, List.nil_append]

/-! ## Steps of a process -/

/-- Only the process that the fork server has not waited for yet can run. -/
theorem Inv.process {pid : Pid} {action : ChildAction} (inv : Inv config state)
    (stepped : config.step state (.child pid action) = some next) : Inv config next := by
  obtain ⟨history, conversation⟩ := inv
  simp only [Config.step] at stepped
  split at stepped
  · next child present =>
      split at stepped
      · next alive =>
          have own : pid = state.fsrv.childPid := by
            by_contra other
            rw [history.others pid other child present] at alive
            cases alive
          subst own
          obtain ⟨aflPc, waiting⟩ : ∃ aflPc, state.afl.pc = aflPc := ⟨_, rfl⟩
          obtain ⟨fsrvPc, pc⟩ : ∃ fsrvPc, state.fsrv.pc = fsrvPc := ⟨_, rfl⟩
          rw [waiting, pc] at conversation
          have works {killed : Bool} {work : Child} {iteration : Iteration}
              (serves : Serves config state killed work iteration) :
              ∃ after edit trace, next = state.work after edit trace ∧ History config next ∧
                Serves config next killed after (edit iteration) := by
            have same : work = child := Option.some.inj (serves.present.symm.trans present)
            subst same
            obtain ⟨after, edit, trace, mild, rfl, serves⟩ := serves.childStep alive stepped
            exact ⟨after, edit, trace, rfl, history.work mild after trace, serves⟩
          have rests {killed : Bool} (rested : Rested config state killed) : False :=
            rested.not_running present alive
          have gone (free : state.Free state.fsrv.childPid) : False := by
            rw [free child present] at alive
            cases alive
          cases conversation with
          | announcing ctl st inTime serves =>
              obtain ⟨after, edit, trace, rfl, history, serves⟩ := works serves
              exact .of history waiting pc (.announcing ctl st inTime serves)
          | announced ctl st inTime serves =>
              obtain ⟨after, edit, trace, rfl, history, serves⟩ := works serves
              exact .of history waiting pc (.announced ctl st inTime serves)
          | awaited awaits ctl st answered serves =>
              obtain ⟨after, edit, trace, rfl, history, serves⟩ := works serves
              exact .of history waiting pc (.awaited awaits ctl st answered serves)
          | quiet _ _ _ rested => exact (rests rested).elim
          | asked _ _ _ _ rested => exact (rests rested).elim
          | reaping _ _ _ _ _ kept => exact (kept.not_running present alive).elim
          | spawning _ _ _ _ _ free => exact (gone free).elim
          | resuming _ _ _ _ kept => exact (kept.not_running present alive).elim
          | ending _ _ _ ended => exact (rests ended.rested).elim
          | answered _ _ _ ended => exact (rests ended.rested).elim
          | awaitedEnding _ _ _ _ ended => exact (rests ended.rested).elim
          | ready _ _ _ _ ended => exact (rests ended.rested).elim
          | failed _ _ _ free => exact (gone free).elim
      · cases stepped
  · cases stepped

theorem Inv.step (action : Action)
    (inv : Inv config state) (stepped : config.step state action = some next) :
    Inv config next := by
  cases action with
  | afl action =>
      cases action with
      | writeToTestcase testcase => exact inv.writeToTestcase stepped
      | request => exact inv.request stepped
      | readPid => exact inv.readPid stepped
      | readStatus => exact inv.readStatus stepped
      | timeout => exact inv.timeout stepped
  | fsrv action =>
      change aflStartForkserver config state action = some next at stepped
      cases action with
      | fork pid => exact inv.fork stepped
      | forkFails => exact inv.forkFails stepped
      | proceed =>
          obtain ⟨history, conversation⟩ := inv
          cases pc : state.fsrv.pc with
          | readRequest => exact (pc ▸ conversation).readRequest history rfl pc stepped
          | reapKilled => exact (pc ▸ conversation).reapKilled history rfl pc stepped
          | spawn => simp [aflStartForkserver, pc] at stepped
          | resume => exact (pc ▸ conversation).resume history rfl pc stepped
          | writePid => exact (pc ▸ conversation).writePid history rfl pc stepped
          | wait => exact (pc ▸ conversation).wait history rfl pc stepped
          | writeStatus status => exact (pc ▸ conversation).writeStatus history rfl pc stepped
          | exited => simp [aflStartForkserver, pc] at stepped
  | child pid action => exact inv.process stepped

theorem reachable_inv (reachable : config.machine.Reachable state) : Inv config state :=
  config.machine.reachable_invariant (Inv config) (.initial config)
    (fun _ action _ inv stepped => inv.step action stepped) reachable

/-! ## What every run was -/

/-- In whatever order afl-fuzz, the fork server and the processes act, result
`i` is about test case `i`: the pid, the trace map and (unless the run timed
out) the status are those of the one process that was given it, and nothing
was killed that is not reported as a timeout. -/
theorem results_faithful (reachable : config.machine.Reachable state) :
    (∀ (i : Nat) result, state.results[i]? = some result →
      ∃ iteration, state.iterations[i]? = some iteration ∧ Reports config result iteration) ∧
    (state.afl.pc = .idle → state.iterations.length = state.results.length) ∧
    state.afl.totalExecs = state.results.length := by
  have inv := reachable_inv reachable
  refine ⟨inv.history.reported, fun idle => ?_, inv.history.totalExecs⟩
  obtain ⟨_, _, _, settled, _⟩ := inv.idle idle
  exact settled.count

/-- Two test cases in one process, the second of which is killed, and a third
one in a new process. -/
def timeoutRun : List Action :=
  [.afl (.writeToTestcase 5), .afl .request, .fsrv .proceed, .fsrv (.fork 7), .fsrv .proceed,
    .afl .readPid, .child 7 (.write ⟨9, 4⟩), .child 7 .persistentLoop,
    .child 7 (.write ⟨3, 1⟩), .child 7 .persistentLoop, .fsrv .proceed, .fsrv .proceed,
    .afl .readStatus, .afl (.writeToTestcase 6), .afl .request, .fsrv .proceed, .fsrv .proceed,
    .fsrv .proceed, .afl .readPid, .afl .timeout, .fsrv .proceed, .fsrv .proceed,
    .afl .readStatus, .afl .request, .fsrv .proceed, .fsrv (.fork 7)]

def persistentConfig : Config where
  isPersistent := true
  maxCnt := 1000
  childKillSignal := ⟨9, by decide⟩
  usesAsan := false
  usesCrashExitcode := false
  crashExitcode := 0

theorem results_faithful_timeoutRun :
    ∃ state, persistentConfig.machine.run timeoutRun = some state ∧
      (∀ (i : Nat) result, state.results[i]? = some result →
        ∃ iteration, state.iterations[i]? = some iteration ∧
          Reports persistentConfig result iteration) := by
  have enabled : (persistentConfig.machine.run timeoutRun).isSome := rfl
  obtain ⟨state, ran⟩ := Option.isSome_iff_exists.mp enabled
  exact ⟨state, ran, (results_faithful ⟨timeoutRun, ran⟩).1⟩

/-- What afl-fuzz makes of a run, from what its process did. -/
theorem outcome_sound
    (reachable : config.machine.Reachable state) {i : Nat} {result : Result}
    (returned : state.results[i]? = some result) (given : state.iterations[i]? = some iteration)
    (executed : (written iteration.writes).firstWord ≠ execFailSig) :
    (result.outcome = .tmout ↔ result.timedOut = true) ∧
    (result.outcome = .crash ↔ result.timedOut = false ∧
      ∃ finish, iteration.finish = some finish ∧ config.CountsAsCrash finish) ∧
    (result.outcome = .ok ↔ result.timedOut = false ∧
      ∃ finish, iteration.finish = some finish ∧ ¬ config.CountsAsCrash finish) ∧
    (iteration.finish = some .killed → result.outcome = .tmout) := by
  obtain ⟨same, placed, reports⟩ := (reachable_inv reachable).history.reported i result returned
  rw [given, Option.some.injEq] at placed
  subst placed
  obtain ⟨finish, finished, faithful⟩ := reports.finished
  have outcome := reports.outcome
  rw [reports.trace] at outcome
  simp only [Config.outcome, if_neg executed] at outcome
  cases timedOut : result.timedOut with
  | true =>
      rw [timedOut, if_pos rfl] at outcome
      simp [outcome]
  | false =>
      obtain ⟨unkilled, status⟩ := faithful timedOut
      have counts := crashes_finishStatus config finish
      rw [timedOut, if_neg (by simp), status] at outcome
      rw [finished]
      simp only [Option.some.injEq, exists_eq_left', true_and, Bool.false_eq_true, iff_false,
        ← counts]
      cases crashes : config.crashes (config.finishStatus finish) with
      | true =>
          rw [crashes, if_pos rfl] at outcome
          simp [outcome, unkilled]
      | false =>
          rw [crashes, if_neg (by simp)] at outcome
          simp [outcome, unkilled]

theorem outcome_sound_timeoutRun :
    ∃ state result iteration, persistentConfig.machine.run timeoutRun = some state ∧
      state.results[1]? = some result ∧ state.iterations[1]? = some iteration ∧
      (iteration.finish = some .killed → result.outcome = .tmout) := by
  have ends : ((persistentConfig.machine.run timeoutRun).bind fun state =>
      (state.results[1]?).bind fun _ => (state.iterations[1]?).map fun iteration =>
        decide ((written iteration.writes).firstWord ≠ execFailSig)) = some true := by
    decide +kernel
  simp only [Option.bind_eq_some_iff, Option.map_eq_some_iff, decide_eq_true_eq] at ends
  obtain ⟨state, ran, result, returned, iteration, given, executed⟩ := ends
  exact ⟨state, result, iteration, ran, returned, given,
    (outcome_sound ⟨timeoutRun, ran⟩ returned given executed).2.2.2⟩

/-- One process at a time, and a process is given a further test case only
after it has stopped itself in time, at most `max_cnt` in all. So whatever
follows a timeout starts in a new process. -/
theorem one_process_at_a_time (reachable : config.machine.Reachable state) :
    (∀ left right, ¬ state.Free left → ¬ state.Free right → left = right) ∧
    ∀ (i : Nat) iteration, state.iterations[i]? = some iteration →
      0 < iteration.pass ∧ iteration.pass ≤ config.passes ∧
        (iteration.pass = 1 ∨ ∃ j before result, i = j + 1 ∧
          Continues config state iteration j before result) := by
  have history := (reachable_inv reachable).history
  refine ⟨fun left right leftBusy rightBusy => ?_, history.handed⟩
  have own (pid : Pid) (busy : ¬ state.Free pid) : pid = state.fsrv.childPid := by
    by_contra other
    exact busy (history.others pid other)
  rw [own left leftBusy, own right rightBusy]

theorem one_process_at_a_time_timeoutRun :
    ∃ state, persistentConfig.machine.run timeoutRun = some state ∧
      ∀ left right, ¬ state.Free left → ¬ state.Free right → left = right := by
  have enabled : (persistentConfig.machine.run timeoutRun).isSome := rfl
  obtain ⟨state, ran⟩ := Option.isSome_iff_exists.mp enabled
  exact ⟨state, ran, (one_process_at_a_time ⟨timeoutRun, ran⟩).1⟩

/-! ## Whether afl-fuzz gets its answer -/

@[simp] def Action.isChild : Action → Bool
  | .child _ _ => true
  | _ => false

/-- The steps of afl-fuzz that are left of a run. -/
@[simp] def AflPc.rank : AflPc → Nat
  | .idle => 0
  | .fatal => 0
  | .readKilledStatus => 1
  | .readStatus => 2
  | .readPid => 3

@[simp] def FsrvPc.rank (requested : Bool) : FsrvPc → Nat
  | .readRequest => if requested then 6 else 0
  | .reapKilled => 5
  | .spawn => 4
  | .resume => 4
  | .writePid => 3
  | .wait => 2
  | .writeStatus _ => 1
  | .exited => 0

def State.rank (state : State) : Nat :=
  state.afl.pc.rank + state.fsrv.pc.rank (state.ctl != [])

/-- The kill signal never leaves a stopped process behind. -/
def Config.Resolves (config : Config) : Prop :=
  config.isPersistent = false ∨ config.maxCnt = 1 ∨ config.childKillSignal.val = sigkill

theorem Kept.waitpid (resolves : config.Resolves) (history : History config state)
    (kept : Kept config state true child iteration) :
    ∃ waited status, config.waitpid state state.fsrv.childPid false = .returns waited status ∧
      waited.afl = state.afl ∧ waited.ctl = state.ctl ∧ waited.fsrv = state.fsrv := by
  rcases kept.dozing.waitpid kept.present with ⟨_, spared, parked⟩ | ⟨status, returns⟩
  · exfalso
    rcases resolves with transient | once | lethal
    · rw [kept.isPersistent] at transient
      cases transient
    · have last := kept.last
      rw [List.getLast?_eq_getElem?] at last
      have positive := (history.handed _ iteration last).1
      rw [kept.pass] at positive
      have passes : config.passes = 1 := by simp [Config.passes, once]
      have below := parked.pass_lt
      omega
    · exact spared lethal
  · exact ⟨_, status, returns, rfl, rfl, rfl⟩

theorem Config.kill_frame (config : Config) (state : State) (pid : Pid) :
    (config.kill state pid).afl = state.afl ∧ (config.kill state pid).fsrv = state.fsrv ∧
      (config.kill state pid).ctl = state.ctl := by
  unfold Config.kill
  split
  · split
    · exact ⟨rfl, rfl, rfl⟩
    · split
      · exact ⟨rfl, rfl, rfl⟩
      · exact ⟨rfl, rfl, rfl⟩
    · exact ⟨rfl, rfl, rfl⟩
    · exact ⟨rfl, rfl, rfl⟩
  · exact ⟨rfl, rfl, rfl⟩

/-- Without any help of a process, some party can go on. -/
theorem Inv.advances (resolves : config.Resolves)
    (inv : Inv config state) (busy : state.afl.pc ≠ .idle) (serving : state.fsrv.pc ≠ .exited) :
    ∃ action next, action.isChild = false ∧ config.step state action = some next ∧
      next.fsrv.pc ≠ .exited ∧ next.rank < state.rank := by
  obtain ⟨history, conversation⟩ := inv
  obtain ⟨aflPc, waiting⟩ : ∃ aflPc, state.afl.pc = aflPc := ⟨_, rfl⟩
  obtain ⟨fsrvPc, pc⟩ : ∃ fsrvPc, state.fsrv.pc = fsrvPc := ⟨_, rfl⟩
  rw [waiting, pc] at conversation
  rw [waiting] at busy
  rw [pc] at serving
  have proceeds {next : State} (stepped : aflStartForkserver config state .proceed = some next)
      (afl : next.afl = state.afl) (more : next.fsrv.pc ≠ .exited)
      (lower : next.fsrv.pc.rank (next.ctl != []) < state.fsrv.pc.rank (state.ctl != [])) :
      ∃ action next, action.isChild = false ∧ config.step state action = some next ∧
        next.fsrv.pc ≠ .exited ∧ next.rank < state.rank := by
    refine ⟨.fsrv .proceed, next, rfl, stepped, more, ?_⟩
    unfold State.rank
    rw [afl]
    omega
  have reads {rest : List Nat} (positive : 0 < state.fsrv.childPid)
      (pending : state.st = state.fsrv.childPid :: rest) (control : state.afl.pc = .readPid) :
      ∃ action next, action.isChild = false ∧ config.step state action = some next ∧
        next.fsrv.pc ≠ .exited ∧ next.rank < state.rank := by
    have nonzero : state.fsrv.childPid ≠ 0 := Nat.pos_iff_ne_zero.mp positive
    have stepped : config.step state (.afl .readPid) = some { state with
        afl := { state.afl with pc := .readStatus, childPid := state.fsrv.childPid }
        answered := state.fsrv.childPid
        st := rest } := by
      simp only [Config.step, aflFsrvRunTarget, control, pending, if_neg nonzero]
    refine ⟨.afl .readPid, _, rfl, stepped, by rw [pc]; exact serving, ?_⟩
    simp [State.rank, control]
  have answers {status : Nat} (ctl : state.ctl = [])
      (control : state.fsrv.pc = .writeStatus status) :
      ∃ action next, action.isChild = false ∧ config.step state action = some next ∧
        next.fsrv.pc ≠ .exited ∧ next.rank < state.rank := by
    have stepped : aflStartForkserver config state .proceed =
        some ({ state with st := state.st ++ [status] }.setFsrvPc .readRequest) := by
      simp only [aflStartForkserver, control]
    exact proceeds stepped rfl (by simp [State.setFsrvPc])
      (by simp [State.setFsrvPc, control, ctl])
  cases conversation with
  | quiet => exact absurd rfl busy
  | @asked word ctl st asked settled rested =>
      obtain ⟨next, stepped, afl, more, lower⟩ : ∃ next,
          aflStartForkserver config state .proceed = some next ∧ next.afl = state.afl ∧
            next.fsrv.pc ≠ .exited ∧ next.fsrv.pc.rank (next.ctl != []) < 6 := by
        simp only [aflStartForkserver, pc, ctl]
        split
        · exact ⟨_, rfl, rfl, by simp, by simp⟩
        · split
          · exact ⟨_, rfl, rfl, by simp [State.setFsrvPc], by simp [State.setFsrvPc]⟩
          · exact ⟨_, rfl, rfl, by simp [State.setFsrvPc], by simp [State.setFsrvPc]⟩
      refine proceeds stepped afl more ?_
      simpa [pc, ctl] using lower
  | reaping ctl st asked settled unstopped kept =>
      obtain ⟨waited, status, returns, afl, same, fsrv⟩ := kept.waitpid resolves history
      have stepped : aflStartForkserver config state .proceed = some (waited.setFsrvPc .spawn) := by
        simp only [aflStartForkserver, pc, returns]
      exact proceeds stepped afl (by simp [State.setFsrvPc]) (by simp [State.setFsrvPc, pc])
  | spawning ctl st asked count unstopped free =>
      have allowed : 0 < 1 ∧ state.Free 1 := by
        refine ⟨Nat.one_pos, ?_⟩
        by_cases same : 1 = state.fsrv.childPid
        · exact same ▸ free
        · exact history.others 1 same
      obtain ⟨next, stepped, afl, control⟩ : ∃ next,
          aflStartForkserver config state (.fork 1) = some next ∧ next.afl = state.afl ∧
            next.fsrv.pc = .writePid := by
        simp only [aflStartForkserver, pc, if_pos allowed]
        exact ⟨_, rfl, rfl, rfl⟩
      refine ⟨.fsrv (.fork 1), next, rfl, stepped, by simp [control], ?_⟩
      simp [State.rank, afl, control, pc]
  | resuming ctl st asked settled kept =>
      have stepped : aflStartForkserver config state .proceed =
          some { config.sigcont state state.fsrv.childPid with
            fsrv := { state.fsrv with pc := .writePid, childStopped := false } } := by
        simp only [aflStartForkserver, pc]
      obtain ⟨after, iteration, _, resumed, _⟩ :=
        kept.sigcont settled asked.trace .writePid
      rw [resumed] at stepped
      exact proceeds stepped rfl (by simp) (by simp [pc])
  | announcing ctl st inTime serves =>
      have stepped : aflStartForkserver config state .proceed =
          some ({ state with st := state.st ++ [state.fsrv.childPid] }.setFsrvPc .wait) := by
        simp only [aflStartForkserver, pc]
      exact proceeds stepped rfl (by simp [State.setFsrvPc]) (by simp [State.setFsrvPc, pc])
  | announced ctl st inTime serves =>
      exact reads serves.current.positive st waiting
  | ending ctl st inTime ended => exact answers ctl pc
  | answered ctl st inTime ended =>
      exact reads ended.current.positive st waiting
  | awaited awaits ctl st answered serves =>
      rcases serves.waitpid with ⟨blocks, _, alive⟩ | ⟨after, status, finish, returns, _⟩
      · cases awaits with
        | late => cases alive
        | inTime =>
            let late : State := { state with
              afl := { state.afl with
                pc := .readKilledStatus, childPid := -1, lastRunTimedOut := true } }
            have stepped : config.step state (.afl .timeout) =
                some (config.kill late state.afl.childPid.toNat) := by
              simp only [Config.step, aflFsrvRunTarget, waiting, late]
            obtain ⟨afl, fsrv, same⟩ := config.kill_frame late state.afl.childPid.toNat
            refine ⟨.afl .timeout, _, rfl, stepped, ?_, ?_⟩
            · rw [fsrv]
              simp [late, pc]
            · unfold State.rank
              rw [afl, fsrv, same]
              simp [late, pc, waiting]
      · have stepped : aflStartForkserver config state .proceed =
            some { state.work after id state.trace with
              fsrv := { state.fsrv with
                pc := .writeStatus status
                childStopped := state.fsrv.childStopped || wifstopped status } } := by
          simp only [aflStartForkserver, pc, returns]
        exact proceeds stepped rfl (by simp) (by simp [pc])
  | awaitedEnding awaits ctl st answered ended => exact answers ctl pc
  | @ready _ _ status _ _ awaits ctl st answered ended =>
      have stepped : config.step state (.afl .readStatus) =
          some (config.report { state with st := [] } status) := by
        cases awaits with
        | inTime => simp only [Config.step, aflFsrvRunTarget, waiting, st]
        | late => simp only [Config.step, aflFsrvRunTarget, waiting, st]
      refine ⟨.afl .readStatus, _, rfl, stepped, ?_, ?_⟩
      · simp [Config.report, pc]
      · cases awaits with
        | inTime => simp [State.rank, Config.report, pc, ctl, waiting]
        | late => simp [State.rank, Config.report, pc, ctl, waiting]
  | failed => exact absurd rfl serving

/-- The process stops itself, and before that is known the run times out. -/
def raceRun : List Action :=
  [.afl .request, .fsrv .proceed, .fsrv (.fork 1), .child 1 .persistentLoop,
    .child 1 .persistentLoop, .fsrv .proceed, .afl .readPid, .afl .timeout, .fsrv .proceed,
    .fsrv .proceed, .afl .readStatus, .afl .request, .fsrv .proceed]

theorem raceRun_reaps (config : Config) (isPersistent : config.isPersistent = true)
    (more : config.maxCnt ≠ 1) (spared : config.childKillSignal.val ≠ sigkill) :
    ∃ state, config.machine.run raceRun = some state ∧ state.afl.pc = .readPid ∧
      state.fsrv.pc = .reapKilled := by
  have stops : config.maxCnt - 1 ≠ 0 := by
    intro zero
    refine more ?_
    rw [← UInt32.sub_add_cancel config.maxCnt 1, zero]
    rfl
  simp [raceRun, Systems.Machine.run, Config.machine, Config.step, aflFsrvRunTarget,
    aflStartForkserver, State.initial, State.setFsrvPc, State.begin, State.setChild,
    State.editIteration, State.Free, Config.childStep, Config.aflPersistentLoop, Config.kill,
    Config.waitpid, Config.report, Config.finishStatus, wifstopped, sigstop, isPersistent, stops,
    spared]

/-- The fork server waits for a process that is stopped, afl-fuzz for the fork
server. -/
theorem Inv.stuck (inv : Inv config state)
    (spared : config.childKillSignal.val ≠ sigkill) (waiting : state.afl.pc = .readPid)
    (pc : state.fsrv.pc = .reapKilled) (action : Action) : config.step state action = none := by
  obtain ⟨history, conversation⟩ := inv
  rw [waiting, pc] at conversation
  cases conversation with
  | reaping ctl st asked settled unstopped kept =>
      cases action with
      | afl action => cases action <;> simp [Config.step, aflFsrvRunTarget, waiting, st, pc]
      | fsrv action =>
          cases action with
          | fork pid => simp [Config.step, aflStartForkserver, pc]
          | forkFails => simp [Config.step, aflStartForkserver, pc]
          | proceed =>
              have blocks : config.waitpid state state.fsrv.childPid false = .blocks := by
                cases kept.dozing with
                | waiting life => simp only [Config.waitpid, kept.present, life]
                | dead _ lethal => exact absurd lethal spared
              simp only [Config.step, aflStartForkserver, pc, blocks]
      | child pid action =>
          simp only [Config.step]
          split
          · next child present =>
              have resting : child.life ≠ .running := by
                by_cases same : pid = state.fsrv.childPid
                · exact kept.not_running (same ▸ present)
                · simp [history.others pid same child present]
              rw [if_neg resting]
          · rfl

/-- afl-fuzz gets the answer of every request, however the process behaves, if
and only if the kill signal never leaves a stopped process behind. A process
that stops itself at the moment of the timeout otherwise blocks the fork server
in `waitpid`, and afl-fuzz in its read of the pid. -/
theorem answered_iff_resolves (config : Config) :
    (∀ state, config.machine.Reachable state → state.fsrv.pc ≠ .exited →
      ∃ actions final, (∀ action ∈ actions, action.isChild = false) ∧
        config.machine.runFrom state actions = some final ∧ final.afl.pc = .idle) ↔
      config.Resolves := by
  constructor
  · intro answers
    by_contra unresolved
    simp only [Config.Resolves, not_or, Bool.not_eq_false] at unresolved
    obtain ⟨isPersistent, more, spared⟩ := unresolved
    obtain ⟨state, ran, waiting, pc⟩ := raceRun_reaps config isPersistent more spared
    have reachable : config.machine.Reachable state := ⟨raceRun, ran⟩
    obtain ⟨actions, final, _, ran, idle⟩ := answers state reachable (by simp [pc])
    have same := config.machine.runFrom_of_stuck
      ((reachable_inv reachable).stuck spared waiting pc) ran
    rw [same, waiting] at idle
    cases idle
  · intro resolves state reachable serving
    have start : Inv config state ∧ state.fsrv.pc ≠ .exited :=
      ⟨reachable_inv reachable, serving⟩
    refine config.machine.exists_runFrom_of_rank (fun action => action.isChild = false)
      (fun state => Inv config state ∧ state.fsrv.pc ≠ .exited)
      (fun state => state.afl.pc = .idle) State.rank ?_ start
    intro state ⟨inv, serving⟩ busy
    obtain ⟨action, next, own, stepped, more, lower⟩ := inv.advances resolves busy serving
    exact ⟨action, next, own, stepped, ⟨inv.step action stepped, more⟩, lower⟩

end SbFuzz.Fuzzer.RunTarget
