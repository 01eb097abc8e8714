import SbFuzz.Unicornafl.ForkserverTransition

/-! What holds in every reachable state of the fork server: which requests,
pids and statuses are in flight between AFL and the parent, what the current
child may still send, and which processes are left. -/

set_option autoImplicit false

namespace SbFuzz.Unicornafl

/-! ## Reading the log -/

@[simp] def Event.announced? : Event → Option Pid
  | .writePid pid => some pid
  | _ => none

@[simp] def Event.report? : Event → Option Report
  | .writeStatus report => some report
  | _ => none

@[simp] def Event.heardPid? : Event → Option Nat
  | .readPid word => some word
  | _ => none

@[simp] def Event.heardStatus? : Event → Option Nat
  | .readStatus word => some word
  | _ => none

@[simp] def Event.request? : Event → Option Unit
  | .request => some ()
  | _ => none

def asked (log : List Event) : Nat := (log.filterMap Event.request?).length

def announced (log : List Event) : List Pid := log.filterMap Event.announced?

def reports (log : List Event) : List Report := log.filterMap Event.report?

def heardPids (log : List Event) : List Nat := log.filterMap Event.heardPid?

def heardStatuses (log : List Event) : List Nat := log.filterMap Event.heardStatus?

@[simp] theorem asked_append (left right : List Event) :
    asked (left ++ right) = asked left + asked right := by simp [asked]
@[simp] theorem announced_append (left right : List Event) :
    announced (left ++ right) = announced left ++ announced right := by simp [announced]
@[simp] theorem reports_append (left right : List Event) :
    reports (left ++ right) = reports left ++ reports right := by simp [reports]
@[simp] theorem heardPids_append (left right : List Event) :
    heardPids (left ++ right) = heardPids left ++ heardPids right := by simp [heardPids]
@[simp] theorem heardStatuses_append (left right : List Event) :
    heardStatuses (left ++ right) = heardStatuses left ++ heardStatuses right := by
  simp [heardStatuses]

@[simp] theorem asked_singleton (event : Event) :
    asked [event] = event.request?.toList.length := by
  cases event <;> rfl
@[simp] theorem announced_singleton (event : Event) :
    announced [event] = event.announced?.toList := by
  cases event <;> rfl
@[simp] theorem reports_singleton (event : Event) : reports [event] = event.report?.toList := by
  cases event <;> rfl
@[simp] theorem heardPids_singleton (event : Event) :
    heardPids [event] = event.heardPid?.toList := by
  cases event <;> rfl
@[simp] theorem heardStatuses_singleton (event : Event) :
    heardStatuses [event] = event.heardStatus?.toList := by
  cases event <;> rfl

/-! ## The conversation between AFL and the parent -/

/-- Between the receipt of a request and the pid. -/
def ParentPc.Preparing : ParentPc → Prop
  | .reapKilled => True
  | .spawn => True
  | .resume => True
  | .writePid => True
  | _ => False

/-- Between the pid and the status. -/
def ParentPc.Serving : ParentPc → Prop
  | .handleRequests => True
  | .handlePc => True
  | .reapExited => True
  | .writeStatus _ => True
  | _ => False

@[simp] theorem ParentPc.not_preparing_readRequest : ¬ ParentPc.Preparing .readRequest := id
@[simp] theorem ParentPc.not_preparing_returned : ¬ ParentPc.Preparing .returned := id
@[simp] theorem ParentPc.not_serving_readRequest : ¬ ParentPc.Serving .readRequest := id
@[simp] theorem ParentPc.not_serving_returned : ¬ ParentPc.Serving .returned := id

theorem ParentPc.Preparing.not_serving {pc : ParentPc} (preparing : pc.Preparing) :
    ¬ pc.Serving := by
  cases pc <;> simp_all [ParentPc.Preparing, ParentPc.Serving]

/-- AFL has sent `unanswered` more requests than the parent has answered, and
has not read these pids and statuses yet. -/
structure InFlight (state : State) (unanswered : Nat) (pids statuses : List Nat) : Prop where
  requests : asked state.log = state.parent.requests + unanswered
  pids : announced state.log = heardPids state.log ++ pids
  statuses : (reports state.log).map Report.status = heardStatuses state.log ++ statuses

inductive Conversation (state : State) : Prop where
  | quiet : state.afl.pc = .idle → state.parent.pc = .readRequest →
      state.ctl = [] → state.st = [] → InFlight state 0 [] [] → Conversation state
  | asked {word : Nat} : state.afl.pc = .readPid → state.parent.pc = .readRequest →
      state.ctl = [word] → state.st = [] → state.afl.lastRunTimedOut = false →
      InFlight state 1 [] [] → Conversation state
  | preparing : state.afl.pc = .readPid → state.parent.pc.Preparing →
      state.ctl = [] → state.st = [] → state.afl.lastRunTimedOut = false →
      InFlight state 1 [] [] → Conversation state
  | stopped : state.afl.pc = .readPid → state.parent.pc = .returned →
      state.ctl = [] → state.st = [] → state.afl.lastRunTimedOut = false →
      InFlight state 1 [] [] → Conversation state
  | announced : state.afl.pc = .readPid → state.parent.pc.Serving →
      state.ctl = [] → state.st = [state.parent.childPid] →
      state.afl.lastRunTimedOut = false →
      InFlight state 1 [state.parent.childPid] [] → Conversation state
  | answered {status : Nat} : state.afl.pc = .readPid → state.parent.pc = .readRequest →
      state.ctl = [] → state.st = [state.parent.childPid, status] →
      state.afl.lastRunTimedOut = false →
      InFlight state 0 [state.parent.childPid] [status] → Conversation state
  | awaited : state.afl.pc.AwaitsStatus → state.parent.pc.Serving →
      state.ctl = [] → state.st = [] → state.afl.childPid = state.parent.childPid →
      InFlight state 1 [] [] → Conversation state
  | ready {status : Nat} : state.afl.pc.AwaitsStatus → state.parent.pc = .readRequest →
      state.ctl = [] → state.st = [status] → state.afl.childPid = state.parent.childPid →
      InFlight state 0 [] [status] → Conversation state

/-! ## What a child may still send -/

/-- How the bytes in a child's pipe end. -/
inductive Tail where
  | clean
  | cut
  | reported (run : Nat)

/-- The contents of a child's pipe, read by a parent that expects an address
(`true`) or a message (`false`) next. -/
inductive Stream : Bool → List ChildItem → Tail → Prop where
  | clean : Stream false [] .clean
  | cut : Stream true [] .cut
  | tslRequest {rest tail run} : Stream true rest tail →
      Stream false (.msg .tslRequest run :: rest) tail
  | pc {rest tail address} : Stream false rest tail → Stream true (.pc address :: rest) tail
  | report {ret run} : ret = .next ∨ ret = .foundCrash →
      Stream false [.msg ret run] (.reported run)

theorem Stream.append_tslRequest {expect : Bool} {items : List ChildItem} {tail : Tail}
    (stream : Stream expect items tail) (clean : tail = .clean) (run : Nat) :
    Stream expect (items ++ [.msg .tslRequest run]) .cut := by
  induction stream with
  | clean => exact .tslRequest .cut
  | cut => cases clean
  | tslRequest _ ih => exact .tslRequest (ih clean)
  | pc _ ih => exact .pc (ih clean)
  | report => cases clean

theorem Stream.append_pc {expect : Bool} {items : List ChildItem} {tail : Tail}
    (stream : Stream expect items tail) (cut : tail = .cut) (address : UInt64) :
    Stream expect (items ++ [.pc address]) .clean := by
  induction stream with
  | clean => cases cut
  | cut => exact .pc .clean
  | tslRequest _ ih => exact .tslRequest (ih cut)
  | pc _ ih => exact .pc (ih cut)
  | report => cases cut

theorem Stream.append_report {expect : Bool} {items : List ChildItem} {tail : Tail}
    (stream : Stream expect items tail) (clean : tail = .clean) {ret : AflChildRet} (run : Nat)
    (final : ret = .next ∨ ret = .foundCrash) :
    Stream expect (items ++ [.msg ret run]) (.reported run) := by
  induction stream with
  | clean => exact .report final
  | cut => cases clean
  | tslRequest _ ih => exact .tslRequest (ih clean)
  | pc _ ih => exact .pc (ih clean)
  | report => cases clean

/-- What a live child at a control point has left at the end of its pipe. -/
def ChildPc.tail (pc : ChildPc) (run : Nat) : Tail :=
  match pc with
  | .running => .clean
  | .sendingPc _ => .cut
  | .asking => .clean
  | .waiting => .reported run

/-- A child that has been told to execute run `run` and whose report on it the
parent has not read yet. -/
inductive InRun (run : Nat) (expect : Bool) (child : Child) : Prop where
  | notStarted : expect = false → child.life ≠ .reaped → child.pc = .waiting →
      child.childPipe = [] → child.parentPipe = [run] → InRun run expect child
  | started (tail : Tail) : child.life ≠ .reaped → child.run = run → child.parentPipe = [] →
      Stream expect child.childPipe tail →
      (tail = child.pc.tail run ∨ child.life ≠ .alive) →
      (∀ other, tail = .reported other → other = run ∧ child.pc = .waiting) →
      InRun run expect child

/-- A child whose report has been read and that has not been told to go on. -/
structure Idle (child : Child) : Prop where
  notReaped : child.life ≠ .reaped
  waiting : child.pc = .waiting
  childPipe : child.childPipe = []
  parentPipe : child.parentPipe = []

theorem Idle.no_step {ucafl : UCAFL} {pid : Pid} {child after : Child} {events : List Event}
    (idle : Idle child) (rule : ChildTransition ucafl pid child after events) : False := by
  have waiting := idle.waiting
  cases rule with
  | requestTb _ control => rw [waiting] at control; cases control
  | sendPc control => rw [waiting] at control; cases control
  | finish _ control => rw [waiting] at control; cases control
  | ask control => rw [waiting] at control; cases control
  | resume _ pending => rw [idle.parentPipe] at pending; cases pending
  | die _ control =>
      rcases control with control | ⟨address, control⟩ <;> rw [waiting] at control <;> cases control

@[simp] theorem Child.killed_pc (child : Child) : child.killed.pc = child.pc := by
  unfold Child.killed; split <;> rfl
@[simp] theorem Child.killed_run (child : Child) : child.killed.run = child.run := by
  unfold Child.killed; split <;> rfl
@[simp] theorem Child.killed_childPipe (child : Child) :
    child.killed.childPipe = child.childPipe := by
  unfold Child.killed; split <;> rfl
@[simp] theorem Child.killed_parentPipe (child : Child) :
    child.killed.parentPipe = child.parentPipe := by
  unfold Child.killed; split <;> rfl

theorem Child.killed_not_alive (child : Child) : child.killed.life ≠ .alive := by
  unfold Child.killed
  split
  · simp
  · assumption

theorem Child.killed_reaped_iff (child : Child) :
    child.killed.life = .reaped ↔ child.life = .reaped := by
  unfold Child.killed
  split
  · next alive => simp [alive]
  · rfl

theorem Idle.killed {child : Child} (idle : Idle child) : Idle child.killed where
  notReaped := fun reaped => idle.notReaped (child.killed_reaped_iff.mp reaped)
  waiting := by simpa using idle.waiting
  childPipe := by simpa using idle.childPipe
  parentPipe := by simpa using idle.parentPipe

theorem InRun.killed {run : Nat} {expect : Bool} {child : Child} (inRun : InRun run expect child) :
    InRun run expect child.killed := by
  have notReaped (present : child.life ≠ .reaped) : child.killed.life ≠ .reaped :=
    fun reaped => present (child.killed_reaped_iff.mp reaped)
  cases inRun with
  | notStarted expecting present control drained pending =>
      exact .notStarted expecting (notReaped present) (by simpa using control)
        (by simpa using drained) (by simpa using pending)
  | started tail present same drained stream _ own =>
      exact .started tail (notReaped present) (by simpa using same) (by simpa using drained)
        (by simpa using stream) (.inr child.killed_not_alive) (by simpa using own)

theorem InRun.not_reaped {run : Nat} {expect : Bool} {child : Child}
    (inRun : InRun run expect child) : child.life ≠ .reaped := by
  cases inRun with
  | notStarted _ present => exact present
  | started _ present => exact present

/-- A live child keeps its pipe in order whatever it does, and only ever
starts the run it was told to execute. -/
theorem InRun.step {ucafl : UCAFL} {run : Nat} {expect : Bool} {pid : Pid} {child after : Child}
    {events : List Event} (inRun : InRun run expect child) (alive : child.life = .alive)
    (rule : ChildTransition ucafl pid child after events) :
    InRun run expect after ∧ ∀ event ∈ events, (∀ other round, event ≠ .finish pid other round) →
      event = .start pid run := by
  cases inRun with
  | notStarted expecting present control drained pending =>
      cases rule with
      | requestTb _ running => rw [control] at running; cases running
      | sendPc sending => rw [control] at sending; cases sending
      | finish _ running => rw [control] at running; cases running
      | ask asking => rw [control] at asking; cases asking
      | die _ running =>
          rcases running with running | ⟨address, running⟩ <;> rw [control] at running <;>
            cases running
      | @resume told rest _ received =>
          rw [pending] at received
          cases received
          refine ⟨.started .clean present rfl rfl ?_ (.inl rfl) (by simp), by simp⟩
          simp only [drained, expecting]
          exact .clean
  | started tail present same drained stream ending own =>
      have atTail : tail = child.pc.tail run := by
        rcases ending with ending | dead
        · exact ending
        · exact absurd alive dead
      cases rule with
      | requestTb address control =>
          rw [control] at atTail
          refine ⟨.started .cut present same drained ?_ (.inl rfl) (by simp), by simp⟩
          exact stream.append_tslRequest atTail child.run
      | @sendPc address control =>
          rw [control] at atTail
          refine ⟨.started .clean present same drained ?_ (.inl rfl) (by simp), by simp⟩
          exact stream.append_pc atTail address
      | finish round control =>
          rw [control] at atTail
          subst atTail
          refine ⟨?_, by simp⟩
          unfold UCAFL.endRound
          split
          · exact .started .clean (by simp) same drained stream (.inr (by simp)) (by simp)
          · split
            · exact .started .clean present same drained stream (.inl rfl) (by simp)
            · exact .started .clean (by simp) same drained stream (.inr (by simp)) (by simp)
      | ask control =>
          rw [control] at atTail
          refine ⟨.started (.reported run) present same drained ?_ (.inl rfl) (by simp), by simp⟩
          rw [same]
          exact stream.append_report atTail run (by cases child.crashFound <;> simp)
      | resume control received =>
          rw [drained] at received
          cases received
      | die status control =>
          refine ⟨.started tail (by simp) same drained stream (.inr (by simp)) ?_, by simp⟩
          intro other reported
          rcases control with control | ⟨address, control⟩ <;> rw [control] at atTail <;>
            rw [atTail] at reported <;> cases reported

/-! ## The current child -/

/-- What the parent's control point says about the child it last forked. -/
def CurrentChild (state : State) : Prop :=
  match state.parent.pc with
  | .readRequest =>
      (state.parent.childRet = .exited →
        ∀ child, state.children state.parent.childPid = some child → child.life = .reaped) ∧
      (state.parent.childRet ≠ .exited →
        ∃ child, state.children state.parent.childPid = some child ∧ Idle child)
  | .reapKilled => state.parent.childRet ≠ .exited ∧
      ∃ child status, state.children state.parent.childPid = some child ∧ Idle child ∧
        child.life = .zombie status
  | .spawn => state.parent.childRet = .exited ∧
      ∀ child, state.children state.parent.childPid = some child → child.life = .reaped
  | .resume => state.parent.childRet ≠ .exited ∧
      ∃ child, state.children state.parent.childPid = some child ∧ Idle child ∧
        child.life = .alive
  | .writePid => ∃ child, state.children state.parent.childPid = some child ∧
      InRun state.parent.requests false child
  | .handleRequests => ∃ child, state.children state.parent.childPid = some child ∧
      InRun state.parent.requests false child
  | .handlePc => ∃ child, state.children state.parent.childPid = some child ∧
      InRun state.parent.requests true child
  | .reapExited => state.parent.childRet = .exited ∧
      ∃ child status, state.children state.parent.childPid = some child ∧
        child.life = .zombie status
  | .writeStatus (.message pid run ret) => pid = state.parent.childPid ∧
      run = state.parent.requests ∧ ret = state.parent.childRet ∧ ret ≠ .exited ∧
      ∃ child, state.children state.parent.childPid = some child ∧ Idle child
  | .writeStatus (.waited pid _) => pid = state.parent.childPid ∧
      state.parent.childRet = .exited ∧
      ∀ child, state.children state.parent.childPid = some child → child.life = .reaped
  | .returned => ∀ child, state.children state.parent.childPid = some child → child.life = .reaped

/-- AFL has killed the current child and the parent has not been told yet. -/
def KillPending (state : State) : Prop :=
  state.afl.lastRunTimedOut = true ∨ ∃ word ∈ state.ctl, word ≠ 0

structure ChildrenInv (state : State) : Prop where
  others : ∀ pid child, state.children pid = some child → pid ≠ state.parent.childPid →
    child.life = .reaped
  current : CurrentChild state
  killed : KillPending state → ∀ child, state.children state.parent.childPid = some child →
    child.life ≠ .alive
  onlyKilled : state.parent.pc ≠ .reapKilled → ∀ child status,
    state.children state.parent.childPid = some child → child.pc = .waiting →
    child.life = .zombie status → KillPending state

/-! ## The log of the parent -/

structure ServiceLog (state : State) : Prop where
  served : (reports state.log).length = state.parent.requests
  announcedBefore : ¬ state.parent.pc.Serving →
    announced state.log = (reports state.log).map Report.pid
  announcedServing : state.parent.pc.Serving →
    announced state.log = (reports state.log).map Report.pid ++ [state.parent.childPid]
  ownRun : ∀ k pid run ret, (reports state.log)[k]? = some (Report.message pid run ret) → run = k
  started : ∀ pid run, .start pid run ∈ state.log →
    (∃ report, (reports state.log)[run]? = some report ∧ report.pid = pid) ∨
    (run = state.parent.requests ∧ pid = state.parent.childPid ∧
      (state.parent.pc = .writePid ∨ state.parent.pc.Serving))

/-- A fork comes after the reaping of every child forked before, and no child
is told to go on once it has been reaped. -/
def EventAllowed (before : List Event) : Event → Prop
  | .fork _ => ∀ pid, .fork pid ∈ before → .reap pid ∈ before
  | .sendNext pid => .reap pid ∉ before
  | _ => True

def Disciplined (log : List Event) : Prop :=
  ∀ before event after, log = before ++ event :: after → EventAllowed before event

theorem Disciplined.nil : Disciplined [] := by
  intro before event after split
  simp at split

theorem Disciplined.snoc {log : List Event} {event : Event} (ordered : Disciplined log)
    (allowed : EventAllowed log event) : Disciplined (log ++ [event]) := by
  intro before other after split
  rcases List.eq_nil_or_concat after with rfl | ⟨front, last, rfl⟩
  · obtain ⟨rfl, same⟩ := List.append_inj' split rfl
    cases same
    exact allowed
  · have regrouped : log ++ [event] = (before ++ other :: front) ++ [last] := by
      simpa using split
    obtain ⟨shorter, _⟩ := List.append_inj' regrouped rfl
    exact ordered before other front shorter

structure ProcessLog (state : State) : Prop where
  forked : ∀ pid, .fork pid ∈ state.log → ∃ child, state.children pid = some child
  reaped : ∀ pid, .reap pid ∈ state.log ↔
    ∃ child, state.children pid = some child ∧ child.life = .reaped
  ordered : Disciplined state.log

structure Inv (state : State) : Prop where
  conversation : Conversation state
  children : ChildrenInv state
  service : ServiceLog state
  processes : ProcessLog state

end SbFuzz.Unicornafl
