import SbFuzz.Unicornafl.Forkserver

/-! The transitions of the fork server as a relation with one rule for each
thing a party can do. Every enabled action is an instance of one rule. -/

set_option autoImplicit false

namespace SbFuzz.Unicornafl

@[simp] theorem State.record_afl (state : State) (event : Event) :
    (state.record event).afl = state.afl := rfl
@[simp] theorem State.record_parent (state : State) (event : Event) :
    (state.record event).parent = state.parent := rfl
@[simp] theorem State.record_children (state : State) (event : Event) :
    (state.record event).children = state.children := rfl
@[simp] theorem State.record_ctl (state : State) (event : Event) :
    (state.record event).ctl = state.ctl := rfl
@[simp] theorem State.record_st (state : State) (event : Event) :
    (state.record event).st = state.st := rfl
@[simp] theorem State.record_log (state : State) (event : Event) :
    (state.record event).log = state.log ++ [event] := rfl

@[simp] theorem State.setChild_afl (state : State) (pid : Pid) (child : Child) :
    (state.setChild pid child).afl = state.afl := rfl
@[simp] theorem State.setChild_parent (state : State) (pid : Pid) (child : Child) :
    (state.setChild pid child).parent = state.parent := rfl
@[simp] theorem State.setChild_children (state : State) (pid : Pid) (child : Child) :
    (state.setChild pid child).children =
      Function.update state.children pid (some child) := rfl
@[simp] theorem State.setChild_ctl (state : State) (pid : Pid) (child : Child) :
    (state.setChild pid child).ctl = state.ctl := rfl
@[simp] theorem State.setChild_st (state : State) (pid : Pid) (child : Child) :
    (state.setChild pid child).st = state.st := rfl
@[simp] theorem State.setChild_log (state : State) (pid : Pid) (child : Child) :
    (state.setChild pid child).log = state.log := rfl

/-- What holds of some child under a number holds of the child that is found there. -/
theorem State.child_of_found {state : State} {pid : Pid} {child : Child} {holds : Child → Prop}
    (found : state.children pid = some child)
    (current : ∃ other, state.children pid = some other ∧ holds other) : holds child := by
  obtain ⟨other, same, holdsOther⟩ := current
  rw [found, Option.some.injEq] at same
  exact same ▸ holdsOther

@[simp] theorem State.setParentPc_afl (state : State) (pc : ParentPc) :
    (state.setParentPc pc).afl = state.afl := rfl
@[simp] theorem State.setParentPc_parent (state : State) (pc : ParentPc) :
    (state.setParentPc pc).parent = { state.parent with pc } := rfl
@[simp] theorem State.setParentPc_children (state : State) (pc : ParentPc) :
    (state.setParentPc pc).children = state.children := rfl
@[simp] theorem State.setParentPc_ctl (state : State) (pc : ParentPc) :
    (state.setParentPc pc).ctl = state.ctl := rfl
@[simp] theorem State.setParentPc_st (state : State) (pc : ParentPc) :
    (state.setParentPc pc).st = state.st := rfl
@[simp] theorem State.setParentPc_log (state : State) (pc : ParentPc) :
    (state.setParentPc pc).log = state.log := rfl

/-- The control points of a parent that is reading its child's pipe. -/
def ParentPc.Handling : ParentPc → Prop
  | .handleRequests => True
  | .handlePc => True
  | _ => False

/-- The control points of a parent that is waiting for its child to die. -/
def ParentPc.Reaping : ParentPc → Prop
  | .reapKilled => True
  | .reapExited => True
  | _ => False

/-- The control points of AFL that wait for a status. -/
def AflPc.AwaitsStatus : AflPc → Prop
  | .readStatus => True
  | .readKilledStatus => True
  | _ => False

@[simp] theorem AflPc.not_awaitsStatus_idle : ¬ AflPc.AwaitsStatus .idle := id
@[simp] theorem AflPc.not_awaitsStatus_readPid : ¬ AflPc.AwaitsStatus .readPid := id

/-- Steps of afl-fuzz. -/
inductive AflTransition : State → State → Prop where
  | request {state} : state.afl.pc = .idle →
      AflTransition state ({ state with
        afl := { state.afl with pc := .readPid, lastRunTimedOut := false }
        ctl := state.ctl ++ [if state.afl.lastRunTimedOut then 1 else 0] }.record .request)
  | readPid {state word rest} : state.afl.pc = .readPid → state.st = word :: rest →
      AflTransition state ({ state with
        afl := { state.afl with pc := .readStatus, childPid := word }
        st := rest }.record (.readPid word))
  | readStatus {state word rest} : state.afl.pc.AwaitsStatus → state.st = word :: rest →
      AflTransition state ({ state with
        afl := { state.afl with pc := .idle }, st := rest }.record (.readStatus word))
  | timeout {state} : state.afl.pc = .readStatus →
      AflTransition state (({ state with
        afl := { state.afl with pc := .readKilledStatus, lastRunTimedOut := true } }.kill
          state.afl.childPid).record (.kill state.afl.childPid))

/-- Steps of the fork-server parent. -/
inductive ParentTransition : State → State → Prop where
  | readKilled {state word rest} : state.parent.pc = .readRequest → state.ctl = word :: rest →
      state.parent.childRet ≠ .exited → word ≠ 0 →
      ParentTransition state ({ state with ctl := rest }.setParentPc .reapKilled)
  | readExited {state word rest} : state.parent.pc = .readRequest → state.ctl = word :: rest →
      state.parent.childRet = .exited →
      ParentTransition state ({ state with ctl := rest }.setParentPc .spawn)
  | readResume {state rest} : state.parent.pc = .readRequest → state.ctl = 0 :: rest →
      state.parent.childRet ≠ .exited →
      ParentTransition state ({ state with ctl := rest }.setParentPc .resume)
  | reapKilled {state child status} : state.parent.pc = .reapKilled →
      state.children state.parent.childPid = some child → child.life = .zombie status →
      ParentTransition state { (state.setChild state.parent.childPid
        { child with life := .reaped }).record (.reap state.parent.childPid) with
          parent := { state.parent with pc := .spawn, childRet := .exited } }
  | waitFails {state} : state.parent.pc.Reaping →
      (∀ child, state.children state.parent.childPid = some child → child.life = .reaped) →
      ParentTransition state (state.setParentPc .returned)
  | fork {state} (pid : Pid) : state.parent.pc = .spawn → 0 < pid → state.children pid = none →
      ParentTransition state ((({ state with
        parent := { state.parent with pc := .writePid, childPid := pid } }.setChild pid
          (.forked state.parent.requests)).record (.fork pid)).record
            (.start pid state.parent.requests))
  | forkFails {state} : state.parent.pc = .spawn →
      ParentTransition state (state.setParentPc .returned)
  | resume {state child} : state.parent.pc = .resume →
      state.children state.parent.childPid = some child → child.life = .alive →
      ParentTransition state (((state.setChild state.parent.childPid
        { child with
          parentPipe := child.parentPipe ++ [state.parent.requests] }).setParentPc
            .writePid).record (.sendNext state.parent.childPid))
  | resumeFails {state child} : state.parent.pc = .resume →
      state.children state.parent.childPid = some child → child.life ≠ .alive →
      ParentTransition state ((state.setParentPc .returned).record
        (.sendNext state.parent.childPid))
  | writePid {state} : state.parent.pc = .writePid →
      ParentTransition state (({ state with
        st := state.st ++ [state.parent.childPid] }.setParentPc .handleRequests).record
          (.writePid state.parent.childPid))
  | receive {state child ret run rest} : state.parent.pc = .handleRequests →
      state.children state.parent.childPid = some child →
      child.childPipe = .msg ret run :: rest → ret = .next ∨ ret = .foundCrash →
      ParentTransition state { state.setChild state.parent.childPid
        { child with childPipe := rest } with
          parent := { state.parent with
            pc := .writeStatus (.message state.parent.childPid run ret), childRet := ret } }
  | receiveTsl {state child run rest} : state.parent.pc = .handleRequests →
      state.children state.parent.childPid = some child →
      child.childPipe = .msg .tslRequest run :: rest →
      ParentTransition state ((state.setChild state.parent.childPid
        { child with childPipe := rest }).setParentPc .handlePc)
  | receiveOther {state child run rest} : state.parent.pc = .handleRequests →
      state.children state.parent.childPid = some child →
      child.childPipe = .msg .exited run :: rest →
      ParentTransition state (state.setChild state.parent.childPid
        { child with childPipe := rest })
  | receivePc {state child address rest} : state.parent.pc = .handlePc →
      state.children state.parent.childPid = some child →
      child.childPipe = .pc address :: rest →
      ParentTransition state ((state.setChild state.parent.childPid
        { child with childPipe := rest }).setParentPc .handleRequests)
  | childExited {state child} : state.parent.pc.Handling →
      state.children state.parent.childPid = some child →
      child.childPipe = [] → child.life ≠ .alive →
      ParentTransition state state.childExited
  | reapExited {state child status} : state.parent.pc = .reapExited →
      state.children state.parent.childPid = some child → child.life = .zombie status →
      ParentTransition state (((state.setChild state.parent.childPid
        { child with life := .reaped }).record (.reap state.parent.childPid)).setParentPc
          (.writeStatus (.waited state.parent.childPid status)))
  | writeStatus {state report} : state.parent.pc = .writeStatus report →
      ParentTransition state ({ state with
        st := state.st ++ [report.status]
        parent := { state.parent with
          pc := .readRequest, requests := state.parent.requests + 1 } }.record
            (.writeStatus report))

/-- Steps of a live child, as the child record it leaves and the event to log. -/
inductive ChildTransition (ucafl : UCAFL) (pid : Pid) (child : Child) :
    Child → List Event → Prop where
  | requestTb (address : UInt64) : child.pc = .running →
      ChildTransition ucafl pid child { child with
        pc := .sendingPc address
        childPipe := child.childPipe ++ [.msg .tslRequest child.run] } []
  | sendPc {address} : child.pc = .sendingPc address →
      ChildTransition ucafl pid child { child with
        pc := .running, childPipe := child.childPipe ++ [.pc address] } []
  | finish (round : Round) : child.pc = .running →
      ChildTransition ucafl pid child (ucafl.endRound child round) [.finish pid child.run round]
  | ask : child.pc = .asking →
      ChildTransition ucafl pid child { child with
        pc := .waiting
        childPipe := child.childPipe ++
          [.msg (if child.crashFound then .foundCrash else .next) child.run] } []
  | resume {run rest} : child.pc = .waiting → child.parentPipe = run :: rest →
      ChildTransition ucafl pid child { child with
        pc := .running, crashFound := false, run, parentPipe := rest } [.start pid run]
  | die (status : Nat) : child.pc = .running ∨ (∃ address, child.pc = .sendingPc address) →
      ChildTransition ucafl pid child { child with life := .zombie status } []

def State.childStep (state : State) (pid : Pid) (child : Child) (events : List Event) : State :=
  { state.setChild pid child with log := state.log ++ events }

inductive Transition (ucafl : UCAFL) : State → State → Prop where
  | afl {state next} : AflTransition state next → Transition ucafl state next
  | parent {state next} : ParentTransition state next → Transition ucafl state next
  | child {state pid child after events} : state.children pid = some child →
      child.life = .alive → ChildTransition ucafl pid child after events →
      Transition ucafl state (state.childStep pid after events)

theorem aflFsrvRunTarget_transition {state next : State} {action : AflAction}
    (stepped : aflFsrvRunTarget state action = some next) : AflTransition state next := by
  cases action with
  | request =>
      cases control : state.afl.pc <;> simp [aflFsrvRunTarget, control] at stepped
      subst next
      simpa using AflTransition.request control
  | readPid =>
      simp only [aflFsrvRunTarget] at stepped
      split at stepped
      · next control pending =>
        split at stepped
        · cases stepped
          exact .readPid control pending
        · cases stepped
      · cases stepped
  | readStatus =>
      simp only [aflFsrvRunTarget] at stepped
      split at stepped
      · next control pending =>
        cases stepped
        exact .readStatus (by simp [control, AflPc.AwaitsStatus]) pending
      · next control pending =>
        cases stepped
        exact .readStatus (by simp [control, AflPc.AwaitsStatus]) pending
      · cases stepped
  | timeout =>
      cases control : state.afl.pc <;> simp [aflFsrvRunTarget, control] at stepped
      subst next
      exact .timeout control

theorem handleChildRequests_transition {state next : State}
    (handling : state.parent.pc.Handling)
    (stepped : handleChildRequests state = some next) : ParentTransition state next := by
  simp only [handleChildRequests] at stepped
  split at stepped
  · cases stepped
  · next child found =>
    split at stepped
    · next drained =>
      split at stepped
      · cases stepped
      · next dead =>
        cases stepped
        exact .childExited handling found drained dead
    · next item rest pending =>
      split at stepped
      · next control => cases stepped; exact .receive control found pending (.inl rfl)
      · next control => cases stepped; exact .receive control found pending (.inr rfl)
      · next control => cases stepped; exact .receiveTsl control found pending
      · next control => cases stepped; exact .receiveOther control found pending
      · next control => cases stepped; exact .receivePc control found pending
      · cases stepped

theorem State.waitpid_cases {state waited : State} {pid : Pid} {status : Option Nat}
    (result : state.waitpid pid = some (waited, status)) :
    (∃ child code, state.children pid = some child ∧ child.life = .zombie code ∧
      status = some code ∧
      waited = (state.setChild pid { child with life := .reaped }).record (.reap pid)) ∨
    (status = none ∧ waited = state ∧
      ∀ child, state.children pid = some child → child.life = .reaped) := by
  simp only [State.waitpid] at result
  split at result
  · next child found =>
    split at result
    · cases result
    · next code zombie =>
      cases result
      exact .inl ⟨child, code, found, zombie, rfl, rfl⟩
    · next reaped =>
      cases result
      refine .inr ⟨rfl, rfl, ?_⟩
      intro other same
      rw [found, Option.some.injEq] at same
      exact same ▸ reaped
  · next missing =>
    cases result
    exact .inr ⟨rfl, rfl, fun child found => by simp [missing] at found⟩

theorem fksrvStart_transition {state next : State} {action : ParentAction}
    (stepped : fksrvStart state action = some next) : ParentTransition state next := by
  cases action with
  | fork pid =>
      simp only [fksrvStart] at stepped
      split at stepped
      · next control =>
        split at stepped
        · next fresh => cases stepped; exact .fork pid control fresh.1 fresh.2
        · cases stepped
      · cases stepped
  | forkFails =>
      simp only [fksrvStart] at stepped
      split at stepped
      · next control => cases stepped; exact .forkFails control
      · cases stepped
  | proceed =>
      simp only [fksrvStart] at stepped
      split at stepped
      · next control =>
        split at stepped
        · cases stepped
        · next word rest pending =>
          split at stepped
          · next killed => cases stepped; exact .readKilled control pending killed.1 killed.2
          · next notKilled =>
            split at stepped
            · next exited => cases stepped; exact .readExited control pending exited
            · next lives =>
              cases stepped
              have zero : word = 0 := by
                by_contra nonzero
                exact notKilled ⟨lives, nonzero⟩
              exact .readResume control (zero ▸ pending) lives
      · next control =>
        split at stepped
        · cases stepped
        · next waited code result =>
          cases stepped
          rcases state.waitpid_cases result with ⟨child, status, found, zombie, _, rfl⟩ | absent
          · exact .reapKilled control found zombie
          · simp at absent
        · next waited result =>
          cases stepped
          rcases state.waitpid_cases result with ⟨_, _, _, _, same, _⟩ | ⟨_, rfl, gone⟩
          · cases same
          · exact .waitFails (by simp [control, ParentPc.Reaping]) gone
      · cases stepped
      · next control =>
        split at stepped
        · next child found =>
          split at stepped
          · next alive => cases stepped; exact .resume control found alive
          · next dead => cases stepped; exact .resumeFails control found dead
        · cases stepped
      · next control => cases stepped; exact .writePid control
      · next control =>
        exact handleChildRequests_transition (by simp [control, ParentPc.Handling]) stepped
      · next control =>
        exact handleChildRequests_transition (by simp [control, ParentPc.Handling]) stepped
      · next control =>
        split at stepped
        · cases stepped
        · next waited code result =>
          cases stepped
          rcases state.waitpid_cases result with ⟨child, status, found, zombie, same, rfl⟩ | absent
          · cases same
            exact .reapExited control found zombie
          · simp at absent
        · next waited result =>
          cases stepped
          rcases state.waitpid_cases result with ⟨_, _, _, _, same, _⟩ | ⟨_, rfl, gone⟩
          · cases same
          · exact .waitFails (by simp [control, ParentPc.Reaping]) gone
      · next control => cases stepped; exact .writeStatus control
      · cases stepped

theorem UCAFL.childFuzz_transition {ucafl : UCAFL} {state next : State} {pid : Pid}
    {child : Child} {action : ChildAction}
    (stepped : ucafl.childFuzz state pid child action = some next) :
    ∃ after events, ChildTransition ucafl pid child after events ∧
      ((∃ status, action = .die status) ∨ events ≠ [] ∨ after.life = child.life) ∧
      next = state.childStep pid after events := by
  cases action with
  | requestTb address =>
      simp only [UCAFL.childFuzz] at stepped
      split at stepped
      · next control =>
        cases stepped
        exact ⟨_, _, .requestTb address control, .inr (.inr rfl),
          by simp [State.childStep, State.setChild]⟩
      · cases stepped
  | sendPc =>
      simp only [UCAFL.childFuzz] at stepped
      split at stepped
      · next control =>
        cases stepped
        exact ⟨_, _, .sendPc control, .inr (.inr rfl), by simp [State.childStep, State.setChild]⟩
      · cases stepped
  | finish round =>
      simp only [UCAFL.childFuzz] at stepped
      split at stepped
      · next control =>
        cases stepped
        exact ⟨_, _, .finish round control, .inr (.inl (by simp)), rfl⟩
      · cases stepped
  | ask =>
      simp only [UCAFL.childFuzz] at stepped
      split at stepped
      · next control =>
        cases stepped
        exact ⟨_, _, .ask control, .inr (.inr rfl), by simp [State.childStep, State.setChild]⟩
      · cases stepped
  | resume =>
      simp only [UCAFL.childFuzz] at stepped
      split at stepped
      · next control pending =>
        cases stepped
        exact ⟨_, _, .resume control pending, .inr (.inl (by simp)), rfl⟩
      · cases stepped
  | die status =>
      simp only [UCAFL.childFuzz] at stepped
      split at stepped
      · next control =>
        cases stepped
        exact ⟨_, _, .die status (.inl control), .inl ⟨status, rfl⟩,
          by simp [State.childStep, State.setChild]⟩
      · next address control =>
        cases stepped
        exact ⟨_, _, .die status (.inr ⟨address, control⟩), .inl ⟨status, rfl⟩,
          by simp [State.childStep, State.setChild]⟩
      · cases stepped

theorem UCAFL.step_child {ucafl : UCAFL} {state next : State} {pid : Pid} {action : ChildAction}
    (stepped : ucafl.step state (.child pid action) = some next) :
    ∃ child after events, state.children pid = some child ∧ child.life = .alive ∧
      ChildTransition ucafl pid child after events ∧
      ((∃ status, action = .die status) ∨ events ≠ [] ∨ after.life = child.life) ∧
      next = state.childStep pid after events := by
  simp only [UCAFL.step] at stepped
  split at stepped
  · next child found =>
    split at stepped
    · next alive =>
      obtain ⟨after, events, rule, kept, same⟩ := UCAFL.childFuzz_transition stepped
      exact ⟨child, after, events, found, alive, rule, kept, same⟩
    · cases stepped
  · cases stepped

/-- Every enabled action is an instance of a rule. -/
theorem UCAFL.step_transition {ucafl : UCAFL} {state next : State} {action : Action}
    (stepped : ucafl.step state action = some next) : Transition ucafl state next := by
  cases action with
  | afl action => exact .afl (aflFsrvRunTarget_transition stepped)
  | parent action => exact .parent (fksrvStart_transition stepped)
  | child pid action =>
      obtain ⟨child, after, events, found, alive, rule, _, rfl⟩ := UCAFL.step_child stepped
      exact .child found alive rule

end SbFuzz.Unicornafl
