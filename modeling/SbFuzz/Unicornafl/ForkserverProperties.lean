import SbFuzz.Unicornafl.ForkserverInvariants

/-! Every step of the fork server keeps its invariants, so that they hold
under every interleaving of requests, timeouts, kills and messages. -/

set_option autoImplicit false

namespace SbFuzz.Unicornafl

/-! ## Where the parties stand with each other -/

theorem Conversation.of_idle {state : State} (conversation : Conversation state)
    (idle : state.afl.pc = .idle) :
    state.parent.pc = .readRequest ∧ state.ctl = [] ∧ state.st = [] ∧
      InFlight state 0 [] [] := by
  cases conversation <;> simp_all

theorem Conversation.of_request {state : State} (conversation : Conversation state)
    {word : Nat} {rest : List Nat} (control : state.parent.pc = .readRequest)
    (pending : state.ctl = word :: rest) :
    state.afl.pc = .readPid ∧ rest = [] ∧ state.st = [] ∧
      state.afl.lastRunTimedOut = false ∧ InFlight state 1 [] [] := by
  cases conversation <;> simp_all

theorem Conversation.of_preparing {state : State} (conversation : Conversation state)
    (control : state.parent.pc.Preparing) :
    state.afl.pc = .readPid ∧ state.ctl = [] ∧ state.st = [] ∧
      state.afl.lastRunTimedOut = false ∧ InFlight state 1 [] [] := by
  have notServing := control.not_serving
  cases conversation <;> simp_all

theorem Conversation.of_serving {state : State} (conversation : Conversation state)
    (control : state.parent.pc.Serving) :
    (state.afl.pc = .readPid ∧ state.ctl = [] ∧ state.st = [state.parent.childPid] ∧
      state.afl.lastRunTimedOut = false ∧ InFlight state 1 [state.parent.childPid] []) ∨
    (state.afl.pc.AwaitsStatus ∧ state.ctl = [] ∧ state.st = [] ∧
      state.afl.childPid = state.parent.childPid ∧ InFlight state 1 [] []) := by
  have notPreparing (preparing : state.parent.pc.Preparing) : False :=
    preparing.not_serving control
  cases conversation <;> simp_all

theorem InFlight.heard {state : State} {unanswered : Nat} {pids statuses : List Nat}
    (flight : InFlight state unanswered pids statuses) :
    heardPids state.log <+: Unicornafl.announced state.log ∧
      heardStatuses state.log <+: (reports state.log).map Report.status :=
  ⟨⟨pids, flight.pids.symm⟩, ⟨statuses, flight.statuses.symm⟩⟩

/-- AFL never hears anything but what the parent has written, in order. -/
theorem Conversation.heard {state : State} (conversation : Conversation state) :
    heardPids state.log <+: Unicornafl.announced state.log ∧
      heardStatuses state.log <+: (reports state.log).map Report.status := by
  cases conversation with
  | quiet _ _ _ _ flight => exact flight.heard
  | asked _ _ _ _ _ flight => exact flight.heard
  | preparing _ _ _ _ _ flight => exact flight.heard
  | stopped _ _ _ _ _ flight => exact flight.heard
  | announced _ _ _ _ _ flight => exact flight.heard
  | answered _ _ _ _ _ flight => exact flight.heard
  | awaited _ _ _ _ _ flight => exact flight.heard
  | ready _ _ _ _ _ flight => exact flight.heard

theorem Conversation.of_serving_change {state next : State} (conversation : Conversation state)
    (control : state.parent.pc.Serving) (nextControl : next.parent.pc.Serving)
    (afl : next.afl = state.afl) (ctl : next.ctl = state.ctl) (st : next.st = state.st)
    (childPid : next.parent.childPid = state.parent.childPid)
    (inFlight : ∀ unanswered pids statuses, InFlight state unanswered pids statuses →
      InFlight next unanswered pids statuses) : Conversation next := by
  rcases conversation.of_serving control with
    ⟨aflPc, noRequest, unread, inTime, flight⟩ | ⟨aflPc, noRequest, unread, same, flight⟩
  · exact .announced (by rw [afl, aflPc]) nextControl (by rw [ctl, noRequest])
      (by rw [st, childPid, unread]) (by rw [afl, inTime]) (by
        rw [childPid]
        exact inFlight _ _ _ flight)
  · exact .awaited (by rw [afl]; exact aflPc) nextControl (by rw [ctl, noRequest])
      (by rw [st, unread]) (by rw [afl, childPid, same]) (inFlight _ _ _ flight)

/-! ## Steps of afl-fuzz -/

@[simp] theorem State.kill_afl (state : State) (pid : Pid) : (state.kill pid).afl = state.afl := by
  unfold State.kill; split <;> rfl
@[simp] theorem State.kill_parent (state : State) (pid : Pid) :
    (state.kill pid).parent = state.parent := by
  unfold State.kill; split <;> rfl
@[simp] theorem State.kill_ctl (state : State) (pid : Pid) : (state.kill pid).ctl = state.ctl := by
  unfold State.kill; split <;> rfl
@[simp] theorem State.kill_st (state : State) (pid : Pid) : (state.kill pid).st = state.st := by
  unfold State.kill; split <;> rfl
@[simp] theorem State.kill_log (state : State) (pid : Pid) : (state.kill pid).log = state.log := by
  unfold State.kill; split <;> rfl

theorem State.kill_children (state : State) (pid other : Pid) :
    (state.kill pid).children other =
      if other = pid then (state.children other).map Child.killed else state.children other := by
  unfold State.kill
  cases found : state.children pid with
  | none =>
      by_cases same : other = pid
      · simp [same, found]
      · simp [same]
  | some child =>
      by_cases same : other = pid
      · simp [same, found]
      · simp [same]

theorem AflTransition.conversation {state next : State} (rule : AflTransition state next)
    (before : Conversation state) : Conversation next := by
  cases rule with
  | request idle =>
      obtain ⟨control, noRequest, unread, flight⟩ := before.of_idle idle
      refine @Conversation.asked _ (if state.afl.lastRunTimedOut then 1 else 0) rfl control ?_ unread
        rfl ⟨?_, ?_, ?_⟩
      · simp [noRequest]
      · simp [flight.requests]
      · simpa using flight.pids
      · simpa using flight.statuses
  | @readPid word rest reading pending =>
      cases before with
      | announced _ control noRequest unread inTime flight =>
          rw [unread] at pending
          cases pending
          refine .awaited trivial control noRequest rfl rfl ⟨?_, ?_, ?_⟩
          · simpa using flight.requests
          · simpa using flight.pids
          · simpa using flight.statuses
      | @answered status _ control noRequest unread inTime flight =>
          rw [unread] at pending
          cases pending
          refine @Conversation.ready _ status trivial control noRequest rfl rfl ⟨?_, ?_, ?_⟩
          · simpa using flight.requests
          · simpa using flight.pids
          · simpa using flight.statuses
      | _ => simp_all
  | @readStatus word rest reading pending =>
      cases before with
      | @ready status _ control noRequest unread same flight =>
          rw [unread] at pending
          cases pending
          refine .quiet rfl control noRequest rfl ⟨?_, ?_, ?_⟩
          · simpa using flight.requests
          · simpa using flight.pids
          · simpa using flight.statuses
      | _ => simp_all
  | timeout reading =>
      cases before with
      | awaited _ control noRequest unread same flight =>
          refine .awaited (by simp [AflPc.AwaitsStatus]) (by simpa using control)
            (by simpa using noRequest) (by simpa using unread) (by simpa using same) ⟨?_, ?_, ?_⟩
          · simpa using flight.requests
          · simpa using flight.pids
          · simpa using flight.statuses
      | @ready status _ control noRequest unread same flight =>
          refine @Conversation.ready _ status (by simp [AflPc.AwaitsStatus])
            (by simpa using control) (by simpa using noRequest) (by simpa using unread)
            (by simpa using same) ⟨?_, ?_, ?_⟩
          · simpa using flight.requests
          · simpa using flight.pids
          · simpa using flight.statuses
      | _ => simp_all

theorem CurrentChild.congr {state next : State} (current : CurrentChild state)
    (parent : next.parent = state.parent) (children : next.children = state.children) :
    CurrentChild next := by
  unfold CurrentChild at current ⊢
  rw [parent, children]
  exact current

theorem KillPending.congr {state next : State} (afl : next.afl.lastRunTimedOut =
    state.afl.lastRunTimedOut) (ctl : next.ctl = state.ctl) :
    KillPending next ↔ KillPending state := by
  unfold KillPending
  rw [afl, ctl]

theorem ChildrenInv.congr {state next : State} (before : ChildrenInv state)
    (parent : next.parent = state.parent) (children : next.children = state.children)
    (pending : KillPending next ↔ KillPending state) : ChildrenInv next where
  others := by
    rw [parent, children]
    exact before.others
  current := before.current.congr parent children
  killed := by
    rw [parent, children, pending]
    exact before.killed
  onlyKilled := by
    rw [parent, children, pending]
    exact before.onlyKilled

theorem CurrentChild.kill {state : State} (current : CurrentChild state)
    {next : State} (parent : next.parent = state.parent)
    (children : ∀ pid, next.children pid = state.children pid ∨
      next.children pid = (state.children pid).map Child.killed)
    (notResuming : state.parent.pc ≠ .resume) : CurrentChild next := by
  have reapedStays (reaped : ∀ child, state.children state.parent.childPid = some child →
      child.life = .reaped) (child : Child)
      (found : next.children state.parent.childPid = some child) : child.life = .reaped := by
    rcases children state.parent.childPid with same | killed
    · exact reaped child (same ▸ found)
    · rw [killed, Option.map_eq_some_iff] at found
      obtain ⟨original, present, rfl⟩ := found
      exact original.killed_reaped_iff.mpr (reaped original present)
  have idleStays (idle : ∃ child, state.children state.parent.childPid = some child ∧
      Idle child) : ∃ child, next.children state.parent.childPid = some child ∧ Idle child := by
    obtain ⟨child, found, idle⟩ := idle
    rcases children state.parent.childPid with same | killed
    · exact ⟨child, by rw [same, found], idle⟩
    · exact ⟨child.killed, by rw [killed, found, Option.map_some], idle.killed⟩
  have inRunStays (expect : Bool) (inRun : ∃ child,
      state.children state.parent.childPid = some child ∧
        InRun state.parent.requests expect child) :
      ∃ child, next.children state.parent.childPid = some child ∧
        InRun state.parent.requests expect child := by
    obtain ⟨child, found, inRun⟩ := inRun
    rcases children state.parent.childPid with same | killed
    · exact ⟨child, by rw [same, found], inRun⟩
    · exact ⟨child.killed, by rw [killed, found, Option.map_some], inRun.killed⟩
  have zombieStays (child : Child) (status : Nat)
      (found : state.children state.parent.childPid = some child)
      (zombie : child.life = .zombie status) :
      next.children state.parent.childPid = some child := by
    rcases children state.parent.childPid with same | killed
    · rw [same, found]
    · rw [killed, found, Option.map_some, Child.killed, zombie]
  unfold CurrentChild at current ⊢
  rw [parent]
  cases control : state.parent.pc with
  | readRequest =>
      simp only [control] at current ⊢
      exact ⟨fun exited => reapedStays (current.1 exited),
        fun lives => idleStays (current.2 lives)⟩
  | reapKilled =>
      simp only [control] at current ⊢
      obtain ⟨lives, child, status, found, idle, zombie⟩ := current
      exact ⟨lives, child, status, zombieStays child status found zombie, idle, zombie⟩
  | spawn => simp only [control] at current ⊢; exact ⟨current.1, reapedStays current.2⟩
  | resume => exact absurd control notResuming
  | writePid => simp only [control] at current ⊢; exact inRunStays false current
  | handleRequests => simp only [control] at current ⊢; exact inRunStays false current
  | handlePc => simp only [control] at current ⊢; exact inRunStays true current
  | reapExited =>
      simp only [control] at current ⊢
      obtain ⟨exited, child, status, found, zombie⟩ := current
      exact ⟨exited, child, status, zombieStays child status found zombie, zombie⟩
  | writeStatus report =>
      cases report with
      | message pid run ret =>
          simp only [control] at current ⊢
          obtain ⟨samePid, sameRun, sameRet, lives, idle⟩ := current
          exact ⟨samePid, sameRun, sameRet, lives, idleStays idle⟩
      | waited pid status =>
          simp only [control] at current ⊢
          exact ⟨current.1, current.2.1, reapedStays current.2.2⟩
  | returned => simp only [control] at current ⊢; exact reapedStays current

theorem AflTransition.children {state next : State} (rule : AflTransition state next)
    (conversation : Conversation state) (before : ChildrenInv state) : ChildrenInv next := by
  cases rule with
  | request idle =>
      obtain ⟨_, noRequest, _, _⟩ := conversation.of_idle idle
      refine before.congr rfl rfl ?_
      cases timedOut : state.afl.lastRunTimedOut <;> simp [KillPending, noRequest, timedOut]
  | readPid _ _ => exact before.congr rfl rfl (KillPending.congr rfl rfl)
  | readStatus _ _ => exact before.congr rfl rfl (KillPending.congr rfl rfl)
  | timeout reading =>
      have sameChild : state.afl.childPid = state.parent.childPid := by
        cases conversation <;> simp_all
      have notResuming : state.parent.pc ≠ .resume := by
        intro resuming
        have preparing := conversation.of_preparing (by rw [resuming]; trivial)
        rw [reading] at preparing
        cases preparing.1
      refine ⟨?_, ?_, ?_, ?_⟩
      · intro pid child found other
        simp only [State.record_children, State.kill_children, State.record_parent,
          State.kill_parent] at found other
        rw [if_neg (sameChild ▸ other)] at found
        exact before.others pid child found other
      · apply before.current.kill (by simp) _ notResuming
        intro pid
        simp only [State.record_children, State.kill_children]
        split
        · exact .inr rfl
        · exact .inl rfl
      · intro _ child found
        simp only [State.record_children, State.kill_children, State.record_parent,
          State.kill_parent, sameChild, if_true] at found
        obtain ⟨original, _, rfl⟩ := Option.map_eq_some_iff.mp found
        exact original.killed_not_alive
      · intro _ _ _ _ _ _
        exact .inl (by simp)

theorem ServiceLog.move {state next : State} (before : ServiceLog state) (events : List Event)
    (log : next.log = state.log ++ events)
    (noReport : reports events = []) (noPid : announced events = [])
    (requests : next.parent.requests = state.parent.requests)
    (serving : next.parent.pc.Serving ↔ state.parent.pc.Serving)
    (kept : state.parent.pc = .writePid ∨ state.parent.pc.Serving →
      next.parent.childPid = state.parent.childPid ∧
        (next.parent.pc = .writePid ∨ next.parent.pc.Serving))
    (started : ∀ pid run, .start pid run ∈ events →
      run = next.parent.requests ∧ pid = next.parent.childPid ∧
        (next.parent.pc = .writePid ∨ next.parent.pc.Serving)) : ServiceLog next := by
  have sameReports : reports next.log = reports state.log := by simp [log, noReport]
  have samePids : announced next.log = announced state.log := by simp [log, noPid]
  refine ⟨?_, ?_, ?_, ?_, ?_⟩
  · rw [sameReports, requests]
    exact before.served
  · intro notServing
    rw [sameReports, samePids]
    exact before.announcedBefore (fun was => notServing (serving.mpr was))
  · intro nowServing
    have was := serving.mp nowServing
    rw [sameReports, samePids, (kept (.inr was)).1]
    exact before.announcedServing was
  · rw [sameReports]
    exact before.ownRun
  · intro pid run member
    rw [log, List.mem_append] at member
    rw [sameReports]
    rcases member with old | new
    · rcases before.started pid run old with answered | ⟨current, same, control⟩
      · exact .inl answered
      · obtain ⟨childPid, nextControl⟩ := kept control
        exact .inr ⟨by rw [current, requests], by rw [same, childPid], nextControl⟩
    · exact .inr (started pid run new)

theorem Disciplined.append_silent {log events : List Event} (ordered : Disciplined log)
    (silent : ∀ event ∈ events, (∀ pid, event ≠ .fork pid) ∧ (∀ pid, event ≠ .reap pid) ∧
      ∀ pid, event ≠ .sendNext pid) : Disciplined (log ++ events) := by
  induction events generalizing log with
  | nil => simpa using ordered
  | cons event rest ih =>
      have quiet := silent event (by simp)
      have allowed : EventAllowed log event := by
        cases event with
        | fork pid => exact absurd rfl (quiet.1 pid)
        | sendNext pid => exact absurd rfl (quiet.2.2 pid)
        | _ => trivial
      have longer := ih (ordered.snoc allowed) fun other member => silent other (by simp [member])
      simpa using longer

theorem ProcessLog.append {state next : State} (before : ProcessLog state) (events : List Event)
    (log : next.log = state.log ++ events)
    (silent : ∀ event ∈ events, (∀ pid, event ≠ .fork pid) ∧ (∀ pid, event ≠ .reap pid) ∧
      ∀ pid, event ≠ .sendNext pid)
    (present : ∀ pid, (∃ child, state.children pid = some child) →
      ∃ child, next.children pid = some child)
    (sameReaped : ∀ pid, (∃ child, next.children pid = some child ∧ child.life = .reaped) ↔
      ∃ child, state.children pid = some child ∧ child.life = .reaped) : ProcessLog next := by
  refine ⟨?_, ?_, ?_⟩
  · intro pid member
    rw [log, List.mem_append] at member
    rcases member with old | new
    · exact present pid (before.forked pid old)
    · exact absurd rfl ((silent _ new).1 pid)
  · intro pid
    rw [sameReaped, ← before.reaped, log, List.mem_append]
    constructor
    · rintro (old | new)
      · exact old
      · exact absurd rfl ((silent _ new).2.1 pid)
    · exact .inl
  · rw [log]
    exact before.ordered.append_silent silent

theorem AflTransition.service {state next : State} (rule : AflTransition state next)
    (before : ServiceLog state) : ServiceLog next := by
  have events : ∃ event, next.log = state.log ++ [event] ∧ event.report? = none ∧
      event.announced? = none ∧ (∀ pid run, event ≠ .start pid run) ∧
      next.parent = state.parent := by
    cases rule with
    | request _ => exact ⟨_, rfl, rfl, rfl, by simp, rfl⟩
    | readPid _ _ => exact ⟨_, rfl, rfl, rfl, by simp, rfl⟩
    | readStatus _ _ => exact ⟨_, rfl, rfl, rfl, by simp, rfl⟩
    | timeout _ => exact ⟨.kill state.afl.childPid, by simp, rfl, rfl, by simp, by simp⟩
  obtain ⟨event, log, noReport, noPid, noStart, parent⟩ := events
  refine before.move [event] log (by rw [reports_singleton, noReport]; rfl)
    (by rw [announced_singleton, noPid]; rfl) (by rw [parent]) (by rw [parent])
    (by rw [parent]; exact fun control => ⟨rfl, control⟩) ?_
  intro pid run member
  exact absurd (List.mem_singleton.mp member).symm (noStart pid run)

theorem AflTransition.processes {state next : State} (rule : AflTransition state next)
    (before : ProcessLog state) : ProcessLog next := by
  cases rule with
  | request _ => exact before.append [.request] rfl (by simp) (fun _ found => found) (by simp)
  | readPid _ _ => exact before.append [.readPid _] rfl (by simp) (fun _ found => found) (by simp)
  | readStatus _ _ =>
      exact before.append [.readStatus _] rfl (by simp) (fun _ found => found) (by simp)
  | timeout _ =>
      refine before.append [.kill state.afl.childPid] (by simp) (by simp) ?_ ?_
      · rintro pid ⟨child, found⟩
        simp only [State.record_children, State.kill_children, found]
        split
        · exact ⟨child.killed, rfl⟩
        · exact ⟨child, rfl⟩
      · intro pid
        simp only [State.record_children, State.kill_children]
        split
        · simp only [Option.map_eq_some_iff]
          constructor
          · rintro ⟨_, ⟨child, found, rfl⟩, reaped⟩
            exact ⟨child, found, child.killed_reaped_iff.mp reaped⟩
          · rintro ⟨child, found, reaped⟩
            exact ⟨child.killed, ⟨child, found, rfl⟩, child.killed_reaped_iff.mpr reaped⟩
        · rfl

/-! ## Steps of the parent -/

theorem InFlight.congr {state next : State} {unanswered : Nat} {pids statuses : List Nat}
    (flight : InFlight state unanswered pids statuses)
    (requests : next.parent.requests = state.parent.requests)
    (events : List Event) (log : next.log = state.log ++ events)
    (noRequest : asked events = 0) (noReport : reports events = [])
    (noPid : announced events = []) (unheardPid : heardPids events = [])
    (unheardStatus : heardStatuses events = []) : InFlight next unanswered pids statuses where
  requests := by simpa [log, requests, noRequest] using flight.requests
  pids := by simpa [log, noPid, unheardPid] using flight.pids
  statuses := by simpa [log, noReport, unheardStatus] using flight.statuses

/-- A waitpid of the parent never finds its child gone. -/
theorem CurrentChild.reaping {state : State} (current : CurrentChild state)
    (control : state.parent.pc.Reaping) :
    ∃ child status, state.children state.parent.childPid = some child ∧
      child.life = .zombie status := by
  unfold CurrentChild at current
  cases pc : state.parent.pc with
  | reapKilled =>
      simp only [pc] at current
      obtain ⟨_, child, status, found, _, zombie⟩ := current
      exact ⟨child, status, found, zombie⟩
  | reapExited => simp only [pc] at current; exact current.2
  | _ => simp [pc, ParentPc.Reaping] at control

theorem CurrentChild.not_gone {state : State} (current : CurrentChild state)
    (control : state.parent.pc.Reaping)
    (gone : ∀ child, state.children state.parent.childPid = some child → child.life = .reaped) :
    False := by
  obtain ⟨child, status, found, zombie⟩ := current.reaping control
  have reaped := gone child found
  rw [zombie] at reaped
  cases reaped

theorem ParentPc.Handling.serving {pc : ParentPc} (handling : pc.Handling) : pc.Serving := by
  cases pc <;> simp_all [ParentPc.Handling, ParentPc.Serving]

theorem ParentTransition.conversation {state next : State} (rule : ParentTransition state next)
    (before : Conversation state) (current : CurrentChild state) : Conversation next := by
  cases rule with
  | readKilled control pending _ _ =>
      obtain ⟨afl, rfl, unread, inTime, flight⟩ := before.of_request control pending
      exact .preparing afl trivial rfl unread inTime
        (flight.congr rfl [] (by simp) rfl rfl rfl rfl rfl)
  | readExited control pending _ =>
      obtain ⟨afl, rfl, unread, inTime, flight⟩ := before.of_request control pending
      exact .preparing afl trivial rfl unread inTime
        (flight.congr rfl [] (by simp) rfl rfl rfl rfl rfl)
  | readResume control pending _ =>
      obtain ⟨afl, rfl, unread, inTime, flight⟩ := before.of_request control pending
      exact .preparing afl trivial rfl unread inTime
        (flight.congr rfl [] (by simp) rfl rfl rfl rfl rfl)
  | reapKilled control _ _ =>
      obtain ⟨afl, noRequest, unread, inTime, flight⟩ :=
        before.of_preparing (by rw [control]; trivial)
      exact .preparing afl trivial noRequest unread inTime
        (flight.congr rfl [.reap _] rfl rfl rfl rfl rfl rfl)
  | waitFails control gone => exact (current.not_gone control gone).elim
  | fork pid control _ _ =>
      obtain ⟨afl, noRequest, unread, inTime, flight⟩ :=
        before.of_preparing (by rw [control]; trivial)
      exact .preparing afl trivial noRequest unread inTime
        (flight.congr rfl [.fork pid, .start pid state.parent.requests] (by simp) rfl rfl rfl rfl
          rfl)
  | forkFails control =>
      obtain ⟨afl, noRequest, unread, inTime, flight⟩ :=
        before.of_preparing (by rw [control]; trivial)
      exact .stopped afl rfl noRequest unread inTime
        (flight.congr rfl [] (by simp) rfl rfl rfl rfl rfl)
  | resume control _ _ =>
      obtain ⟨afl, noRequest, unread, inTime, flight⟩ :=
        before.of_preparing (by rw [control]; trivial)
      exact .preparing afl trivial noRequest unread inTime
        (flight.congr rfl [.sendNext _] rfl rfl rfl rfl rfl rfl)
  | resumeFails control _ _ =>
      obtain ⟨afl, noRequest, unread, inTime, flight⟩ :=
        before.of_preparing (by rw [control]; trivial)
      exact .stopped afl rfl noRequest unread inTime
        (flight.congr rfl [.sendNext _] rfl rfl rfl rfl rfl rfl)
  | writePid control =>
      obtain ⟨afl, noRequest, unread, inTime, flight⟩ :=
        before.of_preparing (by rw [control]; trivial)
      refine .announced afl trivial noRequest (by simp [unread]) inTime ⟨?_, ?_, ?_⟩
      · simpa using flight.requests
      · simpa using flight.pids
      · simpa using flight.statuses
  | receive control _ _ _ =>
      exact before.of_serving_change (by rw [control]; trivial) trivial rfl rfl rfl rfl
        fun _ _ _ flight => flight.congr rfl [] (by simp) rfl rfl rfl rfl rfl
  | receiveTsl control _ _ =>
      exact before.of_serving_change (by rw [control]; trivial) trivial rfl rfl rfl rfl
        fun _ _ _ flight => flight.congr rfl [] (by simp) rfl rfl rfl rfl rfl
  | receiveOther control _ _ =>
      exact before.of_serving_change (by rw [control]; trivial)
        (by rw [State.setChild_parent, control]; trivial) rfl rfl rfl rfl
        fun _ _ _ flight => flight.congr rfl [] (by simp) rfl rfl rfl rfl rfl
  | receivePc control _ _ =>
      exact before.of_serving_change (by rw [control]; trivial) trivial rfl rfl rfl rfl
        fun _ _ _ flight => flight.congr rfl [] (by simp) rfl rfl rfl rfl rfl
  | childExited control _ _ _ =>
      exact before.of_serving_change control.serving trivial rfl rfl rfl rfl
        fun _ _ _ flight => flight.congr rfl [] (by simp [State.childExited]) rfl rfl rfl rfl rfl
  | reapExited control _ _ =>
      exact before.of_serving_change (by rw [control]; trivial) trivial rfl rfl rfl rfl
        fun _ _ _ flight => flight.congr rfl [.reap _] rfl rfl rfl rfl rfl rfl
  | @writeStatus report control =>
      rcases before.of_serving (by rw [control]; trivial) with
        ⟨afl, noRequest, unread, inTime, flight⟩ | ⟨afl, noRequest, unread, same, flight⟩
      · refine @Conversation.answered _ report.status afl rfl noRequest (by simp [unread]) inTime
          ⟨?_, ?_, ?_⟩
        · simpa using flight.requests
        · simpa using flight.pids
        · simpa using flight.statuses
      · refine @Conversation.ready _ report.status afl rfl noRequest (by simp [unread]) same
          ⟨?_, ?_, ?_⟩
        · simpa using flight.requests
        · simpa using flight.pids
        · simpa using flight.statuses

theorem ChildrenInv.update {state next : State} (before : ChildrenInv state)
    {child after : Child} (found : state.children state.parent.childPid = some child)
    (children : next.children =
      Function.update state.children state.parent.childPid (some after))
    (childPid : next.parent.childPid = state.parent.childPid)
    (life : after.life = child.life) (pc : after.pc = child.pc)
    (pending : KillPending next ↔ KillPending state)
    (notReaping : state.parent.pc ≠ .reapKilled) (current : CurrentChild next) :
    ChildrenInv next := by
  have isAfter (other : Child) (same : next.children next.parent.childPid = some other) :
      other = after := by
    rw [children, childPid, Function.update_self, Option.some.injEq] at same
    exact same.symm
  refine ⟨?_, current, ?_, ?_⟩
  · intro pid other present different
    rw [childPid] at different
    rw [children, Function.update_of_ne different] at present
    exact before.others pid other present different
  · intro killed other same
    rw [isAfter other same, life]
    exact before.killed (pending.mp killed) child found
  · intro _ other status same waiting zombie
    rw [isAfter other same] at waiting zombie
    exact pending.mpr (before.onlyKilled notReaping child status found (pc ▸ waiting)
      (life ▸ zombie))

theorem ChildrenInv.reap {state next : State} (before : ChildrenInv state) {child : Child}
    (children : next.children =
      Function.update state.children state.parent.childPid (some { child with life := .reaped }))
    (childPid : next.parent.childPid = state.parent.childPid) (current : CurrentChild next) :
    ChildrenInv next := by
  have isReaped (other : Child) (same : next.children next.parent.childPid = some other) :
      other.life = .reaped := by
    rw [children, childPid, Function.update_self, Option.some.injEq] at same
    rw [← same]
  refine ⟨?_, current, ?_, ?_⟩
  · intro pid other present different
    rw [childPid] at different
    rw [children, Function.update_of_ne different] at present
    exact before.others pid other present different
  · intro _ other same
    rw [isReaped other same]
    simp
  · intro _ other status same _ zombie
    rw [isReaped other same] at zombie
    cases zombie

/-- A message that the parent may act on ends the run of its sender. -/
theorem InRun.receive {run : Nat} {child : Child} {ret : AflChildRet} {sender : Nat}
    {rest : List ChildItem} (inRun : InRun run false child)
    (pending : child.childPipe = .msg ret sender :: rest)
    (final : ret = .next ∨ ret = .foundCrash) :
    sender = run ∧ Idle { child with childPipe := rest } := by
  cases inRun with
  | notStarted _ _ _ drained => rw [drained] at pending; cases pending
  | started tail present _ drained stream _ own =>
      rw [pending] at stream
      cases stream with
      | tslRequest _ => simp at final
      | report _ =>
          obtain ⟨same, waiting⟩ := own sender rfl
          exact ⟨same, present, waiting, rfl, drained⟩

theorem InRun.receiveTsl {run : Nat} {child : Child} {sender : Nat} {rest : List ChildItem}
    (inRun : InRun run false child) (pending : child.childPipe = .msg .tslRequest sender :: rest) :
    InRun run true { child with childPipe := rest } := by
  cases inRun with
  | notStarted _ _ _ drained => rw [drained] at pending; cases pending
  | started tail present same drained stream ending own =>
      rw [pending] at stream
      cases stream with
      | tslRequest stream => exact .started tail present same drained stream ending own
      | report final => simp at final

theorem InRun.receivePc {run : Nat} {child : Child} {address : UInt64} {rest : List ChildItem}
    (inRun : InRun run true child) (pending : child.childPipe = .pc address :: rest) :
    InRun run false { child with childPipe := rest } := by
  cases inRun with
  | notStarted expecting => cases expecting
  | started tail present same drained stream ending own =>
      rw [pending] at stream
      cases stream with
      | pc stream => exact .started tail present same drained stream ending own

theorem InRun.no_other {run : Nat} {child : Child} {sender : Nat} {rest : List ChildItem}
    (inRun : InRun run false child) (pending : child.childPipe = .msg .exited sender :: rest) :
    False := by
  cases inRun with
  | notStarted _ _ _ drained => rw [drained] at pending; cases pending
  | started tail _ _ _ stream _ _ =>
      rw [pending] at stream
      cases stream with
      | report final => simp at final

theorem Life.zombie_of {life : Life} (dead : life ≠ .alive) (present : life ≠ .reaped) :
    ∃ status, life = .zombie status := by
  cases life with
  | alive => exact absurd rfl dead
  | zombie status => exact ⟨status, rfl⟩
  | reaped => exact absurd rfl present

theorem not_killPending_of_preparing {state : State} (conversation : Conversation state)
    (control : state.parent.pc.Preparing) : ¬ KillPending state := by
  obtain ⟨_, noRequest, _, inTime, _⟩ := conversation.of_preparing control
  rintro (timedOut | ⟨word, member, _⟩)
  · rw [inTime] at timedOut
    cases timedOut
  · rw [noRequest] at member
    cases member

theorem ParentTransition.children {state next : State} (rule : ParentTransition state next)
    (conversation : Conversation state) (before : ChildrenInv state) : ChildrenInv next := by
  have current := before.current
  unfold CurrentChild at current
  cases rule with
  | readKilled control pending lives nonzero =>
      obtain ⟨_, rfl, _, inTime, _⟩ := conversation.of_request control pending
      simp only [control] at current
      obtain ⟨child, found, idle⟩ := current.2 lives
      have dead := before.killed (.inr ⟨_, by rw [pending]; simp, nonzero⟩) child found
      obtain ⟨status, zombie⟩ := Life.zombie_of dead idle.notReaped
      refine ⟨before.others, ⟨lives, child, status, found, idle, zombie⟩, ?_, ?_⟩
      · rintro (timedOut | ⟨word, member, _⟩)
        · exact before.killed (.inl timedOut)
        · cases member
      · intro notReaping
        exact absurd rfl notReaping
  | readExited control pending exited =>
      obtain ⟨_, rfl, _, inTime, _⟩ := conversation.of_request control pending
      simp only [control] at current
      have reaped := current.1 exited
      refine ⟨before.others, ⟨exited, reaped⟩, ?_, ?_⟩
      · intro _ child found
        rw [reaped child found]
        simp
      · intro _ child status found _ zombie
        rw [reaped child found] at zombie
        cases zombie
  | readResume control pending lives =>
      obtain ⟨_, rfl, _, inTime, _⟩ := conversation.of_request control pending
      simp only [control] at current
      obtain ⟨child, found, idle⟩ := current.2 lives
      have notKilled : ¬ KillPending state := by
        rintro (timedOut | ⟨word, member, nonzero⟩)
        · rw [inTime] at timedOut
          cases timedOut
        · rw [pending, List.mem_singleton] at member
          exact nonzero member
      have alive : child.life = .alive := by
        by_contra dead
        obtain ⟨status, zombie⟩ := Life.zombie_of dead idle.notReaped
        exact notKilled (before.onlyKilled (by simp [control]) child status found idle.waiting
          zombie)
      have isChild (other : Child)
          (same : state.children state.parent.childPid = some other) : other.life = .alive := by
        rw [found, Option.some.injEq] at same
        exact same ▸ alive
      refine ⟨before.others, ⟨lives, child, found, idle, alive⟩, ?_, ?_⟩
      · rintro (timedOut | ⟨word, member, _⟩)
        · exact before.killed (.inl timedOut)
        · cases member
      · intro _ other status same _ zombie
        rw [isChild other same] at zombie
        cases zombie
  | reapKilled control found zombie =>
      refine before.reap rfl rfl ⟨rfl, ?_⟩
      intro child same
      simp only [State.record_children, State.setChild_children, Function.update_self,
        Option.some.injEq] at same
      rw [← same]
  | waitFails control gone => exact (before.current.not_gone control gone).elim
  | fork pid control positive fresh =>
      have notKilled := not_killPending_of_preparing conversation (by rw [control]; trivial)
      simp only [control] at current
      have isForked (child : Child) (same : (Function.update state.children pid
          (some (.forked state.parent.requests))) pid = some child) :
          child = .forked state.parent.requests := by
        rw [Function.update_self, Option.some.injEq] at same
        exact same.symm
      refine ⟨?_, ?_, ?_, ?_⟩
      · intro other child present different
        simp only [State.record_children, State.setChild_children, State.record_parent,
          State.setChild_parent] at present different
        rw [Function.update_of_ne different] at present
        by_cases previous : other = state.parent.childPid
        · exact current.2 child (previous ▸ present)
        · exact before.others other child present previous
      · refine ⟨.forked state.parent.requests, ?_, ?_⟩
        · simp
        · exact .started .clean (by simp [Child.forked]) rfl rfl .clean (.inl rfl) (by simp)
      · intro pending
        exact absurd pending notKilled
      · intro _ child status same _ zombie
        rw [isForked child same] at zombie
        cases zombie
  | forkFails control =>
      simp only [control] at current
      refine ⟨before.others, current.2, before.killed, ?_⟩
      intro _ child status found _ zombie
      rw [current.2 child found] at zombie
      cases zombie
  | @resume child control found alive =>
      have notKilled := not_killPending_of_preparing conversation (by rw [control]; trivial)
      simp only [control] at current
      obtain ⟨lives, original, same, idle, _⟩ := current
      rw [found, Option.some.injEq] at same
      subst same
      refine before.update found rfl rfl rfl rfl (KillPending.congr rfl rfl) (by simp [control]) ?_
      refine ⟨_, Function.update_self _ _ _, ?_⟩
      exact .notStarted rfl idle.notReaped idle.waiting idle.childPipe
        (by simp [idle.parentPipe])
  | resumeFails control found dead =>
      simp only [control] at current
      obtain ⟨_, original, same, _, alive⟩ := current
      rw [found, Option.some.injEq] at same
      exact absurd (same ▸ alive) dead
  | writePid control =>
      simp only [control] at current
      exact ⟨before.others, current, before.killed,
        fun _ => before.onlyKilled (by simp [control])⟩
  | receive control found pending final =>
      simp only [control] at current
      have inRun := State.child_of_found found current
      obtain ⟨ownRun, idle⟩ := inRun.receive pending final
      refine before.update found rfl rfl rfl rfl (KillPending.congr rfl rfl) (by simp [control]) ?_
      refine ⟨rfl, ownRun, rfl, ?_, _, Function.update_self _ _ _, idle⟩
      rcases final with rfl | rfl <;> simp
  | receiveTsl control found pending =>
      simp only [control] at current
      have inRun := State.child_of_found found current
      refine before.update found rfl rfl rfl rfl (KillPending.congr rfl rfl) (by simp [control]) ?_
      exact ⟨_, Function.update_self _ _ _, inRun.receiveTsl pending⟩
  | receiveOther control found pending =>
      simp only [control] at current
      have inRun := State.child_of_found found current
      exact (inRun.no_other pending).elim
  | receivePc control found pending =>
      simp only [control] at current
      have inRun := State.child_of_found found current
      refine before.update found rfl rfl rfl rfl (KillPending.congr rfl rfl) (by simp [control]) ?_
      exact ⟨_, Function.update_self _ _ _, inRun.receivePc pending⟩
  | @childExited child control found drained dead =>
      have inRun : ∃ expect, InRun state.parent.requests expect child := by
        cases pc : state.parent.pc with
        | handleRequests =>
            simp only [pc] at current
            exact ⟨false, State.child_of_found found current⟩
        | handlePc =>
            simp only [pc] at current
            exact ⟨true, State.child_of_found found current⟩
        | _ => simp [pc, ParentPc.Handling] at control
      obtain ⟨expect, inRun⟩ := inRun
      obtain ⟨status, zombie⟩ := Life.zombie_of dead inRun.not_reaped
      have notReaping : state.parent.pc ≠ .reapKilled := by
        intro reaping
        simp [reaping, ParentPc.Handling] at control
      exact ⟨before.others, ⟨rfl, child, status, found, zombie⟩, before.killed,
        fun _ => before.onlyKilled notReaping⟩
  | @reapExited child status control found zombie =>
      simp only [control] at current
      refine before.reap rfl rfl ⟨rfl, current.1, ?_⟩
      intro other same
      simp only [State.setParentPc_children, State.record_children, State.setChild_children,
        State.setParentPc_parent, State.record_parent, State.setChild_parent,
        Function.update_self, Option.some.injEq] at same
      rw [← same]
  | @writeStatus report control =>
      refine ⟨before.others, ?_, before.killed, fun _ => before.onlyKilled (by simp [control])⟩
      cases report with
      | message pid run ret =>
          simp only [control] at current
          obtain ⟨_, _, sameRet, lives, idle⟩ := current
          exact ⟨fun exited => absurd exited (sameRet ▸ lives), fun _ => idle⟩
      | waited pid status =>
          simp only [control] at current
          exact ⟨fun _ => current.2.2, fun lives => absurd current.2.1 lives⟩

theorem ParentTransition.service {state next : State} (rule : ParentTransition state next)
    (before : ServiceLog state) (current : CurrentChild state) : ServiceLog next := by
  cases rule with
  | readKilled control _ _ _ =>
      exact before.move [] (by simp) rfl rfl rfl (by simp [control, ParentPc.Serving])
        (by simp [control]) (by simp)
  | readExited control _ _ =>
      exact before.move [] (by simp) rfl rfl rfl (by simp [control, ParentPc.Serving])
        (by simp [control]) (by simp)
  | readResume control _ _ =>
      exact before.move [] (by simp) rfl rfl rfl (by simp [control, ParentPc.Serving])
        (by simp [control]) (by simp)
  | reapKilled control _ _ =>
      exact before.move [.reap _] rfl rfl rfl rfl (by simp [control, ParentPc.Serving])
        (by simp [control, ParentPc.Serving]) (by simp)
  | waitFails control gone => exact (current.not_gone control gone).elim
  | fork pid control _ _ =>
      exact before.move [.fork pid, .start pid state.parent.requests] (by simp) rfl rfl rfl
        (by simp [control, ParentPc.Serving]) (by simp [control, ParentPc.Serving])
        (by simp)
  | forkFails control =>
      exact before.move [] (by simp) rfl rfl rfl (by simp [control, ParentPc.Serving])
        (by simp [control, ParentPc.Serving]) (by simp)
  | resume control _ _ =>
      exact before.move [.sendNext _] rfl rfl rfl rfl (by simp [control, ParentPc.Serving])
        (by simp [control, ParentPc.Serving]) (by simp)
  | resumeFails control _ _ =>
      exact before.move [.sendNext _] rfl rfl rfl rfl (by simp [control, ParentPc.Serving])
        (by simp [control, ParentPc.Serving]) (by simp)
  | writePid control =>
      refine ⟨?_, ?_, ?_, ?_, ?_⟩
      · simpa using before.served
      · intro notServing
        exact absurd trivial notServing
      · intro _
        simpa using before.announcedBefore (by simp [control, ParentPc.Serving])
      · simpa using before.ownRun
      · intro pid run member
        simp only [State.record_log, State.setParentPc_log, List.mem_append, List.mem_singleton,
          reduceCtorEq, or_false] at member
        rcases before.started pid run member with answered | ⟨ofCurrent, same, _⟩
        · exact .inl (by simpa using answered)
        · exact .inr ⟨ofCurrent, same, .inr trivial⟩
  | receive control _ _ _ =>
      exact before.move [] (by simp) rfl rfl rfl (by simp [control, ParentPc.Serving])
        (by simp [control, ParentPc.Serving]) (by simp)
  | receiveTsl control _ _ =>
      exact before.move [] (by simp) rfl rfl rfl (by simp [control, ParentPc.Serving])
        (by simp [control, ParentPc.Serving]) (by simp)
  | receiveOther control _ _ =>
      exact before.move [] (by simp) rfl rfl rfl (by simp [control, ParentPc.Serving])
        (by simp [control, ParentPc.Serving]) (by simp)
  | receivePc control _ _ =>
      exact before.move [] (by simp) rfl rfl rfl (by simp [control, ParentPc.Serving])
        (by simp [control, ParentPc.Serving]) (by simp)
  | childExited control _ _ _ =>
      have serving := control.serving
      exact before.move [] (by simp [State.childExited]) rfl rfl rfl
        (iff_of_true trivial serving) (by simp [State.childExited, ParentPc.Serving]) (by simp)
  | reapExited control _ _ =>
      exact before.move [.reap _] rfl rfl rfl rfl (by simp [control, ParentPc.Serving])
        (by simp [control, ParentPc.Serving]) (by simp)
  | @writeStatus report control =>
      have served := before.served
      have ofCurrent : report.pid = state.parent.childPid ∧
          ∀ pid run ret, report = .message pid run ret → run = state.parent.requests := by
        unfold CurrentChild at current
        cases report with
        | message pid run ret =>
            simp only [control] at current
            refine ⟨current.1, ?_⟩
            rintro _ _ _ same
            cases same
            exact current.2.1
        | waited pid status =>
            simp only [control] at current
            exact ⟨current.1, by simp⟩
      refine ⟨?_, ?_, ?_, ?_, ?_⟩
      · simp [served]
      · intro _
        have announcing := before.announcedServing (by rw [control]; trivial)
        simp [announcing, ofCurrent.1]
      · intro serving
        exact absurd serving (by simp)
      · intro k pid run ret found
        simp only [State.record_log, reports_append, reports_singleton, Event.report?,
          Option.toList_some] at found
        rcases Nat.lt_or_ge k (reports state.log).length with earlier | later
        · rw [List.getElem?_append_left earlier] at found
          exact before.ownRun k pid run ret found
        · rw [List.getElem?_append_right later, List.getElem?_singleton] at found
          split at found
          · next first =>
            rw [Option.some.injEq] at found
            have own := ofCurrent.2 pid run ret found
            omega
          · cases found
      · intro pid run member
        simp only [State.record_log, List.mem_append, List.mem_singleton, reduceCtorEq,
          or_false] at member
        simp only [State.record_log, reports_append, reports_singleton, Event.report?,
          Option.toList_some]
        rcases before.started pid run member with ⟨earlier, found, same⟩ | ⟨last, same, _⟩
        · have inside : run < (reports state.log).length :=
            (List.getElem?_eq_some_iff.mp found).1
          exact .inl ⟨earlier, by rw [List.getElem?_append_left inside, found], same⟩
        · refine .inl ⟨report, ?_, ofCurrent.1.trans same.symm⟩
          rw [last, ← served]
          simp

theorem ProcessLog.update {state next : State} (before : ProcessLog state) (events : List Event)
    (log : next.log = state.log ++ events)
    (silent : ∀ event ∈ events, (∀ pid, event ≠ .fork pid) ∧ (∀ pid, event ≠ .reap pid) ∧
      ∀ pid, event ≠ .sendNext pid)
    {pid : Pid} {child after : Child} (found : state.children pid = some child)
    (children : next.children = Function.update state.children pid (some after))
    (life : after.life = .reaped ↔ child.life = .reaped) : ProcessLog next := by
  refine before.append events log silent ?_ ?_
  · rintro other ⟨original, present⟩
    rw [children]
    by_cases same : other = pid
    · exact ⟨after, by rw [same, Function.update_self]⟩
    · exact ⟨original, by rw [Function.update_of_ne same, present]⟩
  · intro other
    rw [children]
    by_cases same : other = pid
    · rw [same, Function.update_self, found]
      simp [life]
    · rw [Function.update_of_ne same]

theorem ProcessLog.reap {state next : State} (before : ProcessLog state) {pid : Pid}
    {child : Child} (children : next.children =
      Function.update state.children pid (some { child with life := .reaped }))
    (log : next.log = state.log ++ [.reap pid]) : ProcessLog next := by
  refine ⟨?_, ?_, ?_⟩
  · intro other member
    simp only [log, List.mem_append, List.mem_singleton, reduceCtorEq, or_false] at member
    rw [children]
    by_cases same : other = pid
    · exact ⟨_, by rw [same, Function.update_self]⟩
    · rw [Function.update_of_ne same]
      exact before.forked other member
  · intro other
    rw [log, List.mem_append, before.reaped, children]
    by_cases same : other = pid
    · simp [same]
    · simp [same]
  · rw [log]
    exact before.ordered.snoc trivial

theorem ParentTransition.processes {state next : State} (rule : ParentTransition state next)
    (before : ProcessLog state) (children : ChildrenInv state) : ProcessLog next := by
  have current := children.current
  unfold CurrentChild at current
  cases rule with
  | readKilled _ _ _ _ =>
      exact before.append [] (by simp) (by simp) (fun _ found => found) (by simp)
  | readExited _ _ _ => exact before.append [] (by simp) (by simp) (fun _ found => found) (by simp)
  | readResume _ _ _ => exact before.append [] (by simp) (by simp) (fun _ found => found) (by simp)
  | reapKilled _ _ _ => exact before.reap rfl rfl
  | waitFails _ _ => exact before.append [] (by simp) (by simp) (fun _ found => found) (by simp)
  | fork pid control _ fresh =>
      simp only [control] at current
      have allReaped (other : Pid) (child : Child) (found : state.children other = some child) :
          child.life = .reaped := by
        by_cases previous : other = state.parent.childPid
        · exact current.2 child (previous ▸ found)
        · exact children.others other child found previous
      have allowed : EventAllowed state.log (.fork pid) := by
        intro other forked
        obtain ⟨child, found⟩ := before.forked other forked
        exact (before.reaped other).mpr ⟨child, found, allReaped other child found⟩
      refine ⟨?_, ?_, ?_⟩
      · intro other member
        simp only [State.record_log, State.setChild_log, List.append_assoc, List.cons_append,
          List.nil_append, List.mem_append, List.mem_cons, reduceCtorEq, List.not_mem_nil,
          or_false, Event.fork.injEq] at member
        simp only [State.record_children, State.setChild_children]
        rcases member with old | rfl
        · obtain ⟨child, found⟩ := before.forked other old
          have different : other ≠ pid := by
            rintro rfl
            rw [fresh] at found
            cases found
          exact ⟨child, by rw [Function.update_of_ne different, found]⟩
        · exact ⟨_, Function.update_self _ _ _⟩
      · intro other
        have notNew : .reap other ∈ state.log ++ [.fork pid] ++
            [.start pid state.parent.requests] ↔ .reap other ∈ state.log := by simp
        change .reap other ∈ state.log ++ [.fork pid] ++ [.start pid state.parent.requests] ↔ _
        rw [notNew, before.reaped]
        simp only [State.record_children, State.setChild_children]
        by_cases same : other = pid
        · rw [same, Function.update_self, fresh]
          simp [Child.forked]
        · rw [Function.update_of_ne same]
      · simp only [State.record_log, State.setChild_log]
        exact (before.ordered.snoc allowed).snoc trivial
  | forkFails _ => exact before.append [] (by simp) (by simp) (fun _ found => found) (by simp)
  | @resume child control found alive =>
      have notReaped : .reap state.parent.childPid ∉ state.log := by
        rw [before.reaped]
        rintro ⟨other, same, reaped⟩
        rw [found, Option.some.injEq] at same
        rw [← same, alive] at reaped
        cases reaped
      have moved : ProcessLog ((state.setChild state.parent.childPid
          { child with
            parentPipe := child.parentPipe ++ [state.parent.requests] }).setParentPc
              .writePid) :=
        before.update [] (by simp) (by simp) found rfl Iff.rfl
      refine ⟨?_, ?_, ?_⟩
      · intro pid member
        simp only [State.record_log, List.mem_append, List.mem_singleton, reduceCtorEq,
          or_false] at member
        exact moved.forked pid member
      · intro pid
        rw [State.record_children, ← moved.reaped]
        simp
      · exact moved.ordered.snoc notReaped
  | resumeFails control found dead =>
      simp only [control] at current
      obtain ⟨_, original, same, _, alive⟩ := current
      rw [found, Option.some.injEq] at same
      exact absurd (same ▸ alive) dead
  | writePid _ =>
      exact before.append [.writePid _] rfl (by simp) (fun _ found => found) (by simp)
  | receive _ found _ _ => exact before.update [] (by simp) (by simp) found rfl Iff.rfl
  | receiveTsl _ found _ => exact before.update [] (by simp) (by simp) found rfl Iff.rfl
  | receiveOther _ found _ => exact before.update [] (by simp) (by simp) found rfl Iff.rfl
  | receivePc _ found _ => exact before.update [] (by simp) (by simp) found rfl Iff.rfl
  | childExited _ _ _ _ =>
      exact before.append [] (by simp [State.childExited]) (by simp) (fun _ found => found)
        (by simp [State.childExited])
  | reapExited _ _ _ => exact before.reap rfl rfl
  | writeStatus _ =>
      exact before.append [.writeStatus _] rfl (by simp) (fun _ found => found) (by simp)

/-! ## Steps of a child -/

theorem ChildrenInv.stepping {ucafl : UCAFL} {state : State} (before : ChildrenInv state)
    {pid : Pid} {child after : Child} {events : List Event}
    (found : state.children pid = some child) (alive : child.life = .alive)
    (rule : ChildTransition ucafl pid child after events) :
    pid = state.parent.childPid ∧
      ((state.parent.pc = .writePid ∧ InRun state.parent.requests false child) ∨
       (state.parent.pc = .handleRequests ∧ InRun state.parent.requests false child) ∨
       (state.parent.pc = .handlePc ∧ InRun state.parent.requests true child)) := by
  have isCurrent : pid = state.parent.childPid := by
    by_contra other
    have reaped := before.others pid child found other
    rw [alive] at reaped
    cases reaped
  subst isCurrent
  refine ⟨rfl, ?_⟩
  have isChild (other : Child)
      (same : state.children state.parent.childPid = some other) : other = child := by
    rw [found, Option.some.injEq] at same
    exact same.symm
  have notReaped (reaped : ∀ child, state.children state.parent.childPid = some child →
      child.life = .reaped) : False := by
    have dead := reaped child found
    rw [alive] at dead
    cases dead
  have notZombie (status : Nat) (zombie : child.life = .zombie status) : False := by
    rw [alive] at zombie
    cases zombie
  have current := before.current
  unfold CurrentChild at current
  cases control : state.parent.pc with
  | readRequest =>
      simp only [control] at current
      by_cases exited : state.parent.childRet = .exited
      · exact (notReaped (current.1 exited)).elim
      · obtain ⟨other, same, idle⟩ := current.2 exited
        exact ((isChild other same ▸ idle).no_step rule).elim
  | reapKilled =>
      simp only [control] at current
      obtain ⟨_, other, status, same, _, zombie⟩ := current
      exact (notZombie status (isChild other same ▸ zombie)).elim
  | spawn => simp only [control] at current; exact (notReaped current.2).elim
  | resume =>
      simp only [control] at current
      obtain ⟨_, other, same, idle, _⟩ := current
      exact ((isChild other same ▸ idle).no_step rule).elim
  | writePid =>
      simp only [control] at current
      obtain ⟨other, same, inRun⟩ := current
      exact .inl ⟨rfl, isChild other same ▸ inRun⟩
  | handleRequests =>
      simp only [control] at current
      obtain ⟨other, same, inRun⟩ := current
      exact .inr (.inl ⟨rfl, isChild other same ▸ inRun⟩)
  | handlePc =>
      simp only [control] at current
      obtain ⟨other, same, inRun⟩ := current
      exact .inr (.inr ⟨rfl, isChild other same ▸ inRun⟩)
  | reapExited =>
      simp only [control] at current
      obtain ⟨_, other, status, same, zombie⟩ := current
      exact (notZombie status (isChild other same ▸ zombie)).elim
  | writeStatus report =>
      cases report with
      | message pid run ret =>
          simp only [control] at current
          obtain ⟨_, _, _, _, other, same, idle⟩ := current
          exact ((isChild other same ▸ idle).no_step rule).elim
      | waited pid status => simp only [control] at current; exact (notReaped current.2.2).elim
  | returned => simp only [control] at current; exact (notReaped current).elim

theorem ChildTransition.events {ucafl : UCAFL} {pid : Pid} {child after : Child}
    {events : List Event} (rule : ChildTransition ucafl pid child after events) :
    asked events = 0 ∧ reports events = [] ∧ announced events = [] ∧ heardPids events = [] ∧
      heardStatuses events = [] ∧
      ∀ event ∈ events, (∀ pid, event ≠ .fork pid) ∧ (∀ pid, event ≠ .reap pid) ∧
        ∀ pid, event ≠ .sendNext pid := by
  cases rule <;> exact ⟨rfl, rfl, rfl, rfl, rfl, by simp⟩

theorem UCAFL.endRound_life (ucafl : UCAFL) {child : Child} (round : Round)
    (alive : child.life = .alive) (control : child.pc = .running) :
    (ucafl.endRound child round).life ≠ .reaped ∧
      ((ucafl.endRound child round).pc = .waiting → False) := by
  unfold UCAFL.endRound
  split
  · simp [control]
  · split
    · simp [alive]
    · simp [control]

theorem ChildTransition.life {ucafl : UCAFL} {pid : Pid} {child after : Child}
    {events : List Event} (rule : ChildTransition ucafl pid child after events)
    (alive : child.life = .alive) :
    after.life ≠ .reaped ∧ (after.pc = .waiting → after.life = .alive) := by
  cases rule with
  | requestTb _ _ => simp [alive]
  | sendPc _ => simp [alive]
  | finish round control =>
      obtain ⟨present, notWaiting⟩ := UCAFL.endRound_life ucafl round alive control
      exact ⟨present, fun waiting => (notWaiting waiting).elim⟩
  | ask _ => simp [alive]
  | resume _ _ => simp [alive]
  | die _ control => rcases control with control | ⟨address, control⟩ <;> simp [control]

theorem Conversation.congr {state next : State} (before : Conversation state)
    (afl : next.afl = state.afl) (parent : next.parent = state.parent)
    (ctl : next.ctl = state.ctl) (st : next.st = state.st)
    (inFlight : ∀ unanswered pids statuses, InFlight state unanswered pids statuses →
      InFlight next unanswered pids statuses) : Conversation next := by
  cases before with
  | quiet aflPc control noRequest unread flight =>
      exact .quiet (by rw [afl, aflPc]) (by rw [parent, control]) (by rw [ctl, noRequest])
        (by rw [st, unread]) (inFlight _ _ _ flight)
  | asked aflPc control request unread inTime flight =>
      exact .asked (by rw [afl, aflPc]) (by rw [parent, control]) (by rw [ctl, request])
        (by rw [st, unread]) (by rw [afl, inTime]) (inFlight _ _ _ flight)
  | preparing aflPc control noRequest unread inTime flight =>
      exact .preparing (by rw [afl, aflPc]) (by rw [parent]; exact control)
        (by rw [ctl, noRequest]) (by rw [st, unread]) (by rw [afl, inTime])
        (inFlight _ _ _ flight)
  | stopped aflPc control noRequest unread inTime flight =>
      exact .stopped (by rw [afl, aflPc]) (by rw [parent, control]) (by rw [ctl, noRequest])
        (by rw [st, unread]) (by rw [afl, inTime]) (inFlight _ _ _ flight)
  | announced aflPc control noRequest unread inTime flight =>
      exact .announced (by rw [afl, aflPc]) (by rw [parent]; exact control)
        (by rw [ctl, noRequest]) (by rw [st, parent, unread]) (by rw [afl, inTime])
        (by rw [parent]; exact inFlight _ _ _ flight)
  | answered aflPc control noRequest unread inTime flight =>
      exact .answered (by rw [afl, aflPc]) (by rw [parent, control]) (by rw [ctl, noRequest])
        (by rw [st, parent, unread]) (by rw [afl, inTime])
        (by rw [parent]; exact inFlight _ _ _ flight)
  | awaited aflPc control noRequest unread same flight =>
      exact .awaited (by rw [afl]; exact aflPc) (by rw [parent]; exact control)
        (by rw [ctl, noRequest]) (by rw [st, unread]) (by rw [afl, parent, same])
        (inFlight _ _ _ flight)
  | ready aflPc control noRequest unread same flight =>
      exact .ready (by rw [afl]; exact aflPc) (by rw [parent, control]) (by rw [ctl, noRequest])
        (by rw [st, unread]) (by rw [afl, parent, same]) (inFlight _ _ _ flight)

theorem ChildTransition.inv {ucafl : UCAFL} {state : State} {pid : Pid} {child after : Child}
    {events : List Event} (rule : ChildTransition ucafl pid child after events)
    (found : state.children pid = some child) (alive : child.life = .alive)
    (before : Inv state) : Inv (state.childStep pid after events) := by
  obtain ⟨noRequest, noReport, noPid, unheardPid, unheardStatus, silent⟩ := rule.events
  obtain ⟨present, waitingAlive⟩ := rule.life alive
  obtain ⟨rfl, serving⟩ := before.children.stepping found alive rule
  have notKilled : ¬ KillPending state := fun pending =>
    before.children.killed pending child found alive
  have stepped (expect : Bool) (inRun : InRun state.parent.requests expect child) :=
    inRun.step alive rule
  have isAfter (other : Child)
      (same : (state.childStep state.parent.childPid after events).children
        state.parent.childPid = some other) : other = after := by
    simp only [State.childStep, State.setChild_children, Function.update_self,
      Option.some.injEq] at same
    exact same.symm
  have started : ∀ pid run, .start pid run ∈ events →
      run = state.parent.requests ∧ pid = state.parent.childPid := by
    intro pid run member
    have inRun : ∃ expect, InRun state.parent.requests expect child := by
      rcases serving with ⟨_, inRun⟩ | ⟨_, inRun⟩ | ⟨_, inRun⟩
      · exact ⟨false, inRun⟩
      · exact ⟨false, inRun⟩
      · exact ⟨true, inRun⟩
    obtain ⟨expect, inRun⟩ := inRun
    have same := (stepped expect inRun).2 _ member (by simp)
    cases same
    exact ⟨rfl, rfl⟩
  refine ⟨?_, ⟨?_, ?_, ?_, ?_⟩, ?_, ?_⟩
  · exact before.conversation.congr rfl rfl rfl rfl fun _ _ _ flight =>
      flight.congr rfl events rfl noRequest noReport noPid unheardPid unheardStatus
  · intro other someChild same different
    have different : other ≠ state.parent.childPid := different
    simp only [State.childStep, State.setChild_children,
      Function.update_of_ne different] at same
    exact before.children.others other someChild same different
  · have inRun (expect : Bool) (was : InRun state.parent.requests expect child) :
        ∃ child, (Function.update state.children state.parent.childPid (some after))
          state.parent.childPid = some child ∧ InRun state.parent.requests expect child :=
      ⟨after, Function.update_self _ _ _, (stepped expect was).1⟩
    unfold CurrentChild
    simp only [State.childStep, State.setChild_parent, State.setChild_children]
    rcases serving with ⟨control, was⟩ | ⟨control, was⟩ | ⟨control, was⟩
    · rw [control]; exact inRun false was
    · rw [control]; exact inRun false was
    · rw [control]; exact inRun true was
  · intro pending
    exact absurd pending notKilled
  · intro _ other status same waiting zombie
    rw [isAfter other same] at waiting zombie
    rw [waitingAlive waiting] at zombie
    cases zombie
  · refine before.service.move events rfl noReport noPid rfl Iff.rfl
      (fun control => ⟨rfl, control⟩) ?_
    intro pid run member
    obtain ⟨sameRun, samePid⟩ := started pid run member
    refine ⟨sameRun, samePid, ?_⟩
    change state.parent.pc = .writePid ∨ state.parent.pc.Serving
    rcases serving with ⟨control, _⟩ | ⟨control, _⟩ | ⟨control, _⟩
    · exact .inl control
    · exact .inr (by rw [control]; trivial)
    · exact .inr (by rw [control]; trivial)
  · exact before.processes.update events rfl silent found rfl
      (iff_of_false present (by simp [alive]))

/-! ## All steps -/

theorem Transition.inv {ucafl : UCAFL} {state next : State} (rule : Transition ucafl state next)
    (before : Inv state) : Inv next := by
  cases rule with
  | afl rule => exact ⟨rule.conversation before.conversation,
      rule.children before.conversation before.children, rule.service before.service,
      rule.processes before.processes⟩
  | parent rule =>
      have current := before.children.current
      exact ⟨rule.conversation before.conversation current,
        rule.children before.conversation before.children, rule.service before.service current,
        rule.processes before.processes before.children⟩
  | child found alive rule => exact rule.inv found alive before

theorem inv_initial : Inv .initial where
  conversation := .quiet rfl rfl rfl rfl ⟨rfl, rfl, rfl⟩
  children := ⟨by simp [State.initial], ⟨by simp [State.initial], fun lives => absurd rfl lives⟩,
    by simp [State.initial], by simp [State.initial]⟩
  service := ⟨rfl, fun _ => rfl, fun serving => serving.elim, by simp [State.initial, reports],
    by simp [State.initial]⟩
  processes := ⟨by simp [State.initial], by simp [State.initial], .nil⟩

end SbFuzz.Unicornafl
