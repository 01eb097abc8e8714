import SbFuzz.Unicornafl.ForkserverProperties

/-! The service the fork server gives to AFL: every request is answered by one
pid and one status, the status is the one of the child that executed the run,
and processes are reaped before they are replaced. -/

set_option autoImplicit false

namespace SbFuzz.Unicornafl

/-! ## The dialogue -/

/-- The words on the two pipes between AFL and the parent. -/
inductive Turn where
  | request
  | pid (pid : Pid)
  | status (status : Nat)
deriving DecidableEq, Repr

@[simp] def Event.turn? : Event → Option Turn
  | .request => some .request
  | .writePid pid => some (.pid pid)
  | .writeStatus report => some (.status report.status)
  | _ => none

/-- Requests, pids and statuses in the order in which they were written. -/
def dialogue (log : List Event) : List Turn := log.filterMap Event.turn?

@[simp] theorem dialogue_append (left right : List Event) :
    dialogue (left ++ right) = dialogue left ++ dialogue right := by simp [dialogue]
@[simp] theorem dialogue_singleton (event : Event) :
    dialogue [event] = event.turn?.toList := by
  cases event <;> rfl

def answers (reports : List Report) : List Turn :=
  reports.flatMap fun report => [.request, .pid report.pid, .status report.status]

@[simp] theorem answers_append (left right : List Report) :
    answers (left ++ right) = answers left ++ answers right := by simp [answers]
@[simp] theorem answers_singleton (report : Report) :
    answers [report] = [.request, .pid report.pid, .status report.status] := by simp [answers]

/-- What has been said about the request that is not answered yet. -/
inductive Dialogue (state : State) : Prop where
  | settled : ¬ state.parent.pc.Serving → asked state.log = state.parent.requests →
      dialogue state.log = answers (reports state.log) → Dialogue state
  | requested : ¬ state.parent.pc.Serving → asked state.log = state.parent.requests + 1 →
      dialogue state.log = answers (reports state.log) ++ [.request] → Dialogue state
  | pidSent : state.parent.pc.Serving → asked state.log = state.parent.requests + 1 →
      dialogue state.log = answers (reports state.log) ++
        [.request, .pid state.parent.childPid] → Dialogue state

theorem Dialogue.move {state next : State} (before : Dialogue state) (events : List Event)
    (log : next.log = state.log ++ events) (silent : dialogue events = [])
    (noRequest : asked events = 0) (noReport : reports events = [])
    (requests : next.parent.requests = state.parent.requests)
    (serving : next.parent.pc.Serving ↔ state.parent.pc.Serving)
    (childPid : state.parent.pc.Serving → next.parent.childPid = state.parent.childPid) :
    Dialogue next := by
  have sameAsked : asked next.log = asked state.log := by simp [log, noRequest]
  have sameSaid : dialogue next.log = dialogue state.log := by simp [log, silent]
  have sameReports : reports next.log = reports state.log := by simp [log, noReport]
  cases before with
  | settled control counted said =>
      exact .settled (fun now => control (serving.mp now)) (by rw [sameAsked, requests, counted])
        (by rw [sameSaid, sameReports, said])
  | requested control counted said =>
      exact .requested (fun now => control (serving.mp now)) (by rw [sameAsked, requests, counted])
        (by rw [sameSaid, sameReports, said])
  | pidSent control counted said =>
      exact .pidSent (serving.mpr control) (by rw [sameAsked, requests, counted])
        (by rw [sameSaid, sameReports, said, childPid control])

theorem AflTransition.dialogue {state next : State} (rule : AflTransition state next)
    (inv : Inv state) (before : Dialogue state) : Dialogue next := by
  cases rule with
  | request idle =>
      obtain ⟨control, _, _, flight⟩ := inv.conversation.of_idle idle
      have counted := flight.requests
      cases before with
      | settled notServing _ said =>
          exact .requested notServing (by simpa using counted) (by simpa using said)
      | requested _ other _ => omega
      | pidSent serving _ _ => rw [control] at serving; exact serving.elim
  | readPid _ _ => exact before.move [.readPid _] rfl rfl rfl rfl rfl Iff.rfl fun _ => rfl
  | readStatus _ _ => exact before.move [.readStatus _] rfl rfl rfl rfl rfl Iff.rfl fun _ => rfl
  | timeout _ =>
      exact before.move [.kill state.afl.childPid] (by simp) rfl rfl rfl (by simp) (by simp)
        (by simp)

theorem ParentTransition.dialogue {state next : State} (rule : ParentTransition state next)
    (inv : Inv state) (before : Dialogue state) : Dialogue next := by
  have notServing (control : ¬ state.parent.pc.Serving) (nextControl : ¬ next.parent.pc.Serving) :
      next.parent.pc.Serving ↔ state.parent.pc.Serving := iff_of_false nextControl control
  have stillServing (control : state.parent.pc.Serving) (nextControl : next.parent.pc.Serving) :
      next.parent.pc.Serving ↔ state.parent.pc.Serving := iff_of_true nextControl control
  cases rule with
  | readKilled control _ _ _ =>
      exact before.move [] (by simp) rfl rfl rfl rfl (notServing (by simp [control]) id)
        (by simp [control])
  | readExited control _ _ =>
      exact before.move [] (by simp) rfl rfl rfl rfl (notServing (by simp [control]) id)
        (by simp [control])
  | readResume control _ _ =>
      exact before.move [] (by simp) rfl rfl rfl rfl (notServing (by simp [control]) id)
        (by simp [control])
  | reapKilled control _ _ =>
      exact before.move [.reap _] rfl rfl rfl rfl rfl (notServing (by rw [control]; exact id) id)
        fun _ => rfl
  | waitFails control gone => exact (inv.children.current.not_gone control gone).elim
  | fork pid control _ _ =>
      exact before.move [.fork pid, .start pid state.parent.requests] (by simp) rfl rfl rfl rfl
        (notServing (by rw [control]; exact id) id) (by rw [control]; exact False.elim)
  | forkFails control =>
      exact before.move [] (by simp) rfl rfl rfl rfl (notServing (by rw [control]; exact id) id)
        fun _ => rfl
  | resume control _ _ =>
      exact before.move [.sendNext _] rfl rfl rfl rfl rfl
        (notServing (by rw [control]; exact id) id) fun _ => rfl
  | resumeFails control _ _ =>
      exact before.move [.sendNext _] rfl rfl rfl rfl rfl
        (notServing (by rw [control]; exact id) id) fun _ => rfl
  | writePid control =>
      obtain ⟨_, _, _, _, flight⟩ := inv.conversation.of_preparing (by rw [control]; trivial)
      have counted := flight.requests
      cases before with
      | settled _ other _ => omega
      | requested _ _ said => exact .pidSent trivial (by simpa using counted) (by simp [said])
      | pidSent serving _ _ => rw [control] at serving; exact serving.elim
  | receive control _ _ _ =>
      exact before.move [] (by simp) rfl rfl rfl rfl
        (stillServing (by rw [control]; trivial) trivial) fun _ => rfl
  | receiveTsl control _ _ =>
      exact before.move [] (by simp) rfl rfl rfl rfl
        (stillServing (by rw [control]; trivial) trivial) fun _ => rfl
  | receiveOther control _ _ =>
      exact before.move [] (by simp) rfl rfl rfl rfl Iff.rfl fun _ => rfl
  | receivePc control _ _ =>
      exact before.move [] (by simp) rfl rfl rfl rfl
        (stillServing (by rw [control]; trivial) trivial) fun _ => rfl
  | childExited control _ _ _ =>
      exact before.move [] (by simp [State.childExited]) rfl rfl rfl rfl
        (stillServing control.serving trivial) fun _ => rfl
  | reapExited control _ _ =>
      exact before.move [.reap _] rfl rfl rfl rfl rfl
        (stillServing (by rw [control]; trivial) trivial) fun _ => rfl
  | @writeStatus report control =>
      have ofCurrent : report.pid = state.parent.childPid := by
        have current := inv.children.current
        unfold CurrentChild at current
        cases report <;> simp only [control] at current <;> exact current.1
      cases before with
      | settled notServing _ _ => rw [control] at notServing; exact (notServing trivial).elim
      | requested notServing _ _ => rw [control] at notServing; exact (notServing trivial).elim
      | pidSent _ counted said =>
          refine .settled id (by simpa using counted) ?_
          simp [said, ofCurrent]

theorem ChildTransition.dialogue_events {ucafl : UCAFL} {pid : Pid} {child after : Child}
    {events : List Event} (rule : ChildTransition ucafl pid child after events) :
    dialogue events = [] := by
  cases rule <;> rfl

theorem Transition.dialogue {ucafl : UCAFL} {state next : State}
    (rule : Transition ucafl state next) (inv : Inv state) (before : Dialogue state) :
    Dialogue next := by
  cases rule with
  | afl rule => exact rule.dialogue inv before
  | parent rule => exact rule.dialogue inv before
  | child found alive rule =>
      obtain ⟨noRequest, noReport, _⟩ := rule.events
      exact before.move _ rfl rule.dialogue_events noRequest noReport rfl Iff.rfl fun _ => rfl

/-! ## Who executed a run -/

/-- Every message names a run that its sender has started, and every process
is one the parent has forked. -/
structure Provenance (state : State) : Prop where
  running : ∀ pid child, state.children pid = some child → .start pid child.run ∈ state.log
  piped : ∀ pid child ret run, state.children pid = some child →
    ChildItem.msg ret run ∈ child.childPipe → .start pid run ∈ state.log
  held : ∀ pid run ret, state.parent.pc = .writeStatus (.message pid run ret) →
    .start pid run ∈ state.log
  reported : ∀ pid run ret, Report.message pid run ret ∈ reports state.log →
    .start pid run ∈ state.log
  forked : ∀ pid child, state.children pid = some child → 0 < pid ∧ .fork pid ∈ state.log

theorem Provenance.move {state next : State} (before : Provenance state)
    (events : List Event) (log : next.log = state.log ++ events) (noReport : reports events = [])
    (children : ∀ pid child, next.children pid = some child →
      ∃ original, state.children pid = some original ∧
        (child.run = original.run ∨ .start pid child.run ∈ events) ∧
        ∀ ret run, ChildItem.msg ret run ∈ child.childPipe →
          ChildItem.msg ret run ∈ original.childPipe ∨ run = original.run)
    (held : ∀ pid run ret, next.parent.pc = .writeStatus (.message pid run ret) →
      .start pid run ∈ state.log) : Provenance next := by
  have kept (event : Event) (member : event ∈ state.log) : event ∈ next.log := by
    rw [log]
    exact List.mem_append_left _ member
  refine ⟨?_, ?_, ?_, ?_, ?_⟩
  · intro pid child found
    obtain ⟨original, was, run, _⟩ := children pid child found
    rcases run with same | started
    · rw [same]
      exact kept _ (before.running pid original was)
    · rw [log]
      exact List.mem_append_right _ started
  · intro pid child ret run found member
    obtain ⟨original, was, _, pipe⟩ := children pid child found
    rcases pipe ret run member with old | rfl
    · exact kept _ (before.piped pid original ret run was old)
    · exact kept _ (before.running pid original was)
  · intro pid run ret control
    exact kept _ (held pid run ret control)
  · intro pid run ret member
    rw [log, reports_append, noReport, List.append_nil] at member
    exact kept _ (before.reported pid run ret member)
  · intro pid child found
    obtain ⟨original, was, _⟩ := children pid child found
    obtain ⟨positive, forked⟩ := before.forked pid original was
    exact ⟨positive, kept _ forked⟩

theorem Provenance.unchanged {state : State} (events : List Event) (pid : Pid) (child : Child)
    (found : state.children pid = some child) :
    ∃ original, state.children pid = some original ∧
      (child.run = original.run ∨ .start pid child.run ∈ events) ∧
      ∀ ret run, ChildItem.msg ret run ∈ child.childPipe →
        ChildItem.msg ret run ∈ original.childPipe ∨ run = original.run :=
  ⟨child, found, .inl rfl, fun _ _ member => .inl member⟩

theorem Provenance.consume {state next : State} (before : Provenance state)
    (events : List Event) (log : next.log = state.log ++ events) (noReport : reports events = [])
    {pid : Pid} {child after : Child} (found : state.children pid = some child)
    (children : next.children = Function.update state.children pid (some after))
    (run : after.run = child.run)
    (pipe : ∀ item ∈ after.childPipe, item ∈ child.childPipe)
    (held : ∀ pid run ret, next.parent.pc = .writeStatus (.message pid run ret) →
      .start pid run ∈ state.log) : Provenance next := by
  refine before.move events log noReport ?_ held
  intro other someChild present
  rw [children] at present
  by_cases same : other = pid
  · rw [same, Function.update_self, Option.some.injEq] at present
    subst present
    exact ⟨child, same ▸ found, .inl run, fun _ _ member => .inl (pipe _ member)⟩
  · rw [Function.update_of_ne same] at present
    exact unchanged events other someChild present

theorem AflTransition.provenance {state next : State} (rule : AflTransition state next)
    (before : Provenance state) : Provenance next := by
  cases rule with
  | request _ =>
      exact before.move [.request] rfl rfl (Provenance.unchanged [.request]) before.held
  | @readPid word _ _ _ =>
      exact before.move [.readPid word] rfl rfl (Provenance.unchanged [.readPid word]) before.held
  | @readStatus word _ _ _ =>
      exact before.move [.readStatus word] rfl rfl (Provenance.unchanged [.readStatus word])
        before.held
  | timeout _ =>
      refine before.move [.kill state.afl.childPid] (by simp) rfl ?_ (by simpa using before.held)
      intro pid child found
      simp only [State.record_children, State.kill_children] at found
      split at found
      · obtain ⟨original, was, rfl⟩ := Option.map_eq_some_iff.mp found
        exact ⟨original, was, .inl (by simp), fun _ _ member => .inl (by simpa using member)⟩
      · exact Provenance.unchanged _ pid child found

theorem ParentTransition.provenance {state next : State} (rule : ParentTransition state next)
    (inv : Inv state) (before : Provenance state) : Provenance next := by
  cases rule with
  | readKilled _ _ _ _ =>
      exact before.move [] (by simp) rfl (Provenance.unchanged []) (by simp)
  | readExited _ _ _ => exact before.move [] (by simp) rfl (Provenance.unchanged []) (by simp)
  | readResume _ _ _ => exact before.move [] (by simp) rfl (Provenance.unchanged []) (by simp)
  | reapKilled _ found _ =>
      exact before.consume [.reap _] rfl rfl found rfl rfl (fun _ member => member) (by simp)
  | waitFails control gone => exact (inv.children.current.not_gone control gone).elim
  | fork pid control positive fresh =>
      refine ⟨?_, ?_, ?_, ?_, ?_⟩
      · intro other child found
        simp only [State.record_children, State.setChild_children, State.record_log,
          State.setChild_log, List.append_assoc] at found ⊢
        by_cases same : other = pid
        · rw [same, Function.update_self, Option.some.injEq] at found
          subst found
          simp [same, Child.forked]
        · rw [Function.update_of_ne same] at found
          exact List.mem_append_left _ (before.running other child found)
      · intro other child ret run found member
        simp only [State.record_children, State.setChild_children, State.record_log,
          State.setChild_log, List.append_assoc] at found ⊢
        by_cases same : other = pid
        · rw [same, Function.update_self, Option.some.injEq] at found
          subst found
          simp [Child.forked] at member
        · rw [Function.update_of_ne same] at found
          exact List.mem_append_left _ (before.piped other child ret run found member)
      · simp
      · intro other run ret member
        simp only [State.record_log, State.setChild_log, List.append_assoc] at member ⊢
        rw [reports_append, show reports ([Event.fork pid] ++
          [.start pid state.parent.requests]) = [] from rfl, List.append_nil] at member
        exact List.mem_append_left _ (before.reported other run ret member)
      · intro other child found
        simp only [State.record_children, State.setChild_children, State.record_log,
          State.setChild_log, List.append_assoc] at found ⊢
        by_cases same : other = pid
        · simp [same, positive]
        · rw [Function.update_of_ne same] at found
          obtain ⟨nonzero, forked⟩ := before.forked other child found
          exact ⟨nonzero, List.mem_append_left _ forked⟩
  | forkFails _ => exact before.move [] (by simp) rfl (Provenance.unchanged []) (by simp)
  | resume _ found _ =>
      exact before.consume [.sendNext _] rfl rfl found rfl rfl (fun _ member => member) (by simp)
  | resumeFails _ _ _ =>
      exact before.move [.sendNext _] rfl rfl (Provenance.unchanged _) (by simp)
  | writePid _ => exact before.move [.writePid _] rfl rfl (Provenance.unchanged _) (by simp)
  | @receive child ret run rest _ found pending _ =>
      refine before.consume [] (by simp) rfl found rfl rfl ?_ ?_
      · intro item member
        rw [pending]
        exact List.mem_cons_of_mem _ member
      · intro pid sender other same
        simp only [ParentPc.writeStatus.injEq, Report.message.injEq] at same
        obtain ⟨rfl, rfl, rfl⟩ := same
        exact before.piped _ child ret run found (by rw [pending]; exact List.mem_cons_self)
  | receiveTsl _ found pending =>
      refine before.consume [] (by simp) rfl found rfl rfl ?_ (by simp)
      intro item member
      rw [pending]
      exact List.mem_cons_of_mem _ member
  | receiveOther control found pending =>
      refine before.consume [] (by simp) rfl found rfl rfl ?_ (by simp [control])
      intro item member
      rw [pending]
      exact List.mem_cons_of_mem _ member
  | receivePc _ found pending =>
      refine before.consume [] (by simp) rfl found rfl rfl ?_ (by simp)
      intro item member
      rw [pending]
      exact List.mem_cons_of_mem _ member
  | childExited _ _ _ _ =>
      exact before.move [] (by simp [State.childExited]) rfl (Provenance.unchanged [])
        (by simp [State.childExited])
  | reapExited _ found _ =>
      exact before.consume [.reap _] rfl rfl found rfl rfl (fun _ member => member) (by simp)
  | @writeStatus report control =>
      have kept (event : Event) (member : event ∈ state.log) :
          event ∈ state.log ++ [.writeStatus report] := List.mem_append_left _ member
      refine ⟨?_, ?_, by simp, ?_, ?_⟩
      · intro pid child found
        exact kept _ (before.running pid child found)
      · intro pid child ret run found member
        exact kept _ (before.piped pid child ret run found member)
      · intro pid run ret member
        simp only [State.record_log, reports_append, reports_singleton, Event.report?,
          Option.toList_some, List.mem_append, List.mem_singleton] at member
        rcases member with old | rfl
        · exact kept _ (before.reported pid run ret old)
        · exact kept _ (before.held pid run ret control)
      · intro pid child found
        obtain ⟨positive, forked⟩ := before.forked pid child found
        exact ⟨positive, kept _ forked⟩

theorem UCAFL.endRound_run (ucafl : UCAFL) (child : Child) (round : Round) :
    (ucafl.endRound child round).run = child.run ∧
      (ucafl.endRound child round).childPipe = child.childPipe := by
  unfold UCAFL.endRound
  split
  · exact ⟨rfl, rfl⟩
  · split <;> exact ⟨rfl, rfl⟩

theorem ChildTransition.provenance {ucafl : UCAFL} {state : State} {pid : Pid}
    {child after : Child} {events : List Event}
    (rule : ChildTransition ucafl pid child after events)
    (found : state.children pid = some child) (before : Provenance state) :
    Provenance (state.childStep pid after events) := by
  refine before.move events rfl rule.events.2.1 ?_ before.held
  intro other someChild present
  simp only [State.childStep, State.setChild_children] at present
  by_cases same : other = pid
  · rw [same, Function.update_self, Option.some.injEq] at present
    subst present
    refine ⟨child, same ▸ found, ?_, ?_⟩
    · cases rule with
      | finish round _ => exact .inl (ucafl.endRound_run child round).1
      | resume _ _ => exact .inr (by simp [same])
      | _ => exact .inl rfl
    · intro ret run member
      cases rule with
      | requestTb _ _ =>
          simp only [List.mem_append, List.mem_singleton, ChildItem.msg.injEq] at member
          exact member.imp id And.right
      | sendPc _ => exact .inl (by simpa using member)
      | finish round _ =>
          rw [(ucafl.endRound_run child round).2] at member
          exact .inl member
      | ask _ =>
          simp only [List.mem_append, List.mem_singleton, ChildItem.msg.injEq] at member
          exact member.imp id And.right
      | resume _ _ => exact .inl member
      | die _ _ => exact .inl member
  · rw [Function.update_of_ne same] at present
    exact Provenance.unchanged _ other someChild present

theorem Transition.provenance {ucafl : UCAFL} {state next : State}
    (rule : Transition ucafl state next) (inv : Inv state) (before : Provenance state) :
    Provenance next := by
  cases rule with
  | afl rule => exact rule.provenance before
  | parent rule => exact rule.provenance inv before
  | child found _ rule => exact rule.provenance found before

theorem provenance_initial : Provenance .initial :=
  ⟨by simp [State.initial], by simp [State.initial], by simp [State.initial],
    by simp [State.initial, reports], by simp [State.initial]⟩

/-- The invariants together with the dialogue and the origin of messages. -/
structure FullInv (state : State) : Prop where
  inv : Inv state
  dialogue : Dialogue state
  provenance : Provenance state

theorem reachable_fullInv {ucafl : UCAFL} {state : State}
    (reachable : ucafl.forkserver.Reachable state) : FullInv state := by
  have start : FullInv State.initial := ⟨inv_initial, .settled id rfl rfl, provenance_initial⟩
  refine ucafl.forkserver.reachable_invariant FullInv start ?_ reachable
  intro state action next before stepped
  have rule := UCAFL.step_transition stepped
  exact ⟨rule.inv before.inv, rule.dialogue before.inv before.dialogue,
    rule.provenance before.inv before.provenance⟩

/-! ## The discipline -/

/-- What the fork server owes to AFL and to the processes it forks. The parent
resumes a child through its pipe only: it sends no signal, so the `sendNext`
events are all the ways in which a child is told to go on. -/
structure ForkserverDiscipline (state : State) : Prop where
  /-- Requests are answered one by one, each with a pid and then a status. -/
  answered : ∃ pending,
    (pending = [] ∨ pending = [.request] ∨
      pending = [.request, .pid state.parent.childPid]) ∧
    dialogue state.log = answers (reports state.log) ++ pending
  /-- AFL takes the pids for pids and the statuses for statuses, in order. -/
  pidsHeard : heardPids state.log <+: announced state.log
  statusesHeard : heardStatuses state.log <+: (reports state.log).map Report.status
  /-- Between two runs every request has had its pid and its status. -/
  settled : state.afl.pc = .idle →
    dialogue state.log = answers (reports state.log) ∧
      heardPids state.log = (reports state.log).map Report.pid ∧
      heardStatuses state.log = (reports state.log).map Report.status
  /-- Whoever executes the run of a request is the child whose status answers it. -/
  executed : ∀ k report pid, (reports state.log)[k]? = some report →
    .start pid k ∈ state.log → pid = report.pid
  /-- A status taken from a message is taken from a message of that very run. -/
  ownMessage : ∀ k pid run ret, (reports state.log)[k]? = some (Report.message pid run ret) →
    run = k ∧ .start pid k ∈ state.log
  /-- Children are reaped before the next fork and not resumed afterwards. -/
  ordered : Disciplined state.log

theorem FullInv.discipline {state : State} (full : FullInv state) :
    ForkserverDiscipline state := by
  have conversation := full.inv.conversation
  have service := full.inv.service
  have heard := conversation.heard
  refine ⟨?_, heard.1, heard.2, ?_, ?_, ?_, full.inv.processes.ordered⟩
  · cases full.dialogue with
    | settled _ _ said => exact ⟨[], .inl rfl, by simpa using said⟩
    | requested _ _ said => exact ⟨_, .inr (.inl rfl), said⟩
    | pidSent _ _ said => exact ⟨_, .inr (.inr rfl), said⟩
  · intro idle
    obtain ⟨control, _, _, flight⟩ := conversation.of_idle idle
    have notServing : ¬ state.parent.pc.Serving := by simp [control]
    have pids := service.announcedBefore notServing
    refine ⟨?_, ?_, ?_⟩
    · cases full.dialogue with
      | settled _ _ said => exact said
      | requested _ counted _ => exact absurd flight.requests (by omega)
      | pidSent serving _ _ => exact absurd serving notServing
    · rw [← pids, flight.pids, List.append_nil]
    · rw [flight.statuses, List.append_nil]
  · intro k report pid found started
    rcases service.started pid k started with ⟨other, same, pidSame⟩ | ⟨current, _, _⟩
    · rw [found, Option.some.injEq] at same
      exact same ▸ pidSame.symm
    · have inside := (List.getElem?_eq_some_iff.mp found).1
      rw [service.served] at inside
      omega
  · intro k pid run ret found
    have own := service.ownRun k pid run ret found
    have started := full.provenance.reported pid run ret (List.mem_of_getElem? found)
    exact ⟨own, own ▸ started⟩

/-- Whatever the interleaving of requests, timeouts, kills, messages and
deaths, the fork server keeps its discipline. -/
theorem forkserver_discipline {ucafl : UCAFL} {state : State}
    (reachable : ucafl.forkserver.Reachable state) : ForkserverDiscipline state :=
  (reachable_fullInv reachable).discipline

/-- A round that is over, a second one that AFL kills, and a fork in its place. -/
def timeoutRun : List Action :=
  [.afl .request, .parent .proceed, .parent (.fork 7), .parent .proceed, .afl .readPid,
    .child 7 (.finish ⟨true, ucErrOk, false⟩), .child 7 .ask, .parent .proceed, .parent .proceed,
    .afl .readStatus, .afl .request, .parent .proceed, .parent .proceed, .parent .proceed,
    .afl .readPid, .child 7 .resume, .afl .timeout, .parent .proceed, .parent .proceed,
    .parent .proceed, .afl .readStatus, .afl .request, .parent .proceed, .parent (.fork 8)]

theorem forkserver_discipline_timeoutRun :
    ∃ state, (UCAFL.forkserver ⟨3, false, true⟩).run timeoutRun = some state ∧
      ForkserverDiscipline state := by
  have enabled : ((UCAFL.forkserver ⟨3, false, true⟩).run timeoutRun).isSome := rfl
  obtain ⟨state, ran⟩ := Option.isSome_iff_exists.mp enabled
  exact ⟨state, ran, forkserver_discipline ⟨timeoutRun, ran⟩⟩

end SbFuzz.Unicornafl
