import SbFuzz.Unicornafl.ForkserverProperties

/-! Which rounds of a persistent child AFL takes for crashes, over runs in which
every round comes to its end: AFL does not time out and the emulated code does
not take the child down. -/

set_option autoImplicit false

namespace SbFuzz.Unicornafl

/-! ## Outcomes and their reports -/

@[simp] def Event.finished? : Event → Option (Nat × Round)
  | .finish _ run round => some (run, round)
  | _ => none

/-- The rounds that have ended, in order, each with the request it answers. -/
def finished (log : List Event) : List (Nat × Round) := log.filterMap Event.finished?

@[simp] theorem finished_append (left right : List Event) :
    finished (left ++ right) = finished left ++ finished right := by simp [finished]
@[simp] theorem finished_singleton (event : Event) :
    finished [event] = event.finished?.toList := by
  cases event <;> rfl

/-- Neither a timeout of AFL nor the end of a child in mid-round. -/
def Action.Undisturbed : Action → Prop
  | .afl .timeout => False
  | .child _ (.die _) => False
  | _ => True

/-- AFL takes a round for a crash exactly when it was one. -/
def CrashesReported (ucafl : UCAFL) (log : List Event) : Prop :=
  ∀ (k status : Nat), (heardStatuses log)[k]? = some status →
    ∃ round, (finished log)[k]? = some (k, round) ∧ wifsignaled status = ucafl.crashed round

/-- No last round in the life of a child that AFL has heard of ended in a crash. -/
def LastRoundsClean (ucafl : UCAFL) (log : List Event) : Prop :=
  ∀ (k : Nat) (round : Round), k < (heardStatuses log).length →
    (finished log)[k]? = some (k, round) →
    k % ucafl.persistentIters = ucafl.persistentIters - 1 → ucafl.crashed round = false

/-- What `_child_fuzz` tells the parent about a round from inside the loop. -/
def UCAFL.childRet (ucafl : UCAFL) (round : Round) : AflChildRet :=
  if ucafl.crashed round then .foundCrash else .next

/-- The status that the `k`-th round is relayed with: the last round in the
life of a child leaves only its exit status behind. -/
def UCAFL.relayed (ucafl : UCAFL) (k : Nat) (round : Round) : Nat :=
  if k % ucafl.persistentIters + 1 < ucafl.persistentIters then
    if ucafl.crashed round then setupValidWifsignaled else 0
  else 0

theorem Report.status_childRet (ucafl : UCAFL) (pid : Pid) (run : Nat) (round : Round) :
    (Report.message pid run (ucafl.childRet round)).status =
      if ucafl.crashed round then setupValidWifsignaled else 0 := by
  unfold UCAFL.childRet
  split <;> rfl

theorem wifsignaled_setupValidWifsignaled : wifsignaled setupValidWifsignaled = true := by decide

theorem UCAFL.wifsignaled_relayed (ucafl : UCAFL) (several : 2 ≤ ucafl.persistentIters) (k : Nat)
    (round : Round) : wifsignaled (ucafl.relayed k round) = ucafl.crashed round ↔
      (k % ucafl.persistentIters = ucafl.persistentIters - 1 → ucafl.crashed round = false) := by
  have inside : k % ucafl.persistentIters < ucafl.persistentIters := Nat.mod_lt k (by omega)
  have normal : wifsignaled 0 = false := by decide
  unfold UCAFL.relayed
  split
  · next again =>
    have notLast : k % ucafl.persistentIters ≠ ucafl.persistentIters - 1 := by omega
    simp only [notLast, false_implies, iff_true]
    cases ucafl.crashed round with
    | true => exact wifsignaled_setupValidWifsignaled
    | false => exact normal
  · next last =>
    have isLast : k % ucafl.persistentIters = ucafl.persistentIters - 1 := by omega
    rw [normal]
    exact ⟨fun same _ => same.symm, fun clean => (clean isLast).symm⟩

theorem UCAFL.childRound_goOn (ucafl : UCAFL) (several : 2 ≤ ucafl.persistentIters)
    (round : Round) : ucafl.childRound round = .goOn (ucafl.crashed round) := by
  have notOne : ucafl.persistentIters ≠ 1 := by omega
  simp only [UCAFL.childRound, UCAFL.crashed]
  cases round.inputAccepted <;> cases ucafl.validateCrashCallback <;>
    cases ucafl.alwaysValidate <;> cases round.crashValidated <;>
    cases round.ucRet != ucErrOk <;> simp [notOne]

/-! ## The round of the current child -/

/-- Round `run` is the last one that has ended. -/
structure Ended (run : Nat) (outcomes : List (Nat × Round)) (round : Round) : Prop where
  count : outcomes.length = run + 1
  outcome : outcomes[run]? = some (run, round)

/-- No report on a round is left in a pipe. -/
def Unreported (items : List ChildItem) : Prop :=
  ∀ ret sender, ChildItem.msg ret sender ∈ items → ret = .tslRequest

/-- How far a child is with round `run`. -/
inductive Phase (ucafl : UCAFL) (run : Nat) (outcomes : List (Nat × Round)) (child : Child) :
    Prop where
  | executing : outcomes.length = run → child.life = .alive → child.pc ≠ .asking →
      child.i = run % ucafl.persistentIters → Unreported child.childPipe →
      Phase ucafl run outcomes child
  | asking (round : Round) : Ended run outcomes round → child.life = .alive →
      child.pc = .asking → child.crashFound = ucafl.crashed round →
      child.i = run % ucafl.persistentIters + 1 → child.i < ucafl.persistentIters →
      Unreported child.childPipe → Phase ucafl run outcomes child
  | reported (round : Round) : Ended run outcomes round → child.life = .alive →
      child.pc = .waiting → child.parentPipe = [] →
      child.i = run % ucafl.persistentIters + 1 → child.i < ucafl.persistentIters →
      (∀ ret sender, ChildItem.msg ret sender ∈ child.childPipe →
        ret = .tslRequest ∨ ret = ucafl.childRet round) → Phase ucafl run outcomes child
  | exited (round : Round) : Ended run outcomes round → child.life = .zombie 0 →
      run % ucafl.persistentIters + 1 = ucafl.persistentIters → Unreported child.childPipe →
      Phase ucafl run outcomes child

theorem Phase.consume {ucafl : UCAFL} {run : Nat} {outcomes : List (Nat × Round)} {child : Child}
    (phase : Phase ucafl run outcomes child) {rest : List ChildItem}
    (fewer : ∀ item ∈ rest, item ∈ child.childPipe) :
    Phase ucafl run outcomes { child with childPipe := rest } := by
  cases phase with
  | executing count alive control index unreported =>
      exact .executing count alive control index fun ret sender member =>
        unreported ret sender (fewer _ member)
  | asking round ended alive control crash index inside unreported =>
      exact .asking round ended alive control crash index inside fun ret sender member =>
        unreported ret sender (fewer _ member)
  | reported round ended alive control drained index inside own =>
      exact .reported round ended alive control drained index inside fun ret sender member =>
        own ret sender (fewer _ member)
  | exited round ended zombie last unreported =>
      exact .exited round ended zombie last fun ret sender member =>
        unreported ret sender (fewer _ member)

theorem Unreported.snoc {items : List ChildItem} {item : ChildItem}
    (unreported : Unreported items)
    (silent : ∀ ret sender, item = .msg ret sender → ret = .tslRequest) :
    Unreported (items ++ [item]) := by
  intro ret sender member
  rcases List.mem_append.mp member with old | new
  · exact unreported ret sender old
  · exact silent ret sender (List.mem_singleton.mp new).symm

theorem Phase.step {ucafl : UCAFL} (several : 2 ≤ ucafl.persistentIters) {run : Nat}
    {expect : Bool} {pid : Pid} {outcomes : List (Nat × Round)} {child after : Child}
    {events : List Event} (phase : Phase ucafl run outcomes child)
    (inRun : InRun run expect child) (alive : child.life = .alive)
    (rule : ChildTransition ucafl pid child after events)
    (kept : events ≠ [] ∨ after.life = child.life) :
    Phase ucafl run (outcomes ++ finished events) after := by
  cases phase with
  | executing count _ control index unreported =>
      cases rule with
      | requestTb address _ =>
          refine .executing (by simpa [finished] using count) alive (by simp) index ?_
          exact unreported.snoc (by simp)
      | sendPc _ =>
          refine .executing (by simpa [finished] using count) alive (by simp) index ?_
          exact unreported.snoc (by simp)
      | finish round running =>
          have ownRun : child.run = run := by
            cases inRun with
            | notStarted _ _ waiting _ _ => rw [running] at waiting; cases waiting
            | started _ _ same _ _ _ _ => exact same
          have ended : Ended run (outcomes ++ finished [.finish pid child.run round]) round := by
            refine ⟨by simp [count], ?_⟩
            rw [List.getElem?_append_right (by omega)]
            simp [count, ownRun]
          have inside : run % ucafl.persistentIters < ucafl.persistentIters :=
            Nat.mod_lt run (by omega)
          unfold UCAFL.endRound
          rw [ucafl.childRound_goOn several round]
          simp only
          split
          · next again =>
            simp only [UCAFL.loopCondition, Bool.or_eq_true, beq_iff_eq, decide_eq_true_eq]
              at again
            have room : child.i + 1 < ucafl.persistentIters := by omega
            exact .asking round ended alive rfl rfl (by simp [index]) room unreported
          · next last =>
            simp only [UCAFL.loopCondition, Bool.or_eq_true, beq_iff_eq, decide_eq_true_eq]
              at last
            exact .exited round ended rfl (by omega) unreported
      | ask asking => exact absurd asking control
      | resume _ _ =>
          exact .executing (by simpa using count) alive (by simp) index unreported
      | die status _ => simp [alive] at kept
  | asking round ended _ control crash index inside unreported =>
      cases rule with
      | requestTb _ running => rw [control] at running; cases running
      | sendPc sending => rw [control] at sending; cases sending
      | finish _ running => rw [control] at running; cases running
      | ask _ =>
          have drained : child.parentPipe = [] := by
            cases inRun with
            | notStarted _ _ waiting _ _ => rw [control] at waiting; cases waiting
            | started _ _ _ drained _ _ _ => exact drained
          refine .reported round (by simpa [finished] using ended) alive rfl drained index inside ?_
          intro ret sender member
          rcases List.mem_append.mp member with old | new
          · exact .inl (unreported ret sender old)
          · simp only [List.mem_singleton, ChildItem.msg.injEq, crash] at new
            exact .inr new.1
      | resume waiting _ => rw [control] at waiting; cases waiting
      | die _ _ => simp [alive] at kept
  | reported round ended _ control drained index inside own =>
      cases rule with
      | requestTb _ running => rw [control] at running; cases running
      | sendPc sending => rw [control] at sending; cases sending
      | finish _ running => rw [control] at running; cases running
      | ask asking => rw [control] at asking; cases asking
      | resume _ pending => rw [drained] at pending; cases pending
      | die _ _ => simp [alive] at kept
  | exited _ _ zombie _ _ => rw [alive] at zombie; cases zombie

theorem succ_mod_of_lt {run iters : Nat} (inside : run % iters + 1 < iters) :
    (run + 1) % iters = run % iters + 1 := by
  rw [← Nat.mod_add_mod, Nat.mod_eq_of_lt inside]

theorem succ_mod_of_last {run iters : Nat} (last : run % iters + 1 = iters) :
    (run + 1) % iters = 0 := by
  rw [← Nat.mod_add_mod, last, Nat.mod_self]

/-! ## The whole system -/

def CurrentRound (ucafl : UCAFL) (state : State) : Prop :=
  let run := state.parent.requests
  let outcomes := finished state.log
  match state.parent.pc with
  | .readRequest => outcomes.length = run ∧
      (state.parent.childRet = .exited → run % ucafl.persistentIters = 0) ∧
      (state.parent.childRet ≠ .exited → ∃ child,
        state.children state.parent.childPid = some child ∧ child.life = .alive ∧
          child.i = run % ucafl.persistentIters)
  | .reapKilled => False
  | .spawn => outcomes.length = run ∧ run % ucafl.persistentIters = 0
  | .resume => outcomes.length = run ∧ ∃ child,
      state.children state.parent.childPid = some child ∧ child.life = .alive ∧
        child.i = run % ucafl.persistentIters
  | .writePid => ∃ child, state.children state.parent.childPid = some child ∧
      Phase ucafl run outcomes child
  | .handleRequests => ∃ child, state.children state.parent.childPid = some child ∧
      Phase ucafl run outcomes child
  | .handlePc => ∃ child, state.children state.parent.childPid = some child ∧
      Phase ucafl run outcomes child
  | .reapExited => run % ucafl.persistentIters + 1 = ucafl.persistentIters ∧
      (∃ round, Ended run outcomes round) ∧ ∃ child,
        state.children state.parent.childPid = some child ∧ child.life = .zombie 0
  | .writeStatus report => (∃ round, Ended run outcomes round ∧
        report.status = ucafl.relayed run round) ∧
      (state.parent.childRet = .exited → run % ucafl.persistentIters + 1 = ucafl.persistentIters) ∧
      (state.parent.childRet ≠ .exited → ∃ child,
        state.children state.parent.childPid = some child ∧ child.life = .alive ∧
          child.i = run % ucafl.persistentIters + 1 ∧ child.i < ucafl.persistentIters)
  | .returned => True

structure ReportInv (ucafl : UCAFL) (state : State) : Prop where
  inv : Inv state
  notKilled : ¬ KillPending state
  relayed : ∀ k report, (reports state.log)[k]? = some report →
    ∃ round, (finished state.log)[k]? = some (k, round) ∧ report.status = ucafl.relayed k round
  current : CurrentRound ucafl state

theorem CurrentRound.congr {ucafl : UCAFL} {state next : State}
    (current : CurrentRound ucafl state) (parent : next.parent = state.parent)
    (children : next.children = state.children)
    (outcomes : finished next.log = finished state.log) : CurrentRound ucafl next := by
  unfold CurrentRound at current ⊢
  rw [parent, children, outcomes]
  exact current

theorem ReportInv.afl {ucafl : UCAFL} {state next : State} {action : AflAction}
    (before : ReportInv ucafl state) (undisturbed : (Action.afl action).Undisturbed)
    (stepped : aflFsrvRunTarget state action = some next) : ReportInv ucafl next := by
  have inv : Inv next := (@Transition.afl ucafl _ _
    (aflFsrvRunTarget_transition stepped)).inv before.inv
  have unkilled : state.afl.lastRunTimedOut = false ∧ ∀ word ∈ state.ctl, word = 0 := by
    have notKilled := before.notKilled
    simp only [KillPending, not_or, Bool.not_eq_true, not_exists, not_and, not_not] at notKilled
    exact notKilled
  have move (parent : next.parent = state.parent) (children : next.children = state.children)
      (reported : reports next.log = reports state.log)
      (outcomes : finished next.log = finished state.log)
      (notKilled : next.afl.lastRunTimedOut = false ∧ ∀ word ∈ next.ctl, word = 0) :
      ReportInv ucafl next := by
    refine ⟨inv, ?_, ?_, before.current.congr parent children outcomes⟩
    · simpa only [KillPending, not_or, Bool.not_eq_true, not_exists, not_and, not_not]
        using notKilled
    · rw [reported, outcomes]
      exact before.relayed
  cases action with
  | timeout => exact undisturbed.elim
  | request =>
      cases control : state.afl.pc <;> simp [aflFsrvRunTarget, control] at stepped
      subst next
      refine move rfl rfl (by simp) (by simp) ⟨rfl, ?_⟩
      intro word member
      simp only [State.record_ctl, unkilled.1, List.mem_append, List.mem_singleton] at member
      rcases member with old | rfl
      · exact unkilled.2 word old
      · rfl
  | readPid =>
      cases aflFsrvRunTarget_transition stepped with
      | request idle => simp [aflFsrvRunTarget, idle] at stepped
      | readPid _ _ => exact move rfl rfl (by simp) (by simp) unkilled
      | readStatus _ _ => exact move rfl rfl (by simp) (by simp) unkilled
      | timeout control => simp [aflFsrvRunTarget, control] at stepped
  | readStatus =>
      simp only [aflFsrvRunTarget] at stepped
      split at stepped
      · cases stepped
        exact move rfl rfl (by simp) (by simp) unkilled
      · cases stepped
        exact move rfl rfl (by simp) (by simp) unkilled
      · cases stepped

theorem ParentTransition.reportInv {ucafl : UCAFL} {state next : State}
    (rule : ParentTransition state next) (before : ReportInv ucafl state) :
    ReportInv ucafl next := by
  have inv : Inv next := (@Transition.parent ucafl _ _ rule).inv before.inv
  have current := before.current
  unfold CurrentRound at current
  have move (afl : next.afl = state.afl) (ctl : ∀ word ∈ next.ctl, word ∈ state.ctl)
      (events : List Event) (log : next.log = state.log ++ events)
      (silent : reports events = [] ∧ finished events = []) (now : CurrentRound ucafl next) :
      ReportInv ucafl next := by
    have reported : reports next.log = reports state.log := by simp [log, silent.1]
    have outcomes : finished next.log = finished state.log := by simp [log, silent.2]
    refine ⟨inv, ?_, ?_, now⟩
    · rintro (timedOut | ⟨word, member, nonzero⟩)
      · exact before.notKilled (.inl (afl ▸ timedOut))
      · exact before.notKilled (.inr ⟨word, ctl word member, nonzero⟩)
    · rw [reported, outcomes]
      exact before.relayed
  have consumed {child : Child} {rest : List ChildItem} {item : ChildItem}
      (pending : child.childPipe = item :: rest) :
      ∀ other ∈ rest, other ∈ child.childPipe := by
    intro other member
    rw [pending]
    exact List.mem_cons_of_mem _ member
  cases rule with
  | readKilled _ pending _ nonzero =>
      refine absurd (.inr ⟨_, ?_, nonzero⟩) before.notKilled
      rw [pending]
      exact List.mem_cons_self
  | @readExited _ rest control pending exited =>
      simp only [control] at current
      refine move rfl ?_ [] (by simp) ⟨rfl, rfl⟩ ⟨current.1, current.2.1 exited⟩
      intro word member
      rw [pending]
      exact List.mem_cons_of_mem _ member
  | readResume control pending lives =>
      simp only [control] at current
      refine move rfl ?_ [] (by simp) ⟨rfl, rfl⟩ ⟨current.1, current.2.2 lives⟩
      intro word member
      rw [pending]
      exact List.mem_cons_of_mem _ member
  | reapKilled control _ _ => simp only [control] at current
  | waitFails control gone => exact (before.inv.children.current.not_gone control gone).elim
  | fork pid control positive fresh =>
      simp only [control] at current
      refine move rfl (fun _ member => member) [.fork pid, .start pid state.parent.requests]
        (by simp) ⟨rfl, rfl⟩ ?_
      refine ⟨_, Function.update_self _ _ _, .executing ?_ rfl (by simp [Child.forked]) ?_ ?_⟩
      · change (finished (state.log ++ [.fork pid] ++ [.start pid _])).length =
          state.parent.requests
        simpa only [finished_append, finished_singleton, Event.finished?, Option.toList_none,
          List.append_nil] using current.1
      · exact current.2.symm
      · simp [Unreported, Child.forked]
  | forkFails _ => exact move rfl (fun _ member => member) [] (by simp) ⟨rfl, rfl⟩ trivial
  | @resume child control found alive =>
      have idle : Idle child := by
        have was := before.inv.children.current
        unfold CurrentChild at was
        simp only [control] at was
        obtain ⟨_, other, same, idle, _⟩ := was
        rw [found, Option.some.injEq] at same
        exact same ▸ idle
      simp only [control] at current
      obtain ⟨count, other, same, _, index⟩ := current
      rw [found, Option.some.injEq] at same
      subst same
      refine move rfl (fun _ member => member) [.sendNext _] rfl ⟨rfl, rfl⟩ ?_
      refine ⟨_, Function.update_self _ _ _, .executing ?_ alive ?_ index ?_⟩
      · simpa using count
      · simp [idle.waiting]
      · simp [Unreported, idle.childPipe]
  | resumeFails control found dead =>
      simp only [control] at current
      obtain ⟨_, other, same, alive, _⟩ := current
      rw [found, Option.some.injEq] at same
      exact absurd (same ▸ alive) dead
  | writePid control =>
      simp only [control] at current
      refine move rfl (fun _ member => member) [.writePid _] rfl ⟨rfl, rfl⟩ ?_
      simpa [CurrentRound] using current
  | @receive child ret run rest control found pending final =>
      simp only [control] at current
      have phase := State.child_of_found found current
      have member : ChildItem.msg ret run ∈ child.childPipe := by
        rw [pending]
        exact List.mem_cons_self
      have notTsl : ret ≠ .tslRequest := by rcases final with rfl | rfl <;> simp
      have notExited : ret ≠ .exited := by rcases final with rfl | rfl <;> simp
      refine move rfl (fun _ member => member) [] (by simp) ⟨rfl, rfl⟩ ?_
      cases phase with
      | executing _ _ _ _ unreported => exact absurd (unreported ret run member) notTsl
      | asking _ _ _ _ _ _ _ unreported => exact absurd (unreported ret run member) notTsl
      | exited _ _ _ _ unreported => exact absurd (unreported ret run member) notTsl
      | reported round ended alive _ _ index inside own =>
          have told := (own ret run member).resolve_left notTsl
          have again : state.parent.requests % ucafl.persistentIters + 1 <
              ucafl.persistentIters := index ▸ inside
          refine ⟨⟨round, ended, ?_⟩, fun exited => absurd exited notExited, fun _ => ?_⟩
          · change (Report.message state.parent.childPid run ret).status =
              ucafl.relayed state.parent.requests round
            rw [told, Report.status_childRet, UCAFL.relayed, if_pos again]
          · exact ⟨_, Function.update_self _ _ _, alive, index, inside⟩
  | receiveTsl control found pending =>
      simp only [control] at current
      have phase := State.child_of_found found current
      exact move rfl (fun _ member => member) [] (by simp) ⟨rfl, rfl⟩
        ⟨_, Function.update_self _ _ _, phase.consume (consumed pending)⟩
  | receiveOther control found pending =>
      simp only [control] at current
      have phase := State.child_of_found found current
      refine move rfl (fun _ member => member) [] (by simp) ⟨rfl, rfl⟩ ?_
      unfold CurrentRound
      simp only [State.setChild_parent, control]
      exact ⟨_, Function.update_self _ _ _, phase.consume (consumed pending)⟩
  | receivePc control found pending =>
      simp only [control] at current
      have phase := State.child_of_found found current
      exact move rfl (fun _ member => member) [] (by simp) ⟨rfl, rfl⟩
        ⟨_, Function.update_self _ _ _, phase.consume (consumed pending)⟩
  | @childExited child control found drained dead =>
      have phase : Phase ucafl state.parent.requests (finished state.log) child := by
        cases handling : state.parent.pc with
        | handleRequests =>
            simp only [handling] at current
            exact State.child_of_found found current
        | handlePc =>
            simp only [handling] at current
            exact State.child_of_found found current
        | _ => simp [ParentPc.Handling, handling] at control
      refine move rfl (fun _ member => member) [] (by simp [State.childExited]) ⟨rfl, rfl⟩ ?_
      cases phase with
      | executing _ alive _ _ _ => exact absurd alive dead
      | asking _ _ alive _ _ _ _ _ => exact absurd alive dead
      | reported _ _ alive _ _ _ _ _ => exact absurd alive dead
      | exited round ended zombie last _ => exact ⟨last, ⟨round, ended⟩, child, found, zombie⟩
  | @reapExited child status control found zombie =>
      have exited : state.parent.childRet = .exited := by
        have was := before.inv.children.current
        unfold CurrentChild at was
        simp only [control] at was
        exact was.1
      simp only [control] at current
      obtain ⟨last, ⟨round, ended⟩, other, same, ended0⟩ := current
      rw [found, Option.some.injEq] at same
      subst same
      rw [zombie, Life.zombie.injEq] at ended0
      refine move rfl (fun _ member => member) [.reap _] rfl ⟨rfl, rfl⟩ ?_
      refine ⟨⟨round, by simpa using ended, ?_⟩, fun _ => last, fun lives => absurd exited lives⟩
      change status = ucafl.relayed state.parent.requests round
      rw [ended0, UCAFL.relayed, if_neg (by omega)]
  | @writeStatus report control =>
      simp only [control] at current
      obtain ⟨⟨round, ended, same⟩, exited, lives⟩ := current
      have served := before.inv.service.served
      refine ⟨inv, before.notKilled, ?_, ?_⟩
      · intro k other found
        simp only [State.record_log, reports_append, reports_singleton, Event.report?,
          Option.toList_some, finished_append, finished_singleton, Event.finished?,
          Option.toList_none, List.append_nil] at found ⊢
        by_cases old : k < (reports state.log).length
        · rw [List.getElem?_append_left old] at found
          exact before.relayed k other found
        · have isNew : k = state.parent.requests := by
            have inside := (List.getElem?_eq_some_iff.mp found).1
            simp only [List.length_append, List.length_singleton] at inside
            omega
          subst isNew
          rw [List.getElem?_append_right (by omega), served] at found
          simp only [Nat.sub_self, List.getElem?_cons_zero, Option.some.injEq] at found
          exact ⟨round, ended.outcome, found ▸ same⟩
      · refine ⟨by simpa using ended.count, ?_, ?_⟩
        · intro now
          exact succ_mod_of_last (exited now)
        · intro now
          obtain ⟨child, found, alive, index, inside⟩ := lives now
          refine ⟨child, found, alive, ?_⟩
          exact index.trans (succ_mod_of_lt (index ▸ inside)).symm

theorem ReportInv.child {ucafl : UCAFL} (several : 2 ≤ ucafl.persistentIters)
    {state next : State} {pid : Pid} {action : ChildAction} (before : ReportInv ucafl state)
    (undisturbed : (Action.child pid action).Undisturbed)
    (stepped : ucafl.step state (.child pid action) = some next) : ReportInv ucafl next := by
  have inv : Inv next := (UCAFL.step_transition stepped).inv before.inv
  obtain ⟨child, after, events, found, alive, rule, kept, rfl⟩ := UCAFL.step_child stepped
  have kept : events ≠ [] ∨ after.life = child.life := by
    rcases kept with ⟨status, rfl⟩ | kept
    · exact undisturbed.elim
    · exact kept
  obtain ⟨rfl, serving⟩ := before.inv.children.stepping found alive rule
  have reported : reports (state.log ++ events) = reports state.log := by
    simp [rule.events.2.1]
  have carryOn {expect : Bool} (inRun : InRun state.parent.requests expect child)
      (current : ∃ child, state.children state.parent.childPid = some child ∧
        Phase ucafl state.parent.requests (finished state.log) child) :
      ∃ child, Function.update state.children state.parent.childPid (some after)
          state.parent.childPid = some child ∧
        Phase ucafl state.parent.requests (finished (state.log ++ events)) child := by
    have phase := State.child_of_found found current
    rw [finished_append]
    exact ⟨after, Function.update_self _ _ _, phase.step several inRun alive rule kept⟩
  refine ⟨inv, before.notKilled, ?_, ?_⟩
  · intro k report isReport
    change (reports (state.log ++ events))[k]? = some report at isReport
    rw [reported] at isReport
    obtain ⟨round, outcome, same⟩ := before.relayed k report isReport
    have inside := (List.getElem?_eq_some_iff.mp outcome).1
    refine ⟨round, ?_, same⟩
    change (finished (state.log ++ events))[k]? = some (k, round)
    rw [finished_append, List.getElem?_append_left inside]
    exact outcome
  · have current := before.current
    unfold CurrentRound at current ⊢
    simp only [State.childStep, State.setChild_parent, State.setChild_children] at current ⊢
    rcases serving with ⟨control, inRun⟩ | ⟨control, inRun⟩ | ⟨control, inRun⟩
    · simp only [control] at current ⊢
      exact carryOn inRun current
    · simp only [control] at current ⊢
      exact carryOn inRun current
    · simp only [control] at current ⊢
      exact carryOn inRun current

theorem reportInv_initial (ucafl : UCAFL) : ReportInv ucafl .initial := by
  refine ⟨inv_initial, by simp [KillPending, State.initial], ?_, ?_⟩
  · simp [State.initial, reports]
  · exact ⟨rfl, fun _ => Nat.zero_mod _, fun lives => absurd rfl lives⟩

theorem reportInv_of_run {ucafl : UCAFL} (several : 2 ≤ ucafl.persistentIters)
    {actions : List Action} {state : State}
    (undisturbed : ∀ action ∈ actions, action.Undisturbed)
    (ran : ucafl.forkserver.run actions = some state) : ReportInv ucafl state := by
  refine ucafl.forkserver.run_invariant_of_allowed Action.Undisturbed (ReportInv ucafl)
    (reportInv_initial ucafl) ?_ undisturbed ran
  intro state action next before allowed stepped
  cases action with
  | afl action => exact before.afl allowed stepped
  | parent action => exact (fksrvStart_transition stepped).reportInv before
  | child pid action => exact before.child several allowed stepped

/-- Every status that AFL has read is the relayed status of a round. -/
theorem ReportInv.heard {ucafl : UCAFL} {state : State} (inv : ReportInv ucafl state)
    {k status : Nat} (heard : (heardStatuses state.log)[k]? = some status) :
    ∃ round, (finished state.log)[k]? = some (k, round) ∧ status = ucafl.relayed k round := by
  have written := inv.inv.conversation.heard.2
  have isStatus : ((reports state.log).map Report.status)[k]? = some status := by
    obtain ⟨unread, split⟩ := written
    rw [← split, List.getElem?_append_left (List.getElem?_eq_some_iff.mp heard).1]
    exact heard
  rw [List.getElem?_map] at isStatus
  obtain ⟨report, isReport, same⟩ := Option.map_eq_some_iff.mp isStatus
  obtain ⟨round, outcome, relayed⟩ := inv.relayed k report isReport
  exact ⟨round, outcome, same ▸ relayed⟩

/-- AFL gets the crashes of a run right exactly as long as no child crashes in
the last round of its life: `crash_found` is set there, but the loop ends and
the child leaves through `exit(0)`. -/
theorem crashesReported_iff_lastRoundsClean {ucafl : UCAFL} (several : 2 ≤ ucafl.persistentIters)
    {actions : List Action} {state : State}
    (undisturbed : ∀ action ∈ actions, action.Undisturbed)
    (ran : ucafl.forkserver.run actions = some state) :
    CrashesReported ucafl state.log ↔ LastRoundsClean ucafl state.log := by
  have inv := reportInv_of_run several undisturbed ran
  constructor
  · intro reported k round inside outcome last
    obtain ⟨round', outcome', same⟩ := reported k _ (List.getElem?_eq_getElem inside)
    obtain ⟨round'', outcome'', relayed⟩ := inv.heard (List.getElem?_eq_getElem inside)
    rw [outcome, Option.some.injEq, Prod.mk.injEq] at outcome' outcome''
    rw [← outcome'.2, relayed, ← outcome''.2] at same
    exact (ucafl.wifsignaled_relayed several k round).mp same last
  · intro clean k status heard
    obtain ⟨round, outcome, rfl⟩ := inv.heard heard
    have inside := (List.getElem?_eq_some_iff.mp heard).1
    exact ⟨round, outcome, (ucafl.wifsignaled_relayed several k round).mpr
      (clean k round inside outcome)⟩

/-! ## A crash in the last round -/

def persistTwice : UCAFL := ⟨2, false, false⟩

def normalRound : Round := ⟨true, ucErrOk, false⟩

def crashRound : Round := ⟨true, 6, false⟩

def twoRounds (first second : Round) : List Action :=
  [.afl .request, .parent .proceed, .parent (.fork 7), .parent .proceed, .afl .readPid,
    .child 7 (.finish first), .child 7 .ask, .parent .proceed, .parent .proceed,
    .afl .readStatus, .afl .request, .parent .proceed, .parent .proceed, .parent .proceed,
    .afl .readPid, .child 7 .resume, .child 7 (.finish second), .parent .proceed,
    .parent .proceed, .parent .proceed, .afl .readStatus]

theorem twoRounds_undisturbed (first second : Round) :
    ∀ action ∈ twoRounds first second, action.Undisturbed := by
  simp [twoRounds, Action.Undisturbed]

theorem lastRoundCrash_hidden :
    ¬ ∀ (ucafl : UCAFL) (actions : List Action) (state : State), 2 ≤ ucafl.persistentIters →
      (∀ action ∈ actions, action.Undisturbed) → ucafl.forkserver.run actions = some state →
      CrashesReported ucafl state.log := by
  intro claim
  have ended : (persistTwice.forkserver.run (twoRounds normalRound crashRound)).map
      (fun state => (heardStatuses state.log, finished state.log)) =
        some ([0, 0], [(0, normalRound), (1, crashRound)]) := rfl
  obtain ⟨state, ran, logged⟩ := Option.map_eq_some_iff.mp ended
  simp only [Prod.mk.injEq] at logged
  obtain ⟨round, outcome, same⟩ := claim persistTwice _ state (by decide)
    (twoRounds_undisturbed normalRound crashRound) ran 1 0 (by simp [logged.1])
  simp only [logged.2, List.getElem?_cons_succ, List.getElem?_cons_zero, Option.some.injEq,
    Prod.mk.injEq, true_and] at outcome
  subst outcome
  exact absurd same (by decide)

theorem crashesReported_iff_lastRoundsClean_twoRounds :
    ∃ state, persistTwice.forkserver.run (twoRounds crashRound normalRound) = some state ∧
      (CrashesReported persistTwice state.log ↔ LastRoundsClean persistTwice state.log) := by
  have enabled : (persistTwice.forkserver.run (twoRounds crashRound normalRound)).isSome := rfl
  obtain ⟨state, ran⟩ := Option.isSome_iff_exists.mp enabled
  exact ⟨state, ran, crashesReported_iff_lastRoundsClean (by decide)
    (twoRounds_undisturbed crashRound normalRound) ran⟩

end SbFuzz.Unicornafl
