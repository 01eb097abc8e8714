import Mathlib.Data.List.Nodup
import SbFuzz.Memory.ElementPool
import SbFuzz.Systems.Rings

/-! The list of `list.h` holds what was appended to it and not removed, in this order. -/

set_option autoImplicit false

namespace SbFuzz.Memory.ElementList

open Function (update)
open Systems (Ring Path)

/-- The elements behind the head, which the pool takes for in use, as it does the head. -/
structure Holds (st : State) (boxes : List Pointer) : Prop where
  ring : Ring st.next st.prev head boxes
  pool : Pool st (head :: boxes)

namespace Holds

variable {st : State} {box : Pointer} {boxes front back : List Pointer}

theorem next_head (holds : Holds st boxes) : st.next head ≠ none := by
  rw [holds.ring.next_head]
  exact Option.some_ne_none _

theorem initialized_eq (holds : Holds st boxes) : initialized st = .ok st :=
  if_neg holds.next_head

/-- The first `list_append` finds an empty list. -/
theorem ofZeroed : ∃ st, initialized zeroed = .ok st ∧ Holds st [] := by
  refine ⟨_, rfl, ?_, ?_⟩
  · exact Ring.empty (by simp) (by simp)
  · refine ⟨List.nodup_singleton head, fun index => ?_, ?_, ?_, rfl⟩
    · by_cases same : Pointer.buf index = head
      · simp [same]
      · simp [same, memset, zeroBuf]
    · simp [head]
    · simp [head, memset, zeroed]

/-! ## Append -/

theorem link_ok (ring : Ring st.next st.prev head boxes) (pool : Pool st (box :: head :: boxes))
    (el : Nat) :
    ∃ after, link st box el = .ok after ∧ Holds after (boxes ++ [box]) ∧
      after.data = update st.data box el := by
  have fresh : box ∉ head :: boxes := (List.nodup_cons.mp pool.nodup).1
  have different : head ≠ box := fun same => fresh (same ▸ List.mem_cons_self)
  have last : boxes.getLastD head ∈ box :: head :: boxes :=
    List.mem_cons_of_mem _ (Path.getLastD_mem head boxes)
  have linked : link st box el = .ok { st with
      data := update st.data box el
      next := update (update st.next box (some head)) (boxes.getLastD head) (some box)
      prev := update (update st.prev box (some (boxes.getLastD head))) head (some box) } := by
    simp only [link, ring.prev_head, Function.update_of_ne different, pool.deref_eq last]
    rfl
  refine ⟨_, linked, ⟨ring.snoc fresh, ?_⟩, rfl⟩
  have moved : (box :: head :: boxes).Perm (head :: (boxes ++ [box])) :=
    (List.Perm.swap head box boxes).trans ((List.perm_append_singleton box boxes).symm.cons head)
  exact (pool.perm moved).congr rfl rfl rfl

/-- `list_append` puts the data behind the others, unless `malloc` has no element for it. -/
theorem append_cases {ready : State} (malloc : Malloc) (isReady : initialized st = .ok ready)
    (holds : Holds ready boxes) (el : Nat) :
    (listAppend malloc st el = .error .outOfMemory ∧
        ∃ call allocated, malloc.answer call allocated = none) ∨
      ∃ after others, listAppend malloc st el = .ok after ∧ Holds after others ∧
        others.map after.data = boxes.map ready.data ++ [el] := by
  rw [listAppend, isReady]
  rcases holds.pool.preAlloc_cases malloc with
    ⟨refused, noAnswer⟩ | ⟨box, taken, handed, fresh, pool, same⟩
  · refine .inl ⟨?_, _, _, noAnswer⟩
    simp only [bind, Except.bind, refused]
  · have ring : Ring taken.next taken.prev head boxes := by
      rw [same.next, same.prev]
      exact holds.ring
    obtain ⟨after, linked, holdsAfter, data⟩ := link_ok ring pool el
    refine .inr ⟨after, _, ?_, holdsAfter, ?_⟩
    · simp only [bind, Except.bind, handed, linked]
    · have absent : box ∉ boxes := fun member => fresh (List.mem_cons_of_mem _ member)
      rw [data, same.data, List.map_append, List.map_singleton, ring.nodup.of_cons.map_update,
        if_neg absent, Function.update_self]

/-! ## Removal -/

theorem unlink_ok (holds : Holds st (front ++ box :: back)) :
    ∃ after, unlink st box (st.next box) = .ok after ∧
      Ring after.next after.prev head (front ++ back) ∧
      Pool after (box :: head :: (front ++ back)) ∧ after.data = st.data := by
  have next := holds.ring.next_node
  have prev := holds.ring.prev_node
  have inFront : front.getLastD head ∈ head :: (front ++ box :: back) :=
    List.cons_subset_cons _ (List.subset_append_left _ _) (Path.getLastD_mem head front)
  have behind : back.headD head ∈ head :: (front ++ box :: back) := by
    cases back <;> simp
  have different : box ≠ front.getLastD head := by
    intro same
    have nodup := holds.ring.nodup
    rw [← List.cons_append] at nodup
    exact List.disjoint_of_nodup_append nodup (Path.getLastD_mem head front)
      (same ▸ List.mem_cons_self)
  have unlinked : unlink st box (st.next box) = .ok { st with
      next := update st.next (front.getLastD head) (st.next box)
      prev := update st.prev (back.headD head) (st.prev box) } := by
    rw [unlink, prev, holds.pool.deref_eq inFront rfl]
    simp only [bind, Except.bind, Function.update_of_ne different, next,
      holds.pool.deref_eq behind, prev]
    rfl
  refine ⟨_, unlinked, holds.ring.remove, ?_, rfl⟩
  have moved : (head :: (front ++ box :: back)).Perm (box :: head :: (front ++ back)) :=
    (List.perm_middle.cons head).trans (List.Perm.swap box head _)
  exact (holds.pool.perm moved).congr rfl rfl rfl

/-- An element that is out of the ring goes back to the pool. -/
theorem free_ok (ring : Ring st.next st.prev head boxes) (pool : Pool st (box :: head :: boxes)) :
    ∃ after, preFree st box = .ok after ∧ Holds after boxes ∧ after.data = st.data := by
  obtain ⟨after, freed, poolAfter, same⟩ := pool.preFree_ok
  refine ⟨after, freed, ⟨?_, poolAfter⟩, same.data⟩
  rw [same.next, same.prev]
  exact ring

theorem removeCurrent_ok (holds : Holds st (front ++ box :: back)) :
    ∃ after, removeCurrent st box (st.next box) = .ok after ∧ Holds after (front ++ back) ∧
      after.data = st.data := by
  obtain ⟨out, unlinked, ring, pool, data⟩ := holds.unlink_ok
  obtain ⟨after, freed, holdsAfter, dataAfter⟩ := free_ok ring pool
  refine ⟨after, ?_, holdsAfter, dataAfter.trans data⟩
  rw [removeCurrent, unlinked]
  exact freed

theorem ne_head (holds : Holds st (front ++ box :: back)) : box ≠ head := by
  rintro rfl
  exact (List.nodup_cons.mp holds.ring.nodup).1 (by simp)

theorem deref_visited (holds : Holds st (front ++ box :: back)) :
    deref st (some box) = .ok box :=
  holds.pool.deref_eq (by simp) rfl

end Holds

/-! ## What the list is for -/

variable {σ : Type}

/-- The data in order, of a list that was initialized. -/
abbrev Contents := Option (List Nat)

namespace Contents

/-- The loop over the data, and what it leaves of them. -/
def visit (block : Block σ) : σ → List Nat → σ × List Nat
  | vars, [] => (vars, [])
  | vars, el :: els =>
      let (vars, reaction) := block vars el
      let (vars, rest) := if reaction.leaves then (vars, els) else visit block vars els
      (vars, if reaction.removes then rest else el :: rest)

def step : Contents → Op σ → Option (Contents × Answer σ)
  | contents, .append el => some (some (contents.getD [] ++ [el]), .done)
  | none, _ => none
  | some els, .remove removeMe =>
      if removeMe ∈ els then some (some (els.erase removeMe), .done) else none
  | some els, .foreach block vars =>
      some (some (visit block vars els).2, .vars (visit block vars els).1)
  | some els, .contains containsMe => some (some els, .found (decide (containsMe ∈ els)))

def run (contents : Contents) : List (Op σ) → Option (Contents × List (Answer σ))
  | [] => some (contents, [])
  | op :: ops => do
      let (contents, answer) ← contents.step op
      let (contents, answers) ← contents.run ops
      return (contents, answer :: answers)

end Contents

/-! ## The loops -/

namespace Holds

variable {st : State} {rest front : List Pointer} {fuel : Nat}

/-- A loop at the first element that was not visited. Those before it stay. -/
theorem foreachLoop_ok (block : Block σ) (vars : σ) (holds : Holds st (front ++ rest))
    (enough : rest.length < fuel) :
    ∃ after others,
      foreachLoop block fuel st (some (rest.headD head)) vars =
        .ok (after, (Contents.visit block vars (rest.map st.data)).1) ∧
      Holds after (front ++ others) ∧ after.data = st.data ∧
      others.map st.data = (Contents.visit block vars (rest.map st.data)).2 := by
  induction rest generalizing fuel st front vars with
  | nil =>
      obtain ⟨fuel, rfl⟩ := Nat.exists_eq_succ_of_ne_zero (Nat.ne_of_gt enough)
      exact ⟨st, [], if_pos rfl, holds, rfl, rfl⟩
  | cons box back ih =>
      obtain ⟨fuel, rfl⟩ := Nat.exists_eq_succ_of_ne_zero (Nat.ne_of_gt (Nat.zero_lt_of_lt enough))
      have inside : some box ≠ some head := fun same => holds.ne_head (Option.some.inj same)
      rw [List.length_cons, Nat.succ_lt_succ_iff] at enough
      simp only [List.headD_cons, foreachLoop, inside, if_false, holds.deref_visited, bind,
        Except.bind, List.map_cons, Contents.visit]
      generalize block vars (st.data box) = reacted
      obtain ⟨vars, removes, leaves⟩ := reacted
      have next := holds.ring.next_node
      -- What follows the block, whether the element is still there or not.
      have continued {mid : State} {before : List Pointer} (holdsMid : Holds mid (before ++ back))
          (data : mid.data = st.data) :
          ∃ after others,
            (if leaves then .ok (mid, vars)
              else foreachLoop block fuel mid (some (back.headD head)) vars) =
              (.ok (after, (if leaves then (vars, back.map st.data)
                else Contents.visit block vars (back.map st.data)).1) : Except Stop (State × σ)) ∧
            Holds after (before ++ others) ∧ after.data = st.data ∧
            others.map st.data = (if leaves then (vars, back.map st.data)
              else Contents.visit block vars (back.map st.data)).2 := by
        cases leaves with
        | true => exact ⟨mid, back, rfl, holdsMid, data, rfl⟩
        | false =>
            rw [← data]
            exact ih vars holdsMid enough
      cases removes with
      | true =>
          obtain ⟨mid, removed, holdsMid, data⟩ := holds.removeCurrent_ok
          obtain ⟨after, others, result, holdsAfter, same, left⟩ := continued holdsMid data
          refine ⟨after, others, ?_, holdsAfter, same, left⟩
          simp only [removed, if_true]
          rw [next]
          exact result
      | false =>
          have shifted : Holds st ((front ++ [box]) ++ back) := by
            rw [List.append_assoc]
            exact holds
          obtain ⟨after, others, result, holdsAfter, same, left⟩ := continued shifted rfl
          refine ⟨after, box :: others, ?_, ?_, same, ?_⟩
          · rw [next]
            exact result
          · rw [List.append_assoc] at holdsAfter
            exact holdsAfter
          · rw [List.map_cons, left]
            rfl

/-- One round of the loop of `list_remove`. -/
theorem removeLoop_cons {box : Pointer} {back : List Pointer} (removeMe : Nat)
    (holds : Holds st (front ++ box :: back)) :
    removeLoop removeMe (fuel + 1) st (some box) =
      if st.data box = removeMe then do
        let out ← unlink st box (st.next box)
        preFree { out with data := update out.data box 0 } box
      else removeLoop removeMe fuel st (some (back.headD head)) := by
  have inside : some box ≠ some head := fun same => holds.ne_head (Option.some.inj same)
  rw [removeLoop, if_neg inside, holds.deref_visited, ← holds.ring.next_node]
  rfl

theorem removeLoop_absent {removeMe : Nat} (holds : Holds st (front ++ rest))
    (absent : removeMe ∉ rest.map st.data) (enough : rest.length < fuel) :
    removeLoop removeMe fuel st (some (rest.headD head)) = .error .notInList := by
  induction rest generalizing fuel front with
  | nil =>
      obtain ⟨fuel, rfl⟩ := Nat.exists_eq_succ_of_ne_zero (Nat.ne_of_gt enough)
      exact if_pos rfl
  | cons box back ih =>
      obtain ⟨fuel, rfl⟩ := Nat.exists_eq_succ_of_ne_zero (Nat.ne_of_gt (Nat.zero_lt_of_lt enough))
      rw [List.length_cons, Nat.succ_lt_succ_iff] at enough
      rw [List.map_cons, List.mem_cons, not_or] at absent
      rw [List.headD_cons, removeLoop_cons removeMe holds, if_neg (Ne.symm absent.1)]
      exact ih (List.append_cons front box back ▸ holds) absent.2 enough

/-- The first element with the data is the one that is removed. -/
theorem removeLoop_ok {removeMe : Nat} (holds : Holds st (front ++ rest))
    (present : removeMe ∈ rest.map st.data) (enough : rest.length < fuel) :
    ∃ after others,
      removeLoop removeMe fuel st (some (rest.headD head)) = .ok after ∧ Holds after others ∧
      others.map after.data = front.map st.data ++ (rest.map st.data).erase removeMe := by
  induction rest generalizing fuel front with
  | nil => cases present
  | cons box back ih =>
      obtain ⟨fuel, rfl⟩ := Nat.exists_eq_succ_of_ne_zero (Nat.ne_of_gt (Nat.zero_lt_of_lt enough))
      rw [List.length_cons, Nat.succ_lt_succ_iff] at enough
      rw [List.headD_cons, removeLoop_cons removeMe holds]
      by_cases found : st.data box = removeMe
      · obtain ⟨out, unlinked, ring, pool, data⟩ := holds.unlink_ok
        let cleared : State := { out with data := update out.data box 0 }
        have ringCleared : Ring cleared.next cleared.prev head (front ++ back) := ring
        have poolCleared : Pool cleared (box :: head :: (front ++ back)) := pool.congr rfl rfl rfl
        obtain ⟨after, freed, holdsAfter, dataAfter⟩ := free_ok ringCleared poolCleared
        refine ⟨after, front ++ back, ?_, holdsAfter, ?_⟩
        · rw [if_pos found, unlinked]
          exact freed
        · have absent : box ∉ front ++ back := by
            intro member
            exact (List.nodup_cons.mp pool.nodup).1 (List.mem_cons_of_mem _ member)
          have kept : (front ++ back).map after.data = (front ++ back).map st.data := by
            rw [dataAfter, ring.nodup.of_cons.map_update, if_neg absent, data]
          rw [kept, List.map_append, List.map_cons, found, List.erase_cons_head]
      · have later : removeMe ∈ back.map st.data := by
          rw [List.map_cons, List.mem_cons] at present
          exact present.resolve_left (Ne.symm found)
        obtain ⟨after, others, removed, holdsAfter, left⟩ :=
          ih (List.append_cons front box back ▸ holds) later enough
        refine ⟨after, others, ?_, holdsAfter, ?_⟩
        · rw [if_neg found]
          exact removed
        · rw [left, List.map_append, List.map_singleton, List.append_assoc, List.singleton_append,
            List.map_cons, List.erase_cons_tail (by simpa using found)]

end Holds

/-! ## Every sequence of operations -/

/-- The memory of the list and what the list is for, with the elements in use. -/
inductive Refines : State → Contents → List Pointer → Prop
  | unused : Refines zeroed none []
  | list {st : State} {boxes : List Pointer} (holds : Holds st boxes) :
      Refines st (some (boxes.map st.data)) (head :: boxes)

/-- Both go on with the same answer, or both stop, unless there is no memory for an element. -/
inductive Agrees (malloc : Malloc) {α : Type} :
    Except Stop (State × α) → Option (Contents × α) → Prop
  | ok {st : State} {contents : Contents} {live : List Pointer} {answer : α}
      (refines : Refines st contents live) :
      Agrees malloc (.ok (st, answer)) (some (contents, answer))
  | fatal {stop : Stop} (message : stop = .uninitialized ∨ stop = .notInList) :
      Agrees malloc (.error stop) none
  | outOfMemory {call : Nat} {allocated : List Nat} {expected : Option (Contents × α)}
      (noAnswer : malloc.answer call allocated = none) :
      Agrees malloc (.error .outOfMemory) expected

theorem Agrees.bind {malloc : Malloc} {α β : Type} {result : Except Stop (State × α)}
    {expected : Option (Contents × α)} {next : State × α → Except Stop (State × β)}
    {nextExpected : Contents × α → Option (Contents × β)} (agrees : Agrees malloc result expected)
    (rest : ∀ st contents live answer, expected = some (contents, answer) →
      Refines st contents live →
        Agrees malloc (next (st, answer)) (nextExpected (contents, answer))) :
    Agrees malloc (result >>= next) (expected >>= nextExpected) := by
  cases agrees with
  | ok refines => exact rest _ _ _ _ rfl refines
  | fatal message => exact .fatal message
  | outOfMemory noAnswer => exact .outOfMemory noAnswer

variable {st : State} {contents others : Contents} {live : List Pointer} {fuel : Nat}

namespace Contents

theorem visit_length (block : Block σ) (vars : σ) (els : List Nat) :
    (visit block vars els).2.length ≤ els.length := by
  induction els generalizing vars with
  | nil => exact Nat.le_refl 0
  | cons el els ih =>
      have shorter := ih (block vars el).1
      simp only [visit]
      split <;> split <;> simp <;> omega

theorem step_length {op : Op σ} {answer : Answer σ}
    (stepped : contents.step op = some (others, answer)) :
    (others.getD []).length ≤ (contents.getD []).length + 1 := by
  cases op with
  | append el =>
      cases stepped
      simp
  | remove removeMe =>
      cases contents with
      | none => cases stepped
      | some els =>
          simp only [step] at stepped
          split at stepped
          · cases stepped
            exact (List.length_erase_le).trans (Nat.le_succ _)
          · cases stepped
  | foreach block vars =>
      cases contents with
      | none => cases stepped
      | some els =>
          cases stepped
          exact (visit_length block vars els).trans (Nat.le_succ _)
  | contains containsMe =>
      cases contents with
      | none => cases stepped
      | some els =>
          cases stepped
          exact Nat.le_succ _

/-- The loop of `list_contains` leaves the list as it is. -/
theorem visit_contains (containsMe : Nat) (els : List Nat) :
    visit (fun _ el => (decide (el = containsMe), ⟨false, decide (el = containsMe)⟩)) false els =
      (decide (containsMe ∈ els), els) := by
  induction els with
  | nil => simp [visit]
  | cons el els ih =>
      by_cases found : el = containsMe
      · simp [visit, found]
      · simp [visit, found, ih, Ne.symm found]

end Contents

theorem append_agrees (malloc : Malloc) (el : Nat) (refines : Refines st contents live) :
    Agrees malloc (step malloc fuel st (.append el : Op σ)) (contents.step (.append el)) := by
  obtain ⟨ready, boxes, isReady, holds, data⟩ :
      ∃ ready boxes, initialized st = .ok ready ∧ Holds ready boxes ∧
        boxes.map ready.data = contents.getD [] := by
    cases refines with
    | unused =>
        obtain ⟨ready, isReady, holds⟩ := Holds.ofZeroed
        exact ⟨ready, [], isReady, holds, rfl⟩
    | list holds => exact ⟨_, _, holds.initialized_eq, holds, rfl⟩
  rcases Holds.append_cases malloc isReady holds el with
    ⟨refused, call, allocated, noAnswer⟩ | ⟨after, others, appended, holdsAfter, dataAfter⟩
  · simp only [step, refused]
    exact .outOfMemory noAnswer
  · simp only [step, appended, Contents.step, ← data, ← dataAfter]
    exact .ok (.list holdsAfter)

theorem foreach_ok {boxes : List Pointer} (block : Block σ) (vars : σ) (holds : Holds st boxes)
    (enough : boxes.length < fuel) :
    ∃ after others,
      listForeach fuel block st vars =
        .ok (after, (Contents.visit block vars (boxes.map st.data)).1) ∧
      Holds after others ∧
      others.map after.data = (Contents.visit block vars (boxes.map st.data)).2 := by
  have unvisited : Holds st ([] ++ boxes) := holds
  obtain ⟨after, others, result, holdsAfter, same, left⟩ :=
    unvisited.foreachLoop_ok block vars enough
  refine ⟨after, others, ?_, holdsAfter, same ▸ left⟩
  rw [listForeach, if_neg holds.next_head, holds.ring.next_head]
  exact result

theorem contains_ok {boxes : List Pointer} (containsMe : Nat) (holds : Holds st boxes)
    (enough : boxes.length < fuel) :
    ∃ after others,
      listContains fuel st containsMe = .ok (after, decide (containsMe ∈ boxes.map st.data)) ∧
      Holds after others ∧ others.map after.data = boxes.map st.data := by
  obtain ⟨after, others, result, holdsAfter, left⟩ :=
    foreach_ok (fun _ el => (decide (el = containsMe), ⟨false, decide (el = containsMe)⟩)) false
      holds enough
  rw [Contents.visit_contains] at result left
  exact ⟨after, others, result, holdsAfter, left⟩

theorem remove_agrees (malloc : Malloc) (removeMe : Nat) (refines : Refines st contents live)
    (enough : (contents.getD []).length < fuel) :
    Agrees malloc (step malloc fuel st (.remove removeMe : Op σ))
      (contents.step (.remove removeMe)) := by
  cases refines with
  | unused => exact .fatal (.inl rfl)
  | @list _ boxes holds =>
      have unvisited : Holds st ([] ++ boxes) := holds
      rw [Option.getD_some, List.length_map] at enough
      rw [step, listRemove, if_neg holds.next_head, holds.ring.next_head]
      by_cases present : removeMe ∈ boxes.map st.data
      · obtain ⟨after, others, removed, holdsAfter, left⟩ :=
          unvisited.removeLoop_ok present enough
        simp only [removed, Contents.step, if_pos present]
        rw [List.map_nil, List.nil_append] at left
        rw [← left]
        exact .ok (.list holdsAfter)
      · simp only [unvisited.removeLoop_absent present enough, Contents.step, if_neg present]
        exact .fatal (.inr rfl)

theorem step_agrees (malloc : Malloc) (op : Op σ) (refines : Refines st contents live)
    (enough : (contents.getD []).length < fuel) :
    Agrees malloc (step malloc fuel st op) (contents.step op) := by
  cases op with
  | append el => exact append_agrees malloc el refines
  | remove removeMe => exact remove_agrees malloc removeMe refines enough
  | foreach block vars =>
      cases refines with
      | unused => exact .fatal (.inl rfl)
      | list holds =>
          rw [Option.getD_some, List.length_map] at enough
          obtain ⟨after, others, result, holdsAfter, left⟩ := foreach_ok block vars holds enough
          simp only [step, result, Contents.step, ← left]
          exact .ok (.list holdsAfter)
  | contains containsMe =>
      cases refines with
      | unused => exact .fatal (.inl rfl)
      | list holds =>
          rw [Option.getD_some, List.length_map] at enough
          obtain ⟨after, others, result, holdsAfter, left⟩ := contains_ok containsMe holds enough
          simp only [step, result, Contents.step, ← left]
          exact .ok (.list holdsAfter)

theorem run_agrees (malloc : Malloc) (ops : List (Op σ)) (refines : Refines st contents live)
    (enough : (contents.getD []).length + ops.length < fuel) :
    Agrees malloc (run malloc fuel st ops) (contents.run ops) := by
  induction ops generalizing st contents live with
  | nil => exact .ok refines
  | cons op ops ih =>
      rw [List.length_cons] at enough
      have fits : (contents.getD []).length < fuel := by omega
      have stepAgrees := step_agrees malloc op refines fits
      refine stepAgrees.bind fun after others now answer stepped held => ?_
      have grown := Contents.step_length stepped
      have rest := ih held (by omega)
      exact rest.bind fun _ _ _ _ _ refinesLast => .ok refinesLast

/-- An element that `list_append` takes is none of those in use, also where it initializes the
list. -/
theorem Refines.handed_out {malloc : Malloc} {ready after : State} {box : Pointer}
    (refines : Refines st contents live) (isReady : initialized st = .ok ready)
    (handed : preAlloc malloc ready = .ok (box, after)) : box ∉ head :: live := by
  obtain ⟨inUse, pool, covers⟩ : ∃ inUse, Pool ready inUse ∧ head :: live ⊆ inUse := by
    cases refines with
    | unused =>
        obtain ⟨_, initialized, holds⟩ := Holds.ofZeroed
        cases isReady.symm.trans initialized
        exact ⟨_, holds.pool, List.Subset.refl _⟩
    | list holds =>
        cases isReady.symm.trans holds.initialized_eq
        exact ⟨_, holds.pool, List.cons_subset.mpr ⟨List.mem_cons_self, List.Subset.refl _⟩⟩
  rcases pool.preAlloc_cases malloc with ⟨refused, -⟩ | ⟨_, _, taken, fresh, -, -⟩
  · cases handed.symm.trans refused
  · cases handed.symm.trans taken
    exact fun member => fresh (covers member)

theorem Refines.pool (refines : Refines st contents live) : Pool st live := by
  cases refines with
  | unused => exact ⟨List.nodup_nil, fun _ => rfl, nofun, fun _ => by simp [zeroed], rfl⟩
  | list holds => exact holds.pool

/-- Whatever the operations, `list_remove` and the loops see the data that were appended and not
removed, in order; the pool counts the elements in use, and hands out none of them. -/
theorem run_refines (malloc : Malloc) (ops : List (Op σ)) (spare : Nat) :
    match run malloc (ops.length + 1 + spare) zeroed ops with
    | .ok (st, answers) =>
        ∃ contents live, Contents.run none ops = some (contents, answers) ∧
          Refines st contents live ∧ live.Nodup ∧
          st.elementPreallocCount = live.countP Pointer.isBuf ∧
          ∀ ready box after, initialized st = .ok ready →
            preAlloc malloc ready = .ok (box, after) → box ∉ head :: live
    | .error .outOfMemory => ∃ call allocated, malloc.answer call allocated = none
    | .error stop =>
        (stop = .uninitialized ∨ stop = .notInList) ∧ Contents.run none ops = none := by
  have enough : ((none : Contents).getD []).length + ops.length < ops.length + 1 + spare := by
    rw [Option.getD_none, List.length_nil]
    omega
  have agrees := run_agrees malloc ops .unused enough
  generalize run malloc (ops.length + 1 + spare) zeroed ops = result at agrees ⊢
  generalize Contents.run none ops = expected at agrees ⊢
  cases agrees with
  | @ok st contents live answers refines =>
      exact ⟨contents, live, rfl, refines, refines.pool.nodup, refines.pool.counted,
        fun _ _ _ isReady handed => refines.handed_out isReady handed⟩
  | fatal message =>
      rcases message with rfl | rfl
      · exact ⟨.inl rfl, rfl⟩
      · exact ⟨.inr rfl, rfl⟩
  | outOfMemory noAnswer => exact ⟨_, _, noAnswer⟩

/-- `test_contains`. -/
example (malloc : Malloc) :
    (run malloc 3 zeroed
      [(.append 1 : Op Unit), .contains 1, .contains 2, .remove 1, .contains 1]).map Prod.snd =
        .ok [.done, .found true, .found false, .done, .found false] := rfl

end SbFuzz.Memory.ElementList
