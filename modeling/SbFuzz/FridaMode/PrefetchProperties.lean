import SbFuzz.FridaMode.Prefetch

/-! What the parent reads is what its children completely wrote. -/

set_option autoImplicit false

namespace SbFuzz.FridaMode

open Systems

theorem gsizeSub_of_le {a b : Nat} (less : b ≤ a) (fits : a < 2 ^ 64) : gsizeSub a b = a - b := by
  unfold gsizeSub
  omega

def blocksOf (reports : List Report) : List UInt64 :=
  reports.filterMap fun
    | .block addr => some addr
    | .backpatch _ => none

def backpatchesOf (reports : List Report) : List GumBackpatch :=
  reports.filterMap fun
    | .block _ => none
    | .backpatch backpatch => some backpatch

theorem blocksOf_append (first second : List Report) :
    blocksOf (first ++ second) = blocksOf first ++ blocksOf second :=
  List.filterMap_append

theorem backpatchesOf_append (first second : List Report) :
    backpatchesOf (first ++ second) = backpatchesOf first ++ backpatchesOf second :=
  List.filterMap_append

def entries (backpatches : List GumBackpatch) : List UInt8 :=
  backpatches.flatMap fun backpatch => frame 8 backpatch.bytes

/-- The memory holds the reports that were written, and behind the backpatches at most the
length of one more. -/
structure PrefetchData.Holds (data : PrefetchData) (written : List Report) (torn : List UInt8) :
    Prop where
  blocks : data.blocks.Holds prefetchEntries (blocksOf written)
  backpatches : data.backpatches.Holds bpSize (entries (backpatchesOf written) ++ torn)
  torn : torn.length ≤ 8

theorem PrefetchData.Holds.cleared : PrefetchData.cleared.Holds [] [] where
  blocks := ⟨List.length_replicate, rfl, _, rfl⟩
  backpatches := ⟨List.length_replicate, rfl, _, rfl⟩
  torn := Nat.zero_le 8

/-! ## Writing -/

theorem perform_blocks (data : PrefetchData) (writes : List (Area.Write UInt64)) :
    (writes.map .block).foldl PrefetchData.perform data =
      { data with blocks := data.blocks.performAll writes } := by
  induction writes generalizing data with
  | nil => rfl
  | cons write writes ih => exact ih (data.perform (.block write))

theorem perform_backpatches (data : PrefetchData) (writes : List (Area.Write UInt8)) :
    (writes.map .backpatch).foldl PrefetchData.perform data =
      { data with backpatches := data.backpatches.performAll writes } := by
  induction writes generalizing data with
  | nil => rfl
  | cons write writes ih => exact ih (data.perform (.backpatch write))

variable {gum : Gum} {process : Process} {data : PrefetchData} {written : List Report}

theorem prefetchWrite_cases (process : Process) (data : PrefetchData) (addr : UInt64) :
    prefetchWrite process data addr = [] ∨
      data.blocks.used < prefetchEntries ∧
        prefetchWrite process data addr =
          (Area.appending data.blocks.used [[addr]]).map .block := by
  unfold prefetchWrite
  split
  · exact .inl rfl
  · split
    · exact .inl rfl
    · split
      · exact .inl rfl
      · next room => exact .inr ⟨Nat.lt_of_not_ge room, rfl⟩

theorem backpatcherNotify_cases (gum : Gum) (process : Process) (data : PrefetchData)
    (used : data.backpatches.used ≤ bpSize) (backpatch : GumBackpatch) :
    backpatcherNotify gum process data backpatch = [] ∨
      data.backpatches.used + (8 + backpatch.bytes.length) ≤ bpSize ∧
        backpatcherNotify gum process data backpatch =
          (framing 8 data.backpatches.used backpatch.bytes).map .backpatch := by
  have remaining : gsizeSub bpSize data.backpatches.used = bpSize - data.backpatches.used :=
    gsizeSub_of_le used (by decide)
  have size : gsizeAdd 8 backpatch.bytes.length = 8 + backpatch.bytes.length :=
    Nat.mod_eq_of_lt backpatch.fits
  simp only [backpatcherNotify, remaining, size]
  split
  · exact .inl rfl
  · split
    · exact .inl rfl
    · split
      · exact .inl rfl
      · next room => exact .inr ⟨by omega, rfl⟩

theorem completed_nil (report : Report) (steps : Nat) :
    completed written report [] steps = written := rfl

theorem completed_whole {stores : List Store} {steps : Nat} (begun : 0 < stores.length)
    (whole : stores.length ≤ steps) (report : Report) :
    completed written report stores steps = written ++ [report] := by
  have some : stores.isEmpty = false :=
    List.isEmpty_eq_false_iff.mpr (List.ne_nil_of_length_pos begun)
  rw [completed, some, decide_eq_true whole]
  rfl

theorem completed_stopped {stores : List Store} {steps : Nat} (stopped : steps < stores.length)
    (report : Report) : completed written report stores steps = written := by
  rw [completed, decide_eq_false (Nat.not_le_of_lt stopped), Bool.and_false]
  rfl

theorem PrefetchData.Holds.prefetchWrite (holds : data.Holds written []) (addr : UInt64)
    (steps : Nat) :
    let stores := prefetchWrite process data addr
    ((stores.take steps).foldl PrefetchData.perform data).Holds
      (completed written (.block addr) stores steps) [] := by
  intro stores
  obtain skipped | ⟨room, writes⟩ := prefetchWrite_cases process data addr
  · have none : stores = [] := skipped
    rw [none, List.take_nil, completed_nil]
    exact holds
  · have stored : stores = (Area.appending data.blocks.used [[addr]]).map .block := writes
    have length : stores.length = 2 := by rw [stored]; rfl
    have fits : (blocksOf written).length + [[addr]].flatten.length ≤ prefetchEntries := by
      rw [← holds.blocks.used]
      exact room
    have blocks := holds.blocks.appending [[addr]] fits steps
    have stopping : (stores.take steps).foldl PrefetchData.perform data =
        { data with
          blocks :=
            data.blocks.performAll ((Area.appending data.blocks.used [[addr]]).take steps) } := by
      rw [stored, ← List.map_take, perform_blocks]
    rw [stopping]
    by_cases all : 1 < steps
    · rw [if_pos (show [[addr]].length < steps from all)] at blocks
      rw [completed_whole (by omega) (by omega)]
      constructor
      · rw [blocksOf_append]
        exact blocks
      · rw [backpatchesOf_append]
        exact (List.append_nil (backpatchesOf written)).symm ▸ holds.backpatches
      · exact holds.torn
    · rw [if_neg (show ¬[[addr]].length < steps from all)] at blocks
      rw [completed_stopped (by omega)]
      exact ⟨blocks, holds.backpatches, holds.torn⟩

theorem PrefetchData.Holds.backpatcherNotify (holds : data.Holds written [])
    (backpatch : GumBackpatch) (steps : Nat) :
    let stores := backpatcherNotify gum process data backpatch
    ∃ torn, ((stores.take steps).foldl PrefetchData.perform data).Holds
        (completed written (.backpatch backpatch) stores steps) torn ∧
      (stores.length ≤ steps → torn = []) := by
  intro stores
  have content := holds.backpatches
  rw [List.append_nil] at content
  have used : data.backpatches.used ≤ bpSize := by
    rw [content.used]
    exact content.fits
  obtain skipped | ⟨room, writes⟩ := backpatcherNotify_cases gum process data used backpatch
  · have none : stores = [] := skipped
    rw [none, List.take_nil, completed_nil]
    exact ⟨[], holds, fun _ => rfl⟩
  · have stored : stores =
        (framing 8 data.backpatches.used backpatch.bytes).map .backpatch := writes
    have length : stores.length = backpatch.bytes.length + 3 := by
      rw [stored, List.length_map, length_framing]
    have stopping : (stores.take steps).foldl PrefetchData.perform data =
        { data with
          backpatches := data.backpatches.performAll
            ((framing 8 data.backpatches.used backpatch.bytes).take steps) } := by
      rw [stored, ← List.map_take, perform_backpatches]
    rw [content.used] at room
    obtain ⟨torn, whole, ends⟩ := content.framing room steps
    rw [length_framing] at ends
    rw [stopping]
    by_cases all : backpatch.bytes.length + 3 ≤ steps
    · rw [if_pos all] at ends
      rw [ends] at whole
      rw [completed_whole (by omega) (by omega)]
      refine ⟨[], ?_, fun _ => rfl⟩
      constructor
      · rw [blocksOf_append]
        exact (List.append_nil (blocksOf written)).symm ▸ holds.blocks
      · rw [backpatchesOf_append, entries, List.flatMap_append, List.append_nil]
        exact (List.flatMap_singleton _ backpatch).symm ▸ whole
      · exact holds.torn
    · rw [if_neg all] at ends
      rw [completed_stopped (by omega)]
      exact ⟨torn, ⟨holds.blocks, whole, ends⟩, fun done => absurd done (by omega)⟩

/-- Wherever a child stops in a report, the memory holds the reports that were completed; it holds
a torn one only when the child stopped before the end. -/
theorem PrefetchData.Holds.report (holds : data.Holds written []) (gum : Gum) (process : Process)
    (report : Report) (steps : Nat) :
    let stores := report.stores gum process data
    ∃ torn, ((stores.take steps).foldl PrefetchData.perform data).Holds
        (completed written report stores steps) torn ∧
      (stores.length ≤ steps → torn = []) := by
  cases report with
  | block addr => exact ⟨[], holds.prefetchWrite addr steps, fun _ => rfl⟩
  | backpatch backpatch => exact holds.backpatcherNotify backpatch steps

/-! ## Reading -/

theorem prefetchReadBlocks_exact (executable : UInt64 → Bool) {blocks : Area UInt64}
    (before after rest : List UInt64) (stored : blocks.cells = before ++ after ++ rest)
    (used : blocks.used = before.length + after.length) :
    prefetchReadBlocks executable blocks before.length =
      .ok (after.flatMap (blockCalls executable)) := by
  induction after generalizing before with
  | nil =>
      rw [prefetchReadBlocks, if_neg (by rw [used]; exact Nat.lt_irrefl _)]
      rfl
  | cons addr after ih =>
      have entry : blocks.cells[before.length]? = some addr := by
        rw [stored, List.append_assoc, List.getElem?_append_right (Nat.le_refl _), Nat.sub_self]
        rfl
      have next := ih (before ++ [addr]) (by rw [stored]; simp) (by rw [used]; simp; omega)
      rw [List.length_append, List.length_singleton] at next
      rw [prefetchReadBlocks, if_pos (by rw [used, List.length_cons]; omega), entry]
      simp only [next, List.flatMap_cons]
      rfl

/-- The parent reads the backpatches from `offset` on; what is torn is not longer than a length. -/
theorem prefetchReadPatches_exact (gum : Gum) (executable : UInt64 → Bool) {area : Area UInt8}
    (small : area.cells.length < 2 ^ 64) (before rest torn : List UInt8)
    (backpatches : List GumBackpatch)
    (stored : area.cells = before ++ (entries backpatches ++ torn) ++ rest)
    (used : area.used = before.length + (entries backpatches ++ torn).length)
    (short : torn.length ≤ 8) :
    prefetchReadPatches gum executable area before.length =
      .ok (backpatches.flatMap fun backpatch => patchCalls gum executable backpatch.bytes) := by
  have length := congrArg List.length stored
  rw [List.length_append, List.length_append, ← used] at length
  have inside : area.used < 2 ^ 64 := by omega
  induction backpatches generalizing before with
  | nil =>
      have left : area.used = before.length + torn.length := used
      rw [prefetchReadPatches, gsizeSub_of_le (by omega) inside, if_neg (by omega)]
      rfl
  | cons backpatch backpatches ih =>
      have nonempty := List.length_pos_iff.mpr backpatch.nonempty
      have fits := backpatch.fits
      have following : entries (backpatch :: backpatches) ++ torn =
          frame 8 backpatch.bytes ++ (entries backpatches ++ torn) := by
        rw [entries, List.flatMap_cons, List.append_assoc]
        rfl
      rw [following, List.append_assoc, List.append_assoc] at stored
      rw [following, List.length_append, length_frame] at used
      have size : Memory.load 8 area.cells before.length = backpatch.bytes.length := by
        rw [stored, load_frame (by omega)]
      have payload : (area.cells.drop (before.length + 8)).take backpatch.bytes.length =
          backpatch.bytes := by
        rw [stored, payload_frame]
      have afterFrame : (before ++ frame 8 backpatch.bytes).length =
          before.length + 8 + backpatch.bytes.length := by
        rw [List.length_append, length_frame, Nat.add_assoc]
      have entry : readEntry area before.length = .ok backpatch.bytes := by
        have counted : before.length + 8 ≤ area.used := by omega
        unfold readEntry
        simp only [size, payload, gsizeSub_of_le counted inside]
        rw [if_neg (by omega), if_neg (by omega), if_neg (by omega)]
      have next := ih (before ++ frame 8 backpatch.bytes)
        (by rw [stored, List.append_assoc, List.append_assoc, List.append_assoc, List.append_assoc])
        (by rw [afterFrame, used]; omega)
      rw [afterFrame] at next
      rw [prefetchReadPatches, gsizeSub_of_le (by omega) inside, if_pos (by omega)]
      split
      · next fault failed =>
        rw [entry] at failed
        cases failed
      · next bytes read =>
        rw [entry] at read
        cases read
        rw [next, List.flatMap_cons]
        rfl

theorem PrefetchData.Holds.read {torn : List UInt8} (holds : data.Holds written torn) (gum : Gum)
    (executable : UInt64 → Bool) :
    ∃ after, prefetchRead gum executable data =
        .ok ((blocksOf written).flatMap (blockCalls executable) ++
          (backpatchesOf written).flatMap
            fun backpatch => patchCalls gum executable backpatch.bytes, after) ∧
      after.Holds [] [] := by
  obtain ⟨unused, storedBlocks⟩ := holds.blocks.stored
  obtain ⟨unread, storedBackpatches⟩ := holds.backpatches.stored
  have blocks := prefetchReadBlocks_exact executable [] (blocksOf written) unused
    storedBlocks (holds.blocks.used.trans (Nat.zero_add _).symm)
  have small : data.backpatches.cells.length < 2 ^ 64 := by
    rw [holds.backpatches.length]
    decide
  have patches := prefetchReadPatches_exact gum executable small [] unread torn
    (backpatchesOf written) storedBackpatches
    (holds.backpatches.used.trans (Nat.zero_add _).symm) holds.torn
  refine ⟨(data.perform (.block (.commit 0))).perform (.backpatch (.commit 0)), ?_, ?_⟩
  · rw [List.length_nil] at blocks patches
    simp only [prefetchRead, PrefetchData.perform, blocks, patches, bind, Except.bind]
  · exact ⟨holds.blocks.clear, holds.backpatches.clear, Nat.zero_le 8⟩

/-! ## Runs -/

/-- What the parent makes of the reports that were written: the blocks in their order, then the
backpatches in theirs. -/
def processed (gum : Gum) (executable : UInt64 → Bool) (written : List Report) : List Call :=
  (blocksOf written).flatMap (blockCalls executable) ++
    (backpatchesOf written).flatMap fun backpatch => patchCalls gum executable backpatch.bytes

theorem reportAll_holds (gum : Gum) (reports : List Report) (system : System)
    (holds : system.data.Holds system.written []) :
    (system.reportAll gum reports).data.Holds (system.reportAll gum reports).written [] := by
  induction reports generalizing system with
  | nil => exact holds
  | cons report reports ih =>
      obtain ⟨torn, next, whole⟩ := holds.report gum ⟨true, system.cantPrefetch⟩ report
        (system.stores gum report).length
      have none := whole (Nat.le_refl _)
      rw [none] at next
      exact ih (system.report gum report (system.stores gum report).length) next

theorem child_holds (gum : Gum) (child : Child) (system : System)
    (holds : system.data.Holds system.written []) :
    ∃ torn, (system.child gum child).data.Holds (system.child gum child).written torn := by
  have finished := reportAll_holds gum child.reports system holds
  rw [System.child]
  cases child.killed with
  | none => exact ⟨[], finished⟩
  | some killed =>
      obtain ⟨report, steps⟩ := killed
      obtain ⟨torn, next, _⟩ := finished.report gum
        ⟨true, (system.reportAll gum child.reports).cantPrefetch⟩ report steps
      exact ⟨torn, next⟩

theorem prefetchOnFork_exact (gum : Gum) (fork : Fork) (system : System) {torn : List UInt8}
    (holds : system.data.Holds system.written torn) :
    ∃ next after, system.prefetchOnFork gum fork =
        .ok (⟨system.written, processed gum fork.executable system.written⟩, next) ∧
      next.data.Holds next.written after := by
  obtain ⟨data, read, clear⟩ := holds.read gum fork.executable
  obtain ⟨after, next⟩ := child_holds gum fork.child ⟨data, addedToCantPrefetch
    (processed gum fork.executable system.written) ++ system.cantPrefetch, []⟩ clear
  refine ⟨_, after, ?_, next⟩
  rw [System.prefetchOnFork, read]
  rfl

theorem run_exact (gum : Gum) (forks : List Fork) (system : System) {torn : List UInt8}
    (holds : system.data.Holds system.written torn) :
    ∃ readings last, system.run gum forks = .ok (readings, last) ∧
      List.Forall₂ (fun fork reading => reading.calls = processed gum fork.executable
        reading.written) forks readings := by
  induction forks generalizing system torn with
  | nil => exact ⟨[], system, rfl, .nil⟩
  | cons fork forks ih =>
      obtain ⟨next, after, forked, follows⟩ := prefetchOnFork_exact gum fork system holds
      obtain ⟨readings, last, rest, exact⟩ := ih next follows
      refine ⟨⟨system.written, processed gum fork.executable system.written⟩ :: readings, last, ?_,
        .cons rfl exact⟩
      rw [System.run, forked]
      simp only [bind, Except.bind, rest]

/-- In every run the parent reads at every fork, without a fault, what was completely written since
the last read. -/
theorem prefetchRead_exact (gum : Gum) (forks : List Fork) :
    ∃ readings last, System.initial.run gum forks = .ok (readings, last) ∧
      List.Forall₂ (fun fork reading => reading.calls = processed gum fork.executable
        reading.written) forks readings :=
  run_exact gum forks System.initial PrefetchData.Holds.cleared

end SbFuzz.FridaMode
