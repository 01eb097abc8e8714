import Mathlib.Data.List.Induction
import Mathlib.Data.List.Nodup
import SbFuzz.Samples.Harness

/-! How often the hook of `harness.c` overwrites a byte of the target: the reads
that are answered with input are the first ones at their address, and their
bytes may overlap. -/

set_option autoImplicit false

namespace SbFuzz.Samples.Harness

open Context

/-! ## Reads that are answered -/

/-- Reads that the hook answers with input unless it knows their address. -/
def Access.answered (access : Access) : Bool :=
  access.hooked && inWindows access.address && access.size ≠ .doubleword &&
    (specialValue access.address).isNone

def keepFirst (kept : List Access) (access : Access) : List Access :=
  if access.answered ∧ access.address ∉ kept.map Access.address then kept ++ [access] else kept

def firstReads (accesses : List Access) : List Access := accesses.foldl keepFirst []

def consumed (accesses : List Access) : UInt64 :=
  (firstReads accesses).foldl (fun total read => total + UInt64.ofNat read.size.bytes) 0

/-- The input of this length has been enough for all accesses. -/
def Reached (len : UInt64) (accesses : List Access) : Prop :=
  ∀ before access, before ++ [access] <+: accesses → access.hooked = true →
    consumed before + UInt64.ofNat access.size.bytes < len

/-- The bytes that are overwritten when a read is answered. -/
def Access.writtenBytes (access : Access) : List UInt64 :=
  if access.uc.checkMemArea access.address access.size.bytes then access.byteAddresses else []

/-- As long as the input lasts, there is room for the addresses of the reads
that are answered, and no byte belongs to two of them. -/
structure SeparateReads (len : UInt64) (accesses : List Access) : Prop where
  few : ∀ reached, reached <+: accesses → Reached len reached →
    (firstReads reached).length ≤ 0x100
  disjoint : ∀ reached, reached <+: accesses → Reached len reached →
    (firstReads reached).Pairwise fun first second =>
      first.writtenBytes.Disjoint second.writtenBytes

/-- No byte was overwritten with input twice, nor anything behind `rewrite_addrs`. -/
structure OverwritesOnce (globals : Globals) : Prop where
  inBounds : globals.status ≠ .undefined
  once : globals.overwritten.Nodup

theorem firstReads_snoc (accesses : List Access) (access : Access) :
    firstReads (accesses ++ [access]) = keepFirst (firstReads accesses) access := by
  simp [firstReads, List.foldl_append]

theorem consumed_of_kept {accesses : List Access} {access : Access}
    (kept : firstReads (accesses ++ [access]) = firstReads accesses ++ [access]) :
    consumed (accesses ++ [access]) =
      consumed accesses + UInt64.ofNat access.size.bytes := by
  unfold consumed
  rw [kept, List.foldl_append]
  rfl

theorem Reached.of_prefix {len : UInt64} {earlier accesses : List Access}
    (reached : Reached len accesses) (isPrefix : earlier <+: accesses) : Reached len earlier :=
  fun before access within => reached before access (within.trans isPrefix)

theorem reached_snoc {len : UInt64} {accesses : List Access} {access : Access} :
    Reached len (accesses ++ [access]) ↔ Reached len accesses ∧
      (access.hooked = true → consumed accesses + UInt64.ofNat access.size.bytes < len) := by
  constructor
  · intro reached
    exact ⟨reached.of_prefix (List.prefix_append _ _), reached accesses access List.prefix_rfl⟩
  · rintro ⟨earlier, last⟩ before next within
    rcases List.prefix_concat_iff.mp within with same | shorter
    · obtain ⟨rfl, rfl⟩ := List.append_singleton_inj.mp same
      exact last
    · exact earlier before next shorter

/-! ## One access -/

/-- The globals while the input lasts. -/
structure InStep (len : UInt64) (accesses : List Access) (globals : Globals) : Prop where
  status : globals.status = .running
  len : globals.currentInputLen = len
  index : globals.currentInputIndex = consumed accesses
  recorded : globals.rewriteAddrs = (firstReads accesses).map Access.address
  room : (firstReads accesses).length ≤ 0x100
  overwritten : globals.overwritten = (firstReads accesses).flatMap Access.writtenBytes

inductive RunOutcome (len : UInt64) (accesses : List Access) (globals : Globals) : Prop where
  | running : Reached len accesses → InStep len accesses globals →
      RunOutcome len accesses globals
  | exited {reached} : reached <+: accesses → Reached len reached → ¬ Reached len accesses →
      globals.status = .exited →
      globals.overwritten = (firstReads reached).flatMap Access.writtenBytes →
      RunOutcome len accesses globals
  | undefined {reached} : reached <+: accesses → Reached len reached →
      0x100 < (firstReads reached).length → globals.status = .undefined →
      RunOutcome len accesses globals

theorem InStep.unanswered {len : UInt64} {accesses : List Access} {globals : Globals}
    {access : Access} (inStep : InStep len accesses globals)
    (left : firstReads (accesses ++ [access]) = firstReads accesses) :
    InStep len (accesses ++ [access]) globals := by
  obtain ⟨status, sameLen, index, recorded, room, overwritten⟩ := inStep
  refine ⟨status, sameLen, ?_, ?_, ?_, ?_⟩
  · rw [index, consumed, consumed, left]
  · rw [recorded, left]
  · rw [left]
    exact room
  · rw [overwritten, left]

theorem hookMemAccess_globals {globals : Globals} {access : Access}
    (hooked : access.hooked = true)
    (lasts : globals.currentInputIndex + UInt64.ofNat access.size.bytes <
      globals.currentInputLen) :
    (hookMemAccess globals access).2 =
      if access.answered ∧ access.address ∉ globals.rewriteAddrs then
        (redirectRead globals access).2
      else globals := by
  have isRead : access.type = .read := by
    simp only [Access.hooked, Bool.and_eq_true, decide_eq_true_eq] at hooked
    exact hooked.1.1
  have notUsedUp : ¬ globals.currentInputIndex + UInt64.ofNat access.size.bytes ≥
      globals.currentInputLen := UInt64.not_le.mpr lasts
  have isDoubleword : access.size.bytes = 4 ↔ access.size = .doubleword := by
    cases access.size <;> decide
  unfold hookMemAccess Access.answered
  simp only [notUsedUp, if_false, isRead, hooked, isDoubleword, Bool.true_and]
  cases inWindows access.address with
  | false => simp
  | true =>
      by_cases small : access.size = .doubleword
      · simp [small]
      · by_cases known : access.address ∈ globals.rewriteAddrs
        · simp [small, known]
        · cases special : specialValue access.address <;> simp [small, known]

theorem Globals.access_stopped {globals : Globals} (stopped : globals.status ≠ .running)
    (access : Access) : globals.access access = globals := if_neg fun both => stopped both.1

theorem InStep.access {len : UInt64} {accesses : List Access} {globals : Globals}
    {access : Access} (inStep : InStep len accesses globals) (reached : Reached len accesses) :
    RunOutcome len (accesses ++ [access]) (globals.access access) := by
  by_cases hooked : access.hooked = true
  · have called : globals.access access = (hookMemAccess globals access).2 :=
      if_pos ⟨inStep.status, hooked⟩
    rw [called]
    by_cases lasts : consumed accesses + UInt64.ofNat access.size.bytes < len
    · have longer : Reached len (accesses ++ [access]) := reached_snoc.mpr ⟨reached, fun _ => lasts⟩
      rw [hookMemAccess_globals hooked (by rw [inStep.index, inStep.len]; exact lasts),
        inStep.recorded]
      split
      · next answered =>
        have kept : firstReads (accesses ++ [access]) = firstReads accesses ++ [access] := by
          rw [firstReads_snoc, keepFirst, if_pos answered]
        by_cases full : (firstReads accesses).length < 0x100
        · refine .running longer ⟨?_, inStep.len, ?_, ?_, ?_, ?_⟩
          · simp only [redirectRead, inStep.recorded, List.length_map, full, if_true]
            exact inStep.status
          · rw [consumed_of_kept kept, ← inStep.index]
            rfl
          · simp only [redirectRead, inStep.recorded, kept, List.map_append, List.map_cons,
              List.map_nil]
          · rw [kept, List.length_append]
            exact full
          · simp only [redirectRead, inStep.overwritten, kept, List.flatMap_append,
              List.flatMap_cons, List.flatMap_nil, List.append_nil]
            rfl
        · refine .undefined List.prefix_rfl longer ?_ ?_
          · rw [kept, List.length_append, List.length_singleton]
            omega
          · simp only [redirectRead, inStep.recorded, List.length_map, full, if_false]
      · next unanswered =>
        refine .running longer (inStep.unanswered ?_)
        rw [firstReads_snoc, keepFirst, if_neg unanswered]
    · have usedUp : globals.currentInputIndex + UInt64.ofNat access.size.bytes ≥
          globals.currentInputLen := by
        rw [inStep.index, inStep.len]
        exact UInt64.not_lt.mp lasts
      refine .exited (List.prefix_append _ _) reached (fun longer => ?_) ?_ ?_
      · exact lasts ((reached_snoc.mp longer).2 hooked)
      · simp only [hookMemAccess, usedUp, if_true]
      · simp only [hookMemAccess, usedUp, if_true]
        exact inStep.overwritten
  · have ignored : globals.access access = globals := if_neg fun both => hooked both.2
    rw [ignored]
    refine .running (reached_snoc.mpr ⟨reached, fun isHooked => absurd isHooked hooked⟩)
      (inStep.unanswered ?_)
    rw [firstReads_snoc, keepFirst, if_neg]
    simp [Access.answered, hooked]

theorem RunOutcome.access {len : UInt64} {accesses : List Access} {globals : Globals}
    (outcome : RunOutcome len accesses globals) (access : Access) :
    RunOutcome len (accesses ++ [access]) (globals.access access) := by
  cases outcome with
  | running reached inStep => exact inStep.access reached
  | exited within reached usedUp status overwritten =>
      rw [Globals.access_stopped (by simp [status])]
      exact .exited (within.trans (List.prefix_append _ _)) reached
        (fun longer => usedUp (longer.of_prefix (List.prefix_append _ _))) status overwritten
  | undefined within reached many status =>
      rw [Globals.access_stopped (by simp [status])]
      exact .undefined (within.trans (List.prefix_append _ _)) reached many status

/-! ## Runs -/

theorem Globals.run_snoc (globals : Globals) (accesses : List Access) (access : Access) :
    globals.run (accesses ++ [access]) = (globals.run accesses).access access := by
  simp [run, List.foldl_append]

theorem run_outcome {len : UInt64} {globals : Globals} (start : InStep len [] globals)
    (accesses : List Access) : RunOutcome len accesses (globals.run accesses) := by
  induction accesses using List.reverseRecOn with
  | nil =>
      refine .running (fun before access within => ?_) start
      exact absurd (List.prefix_nil.mp within) (by simp)
  | append_singleton accesses access ih =>
      rw [Globals.run_snoc]
      exact ih.access access

theorem Globals.access_overwritten (globals : Globals) (access : Access) :
    globals.overwritten <+: (globals.access access).overwritten := by
  unfold Globals.access hookMemAccess redirectRead
  split
  · simp only
    repeat' split
    all_goals first | exact List.prefix_rfl | exact List.prefix_append _ _
  · exact List.prefix_rfl

/-- What has been overwritten, and what is undefined, stays so. -/
theorem Globals.run_of_prefix (globals : Globals) {earlier accesses : List Access}
    (isPrefix : earlier <+: accesses) :
    (globals.run earlier).overwritten <+: (globals.run accesses).overwritten ∧
      ((globals.run earlier).status = .undefined →
        (globals.run accesses).status = .undefined) := by
  obtain ⟨later, rfl⟩ := isPrefix
  induction later using List.reverseRecOn with
  | nil =>
      rw [List.append_nil]
      exact ⟨List.prefix_rfl, id⟩
  | append_singleton later access ih =>
      rw [← List.append_assoc, Globals.run_snoc]
      refine ⟨ih.1.trans (Globals.access_overwritten _ access), fun undefined => ?_⟩
      rw [Globals.access_stopped (by simp [ih.2 undefined])]
      exact ih.2 undefined

theorem Access.byteAddresses_nodup (access : Access) : access.byteAddresses.Nodup := by
  refine List.Nodup.map_on (fun left leftMember right rightMember same => ?_) List.nodup_range
  have small := access.size.bytes_le
  have leftSmall := List.mem_range.mp leftMember
  have rightSmall := List.mem_range.mp rightMember
  have words := (UInt64.add_right_inj access.address).mp same
  have values := congrArg UInt64.toNat words
  rwa [UInt64.toNat_ofNat_of_lt' (by change left < 2 ^ 64; omega),
    UInt64.toNat_ofNat_of_lt' (by change right < 2 ^ 64; omega)] at values

theorem nodup_writtenBytes_iff (reads : List Access) :
    (reads.flatMap Access.writtenBytes).Nodup ↔
      reads.Pairwise fun first second => first.writtenBytes.Disjoint second.writtenBytes := by
  rw [List.nodup_flatMap]
  refine and_iff_right fun read _ => ?_
  unfold Access.writtenBytes
  split
  · exact read.byteAddresses_nodup
  · exact List.nodup_nil

theorem placeInputCallback_inStep {uc placed : Emulator} {input : List UInt8} {globals : Globals}
    (accepted : placeInputCallback uc input = some (placed, globals)) :
    InStep (UInt64.ofNat input.length) [] globals := by
  unfold placeInputCallback at accepted
  split at accepted
  · cases accepted
  · cases accepted
    exact ⟨rfl, rfl, rfl, rfl, by decide, rfl⟩

/-- A run overwrites each byte at most once exactly if the reads that it answers
are few and separate. -/
theorem overwritesOnce_iff_separateReads {uc placed : Emulator} {input : List UInt8}
    {globals : Globals} (accepted : placeInputCallback uc input = some (placed, globals))
    (accesses : List Access) :
    OverwritesOnce (globals.run accesses) ↔
      SeparateReads (UInt64.ofNat input.length) accesses := by
  have outcome := run_outcome (placeInputCallback_inStep accepted)
  constructor
  · rintro ⟨inBounds, once⟩
    have inStep : ∀ reached, reached <+: accesses → Reached (UInt64.ofNat input.length) reached →
        InStep (UInt64.ofNat input.length) reached (globals.run reached) := by
      intro reached isPrefix lasts
      cases outcome reached with
      | running _ inStep => exact inStep
      | exited _ _ usedUp _ _ => exact absurd lasts usedUp
      | undefined _ _ _ undefined =>
          exact absurd ((globals.run_of_prefix isPrefix).2 undefined) inBounds
    refine ⟨fun reached isPrefix lasts => (inStep reached isPrefix lasts).room,
      fun reached isPrefix lasts => ?_⟩
    rw [← nodup_writtenBytes_iff, ← (inStep reached isPrefix lasts).overwritten]
    exact (globals.run_of_prefix isPrefix).1.sublist.nodup once
  · rintro ⟨few, disjoint⟩
    cases outcome accesses with
    | running reached inStep =>
        refine ⟨by simp [inStep.status], ?_⟩
        rw [inStep.overwritten, nodup_writtenBytes_iff]
        exact disjoint accesses List.prefix_rfl reached
    | exited isPrefix reached _ status overwritten =>
        refine ⟨by simp [status], ?_⟩
        rw [overwritten, nodup_writtenBytes_iff]
        exact disjoint _ isPrefix reached
    | undefined isPrefix reached many _ =>
        exact absurd (few _ isPrefix reached) (Nat.not_le.mpr many)

/-! ## Reads that overlap -/

def targetPage : Emulator where
  mapped := ⟨[⟨targetRangeStart + 0x40000, targetRangeStart + 0x40fff, 7, by decide, by decide,
    by decide⟩], by simp⟩
  memory := fun _ => 0
  registers := fun _ => 0

def quadwordRead (offset : UInt64) : Access where
  uc := targetPage
  type := .read
  address := targetRangeStart + 0x40000 + offset
  size := .quadword
  value := 0

theorem overwritesOnce_iff_separateReads_neighbours :
    SeparateReads 32 [quadwordRead 0, quadwordRead 8, quadwordRead 0] := by
  have accepted : placeInputCallback targetPage (List.replicate 32 1) = some (_, _) := rfl
  have once := overwritesOnce_iff_separateReads accepted
    [quadwordRead 0, quadwordRead 8, quadwordRead 0]
  exact once.mp ⟨by decide, by decide⟩

/-- Two reads that begin four bytes apart are both answered. -/
theorem overlappingReads_overwrite_twice : ¬ ∀ uc input placed globals accesses,
    placeInputCallback uc input = some (placed, globals) →
      OverwritesOnce (globals.run accesses) := by
  intro claim
  have accepted : placeInputCallback targetPage (List.replicate 32 1) = some (_, _) := rfl
  have once := claim _ _ _ _ [quadwordRead 0, quadwordRead 4] accepted
  exact absurd once.once (by decide)

/-! ## Room for the addresses -/

/-- Nothing has been written behind `rewrite_addrs`, and its index is at most its size. -/
structure InBounds (globals : Globals) : Prop where
  written : globals.status ≠ .undefined
  index : globals.rewriteAddrs.length ≤ 0x100

/-- The reads that are answered while the input lasts fit in the array. -/
def FewReads (len : UInt64) (accesses : List Access) : Prop :=
  ∀ reached, reached <+: accesses → Reached len reached → (firstReads reached).length ≤ 0x100

theorem firstReads_length_le (accesses : List Access) :
    (firstReads accesses).length ≤ accesses.length := by
  induction accesses using List.reverseRecOn with
  | nil => exact Nat.le_refl _
  | append_singleton accesses access ih =>
      rw [firstReads_snoc, keepFirst, List.length_append, List.length_singleton]
      split
      · rw [List.length_append, List.length_singleton]
        exact Nat.succ_le_succ ih
      · exact Nat.le_succ_of_le ih

theorem hookMemAccess_records (globals : Globals) (access : Access) :
    (hookMemAccess globals access).2.rewriteAddrs = globals.rewriteAddrs ∨
      (hookMemAccess globals access).2 = (redirectRead globals access).2 := by
  unfold hookMemAccess
  simp only
  repeat' split
  all_goals first | exact .inl rfl | exact .inr rfl

theorem redirectRead_room {globals : Globals} {access : Access}
    (written : (redirectRead globals access).2.status ≠ .undefined) :
    (redirectRead globals access).2.rewriteAddrs.length ≤ 0x100 := by
  by_cases room : globals.rewriteAddrs.length < 0x100
  · calc (redirectRead globals access).2.rewriteAddrs.length
      _ = globals.rewriteAddrs.length + 1 := by simp [redirectRead]
      _ ≤ 0x100 := room
  · exact absurd (if_neg room) written

theorem Globals.access_index {globals : Globals} {access : Access}
    (index : globals.rewriteAddrs.length ≤ 0x100)
    (written : (globals.access access).status ≠ .undefined) :
    (globals.access access).rewriteAddrs.length ≤ 0x100 := by
  unfold Globals.access at written ⊢
  split
  · next called =>
    rw [if_pos called] at written
    rcases hookMemAccess_records globals access with same | redirected
    · exact same ▸ index
    · rw [redirected] at written ⊢
      exact redirectRead_room written
  · exact index

/-- As long as nothing is undefined, the index stays within the array. -/
theorem Globals.run_index {globals : Globals} (index : globals.rewriteAddrs.length ≤ 0x100)
    {accesses : List Access} (written : (globals.run accesses).status ≠ .undefined) :
    (globals.run accesses).rewriteAddrs.length ≤ 0x100 := by
  induction accesses using List.reverseRecOn with
  | nil => exact index
  | append_singleton accesses access ih =>
      have earlier : (globals.run accesses).status ≠ .undefined := fun undefined =>
        written ((globals.run_of_prefix (List.prefix_append accesses [access])).2 undefined)
      rw [Globals.run_snoc] at written ⊢
      exact Globals.access_index (ih earlier) written

/-- A run stays within `rewrite_addrs` exactly if it answers few reads. -/
theorem rewriteAddrs_inBounds_iff {uc placed : Emulator} {input : List UInt8}
    {globals : Globals} (accepted : placeInputCallback uc input = some (placed, globals))
    (accesses : List Access) :
    (∀ reached, reached <+: accesses → InBounds (globals.run reached)) ↔
      FewReads (UInt64.ofNat input.length) accesses := by
  have start := placeInputCallback_inStep accepted
  have outcome := run_outcome start
  constructor
  · intro inBounds reached isPrefix lasts
    cases outcome reached with
    | running _ inStep => exact inStep.room
    | exited _ _ usedUp _ _ => exact absurd lasts usedUp
    | undefined _ _ _ undefined => exact absurd undefined (inBounds reached isPrefix).written
  · intro few reached isPrefix
    have written : (globals.run reached).status ≠ .undefined := by
      cases outcome reached with
      | running _ inStep => exact inStep.status ▸ by decide
      | exited _ _ _ status _ => exact status ▸ by decide
      | undefined earlier lasts many _ =>
          exact absurd (few _ (earlier.trans isPrefix) lasts) (Nat.not_le.mpr many)
    exact ⟨written, Globals.run_index (by simp [start.recorded, firstReads]) written⟩

/-! ## Reads of many bytes -/

theorem rewriteAddrs_inBounds_iff_neighbours : ∃ globals,
    placeInputCallback targetPage (List.replicate 32 1) = some globals ∧
      InBounds (globals.2.run [quadwordRead 0, quadwordRead 8, quadwordRead 0]) := by
  have accepted : placeInputCallback targetPage (List.replicate 32 1) = some (_, _) := rfl
  refine ⟨_, accepted, (rewriteAddrs_inBounds_iff accepted _).mpr ?_ _ List.prefix_rfl⟩
  intro reached isPrefix _
  calc (firstReads reached).length
    _ ≤ reached.length := firstReads_length_le reached
    _ ≤ 3 := isPrefix.length_le
    _ ≤ 0x100 := by decide

def byteRead (index : Nat) : Access where
  uc := targetPage
  type := .read
  address := targetRangeStart + 0x40000 + UInt64.ofNat index
  size := .byte
  value := 0

def byteReads (count : Nat) : List Access := (List.range count).map byteRead

theorem byteReads_succ (count : Nat) :
    byteReads (count + 1) = byteReads count ++ [byteRead count] := by
  simp [byteReads, List.range_succ]

theorem byteRead_answered {index : Nat} (small : index < 0x101) :
    (byteRead index).answered = true := by
  revert index
  decide +kernel

theorem byteRead_new {count : Nat} (small : count < 0x101) :
    (byteRead count).address ∉ (byteReads count).map Access.address := by
  simp only [byteReads, List.map_map, List.mem_map, List.mem_range, Function.comp_apply]
  rintro ⟨index, before, same⟩
  have words := (UInt64.add_right_inj _).mp same
  have values := congrArg UInt64.toNat words
  rw [UInt64.toNat_ofNat_of_lt' (by change index < 2 ^ 64; omega),
    UInt64.toNat_ofNat_of_lt' (by change count < 2 ^ 64; omega)] at values
  exact absurd values (Nat.ne_of_lt before)

theorem firstReads_byteReads {count : Nat} (small : count ≤ 0x101) :
    firstReads (byteReads count) = byteReads count := by
  induction count with
  | zero => rfl
  | succ count ih =>
      have kept := ih (Nat.le_of_succ_le small)
      rw [byteReads_succ, firstReads_snoc, kept, keepFirst,
        if_pos ⟨byteRead_answered small, byteRead_new small⟩]

theorem consumed_byteReads {count : Nat} (small : count ≤ 0x101) :
    consumed (byteReads count) = UInt64.ofNat count := by
  induction count with
  | zero => rfl
  | succ count ih =>
      have kept : firstReads (byteReads count ++ [byteRead count]) =
          firstReads (byteReads count) ++ [byteRead count] := by
        rw [← byteReads_succ, firstReads_byteReads small, byteReads_succ,
          firstReads_byteReads (Nat.le_of_succ_le small)]
      rw [byteReads_succ, consumed_of_kept kept, ih (Nat.le_of_succ_le small)]
      exact (UInt64.ofNat_add count 1).symm

theorem reached_byteReads {len count : Nat} (small : count ≤ 0x101) (lasts : count < len)
    (word : len < 2 ^ 64) : Reached (UInt64.ofNat len) (byteReads count) := by
  induction count with
  | zero =>
      intro before access within
      exact absurd (List.prefix_nil.mp within) (by simp)
  | succ count ih =>
      rw [byteReads_succ]
      refine reached_snoc.mpr ⟨ih (Nat.le_of_succ_le small) (Nat.lt_of_succ_lt lasts), fun _ => ?_⟩
      rw [consumed_byteReads (Nat.le_of_succ_le small)]
      refine UInt64.lt_iff_toNat_lt.mpr ?_
      change (UInt64.ofNat count + UInt64.ofNat 1).toNat < (UInt64.ofNat len).toNat
      rw [← UInt64.ofNat_add, UInt64.toNat_ofNat_of_lt' (by change count + 1 < 2 ^ 64; omega),
        UInt64.toNat_ofNat_of_lt' word]
      exact lasts

/-- An input of 258 bytes answers 257 reads of one byte each. -/
theorem manyReads_overflow : ¬ ∀ uc input placed globals accesses,
    placeInputCallback uc input = some (placed, globals) →
      InBounds (globals.run accesses) := by
  intro claim
  have accepted : placeInputCallback targetPage (List.replicate 258 1) = some (_, _) :=
    if_neg (by rw [List.length_replicate]; decide)
  have inBounds := claim _ _ _ _ (byteReads 257) accepted
  have reached : Reached (UInt64.ofNat (List.replicate 258 (1 : UInt8)).length) (byteReads 257) := by
    rw [List.length_replicate]
    exact reached_byteReads (by decide) (by decide) (by decide)
  cases run_outcome (placeInputCallback_inStep accepted) (byteReads 257) with
  | running _ inStep =>
      have room := inStep.room
      rw [firstReads_byteReads (by decide)] at room
      simp [byteReads] at room
  | exited _ _ usedUp _ _ => exact usedUp reached
  | undefined _ _ _ status => exact inBounds.written status

end SbFuzz.Samples.Harness
