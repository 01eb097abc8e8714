import SbFuzz.Context.Dumper
import SbFuzz.Memory.Pages

/-! What the dumper writes for a process whose memory map is in order: one
segment for each entry that it reads, and the bytes of the process. -/

set_option autoImplicit false

namespace SbFuzz.Context

open Memory (Aligned)

/-- A memory map: sorted by start address, page-aligned and without overlaps,
in 64-bit addresses. -/
structure Vmmap (entries : List Entry) : Prop where
  sorted : entries.Pairwise fun lower upper => lower.start ≤ upper.start
  disjoint : entries.Pairwise fun left right => left.start < left.stop →
    right.start < right.stop → left.stop ≤ right.start ∨ right.stop ≤ left.start
  bounded : ∀ entry ∈ entries, entry.start ≤ entry.stop ∧ entry.stop < 2 ^ 64
  aligned : ∀ entry ∈ entries, Aligned entry.start ∧ Aligned entry.stop

/-- Sorted by start address and without overlaps; an empty entry overlaps none. -/
structure SortedEntries (entries : List Entry) : Prop where
  sorted : entries.Pairwise fun lower upper => lower.start ≤ upper.start
  disjoint : entries.Pairwise fun left right => left.start < left.stop →
    right.start < right.stop → left.stop ≤ right.start ∨ right.stop ≤ left.start
  ordered : ∀ entry ∈ entries, entry.start ≤ entry.stop

theorem Vmmap.sortedEntries {entries : List Entry} (vmmap : Vmmap entries) :
    SortedEntries entries :=
  ⟨vmmap.sorted, vmmap.disjoint, fun entry member => (vmmap.bounded entry member).1⟩

theorem SortedEntries.behind {entries : List Entry} (sorted : SortedEntries entries) :
    entries.Pairwise fun lower upper =>
      lower.start < lower.stop → upper.start < upper.stop → lower.stop ≤ upper.start := by
  refine (sorted.sorted.and sorted.disjoint).imp ?_
  rintro lower upper ⟨before, disjoint⟩ lowerFull upperFull
  rcases disjoint lowerFull upperFull with behind | ahead
  · exact behind
  · exact absurd (Nat.lt_of_lt_of_le upperFull (ahead.trans before)) (Nat.lt_irrefl _)

theorem SortedEntries.tail {head : Entry} {rest : List Entry}
    (sorted : SortedEntries (head :: rest)) : SortedEntries rest where
  sorted := sorted.sorted.of_cons
  disjoint := sorted.disjoint.of_cons
  ordered := fun entry member => sorted.ordered entry (List.mem_cons_of_mem _ member)

def Process.dumped (process : Process) (entry : Entry) : Option (List UInt8) :=
  if entry.start < entry.stop ∧ entry.wanted = true ∧
      process.readOutcome entry.start (entry.stop - entry.start) = .content then
    some (process.bytes entry.start (entry.stop - entry.start))
  else none

theorem Process.dumped_bytes {process : Process} {entry : Entry} {content : List UInt8}
    (dumped : process.dumped entry = some content) :
    entry.start < entry.stop ∧ entry.wanted = true ∧
      process.readOutcome entry.start (entry.stop - entry.start) = .content ∧
      content = process.bytes entry.start (entry.stop - entry.start) := by
  unfold Process.dumped at dumped
  split at dumped
  · next condition =>
    cases dumped
    exact ⟨condition.1, condition.2.1, condition.2.2, rfl⟩
  · cases dumped

section

variable (md5 : List UInt8 → String)

def segmentOf (process : Process) (entry : Entry) : Option SegInfo :=
  let segInfo (contentFile : String) : SegInfo :=
    { start := entry.start, stop := entry.stop, name := entry.objfile
      permissions := ⟨entry.read, entry.write, entry.execute⟩, contentFile }
  if entry.start < entry.stop ∧ entry.wanted = true then
    match process.readOutcome entry.start (entry.stop - entry.start) with
    | .content =>
        some (segInfo (contentFileName md5
          (process.bytes entry.start (entry.stop - entry.start))))
    | .none => some (segInfo "")
    | .exception => none
  else none

/-- Each content file is named after its content, and contents with the same
checksum are the same. -/
def NoCollision (process : Process) : Prop :=
  ∀ left ∈ process.vmmap, ∀ right ∈ process.vmmap, ∀ first second,
    process.dumped left = some first → process.dumped right = some second →
    md5 first = md5 second → first = second

variable {md5}

theorem contentFileName_inj {first second : List UInt8}
    (same : contentFileName md5 first = contentFileName md5 second) : md5 first = md5 second := by
  have chars := congrArg String.toList same
  simp only [contentFileName, String.toList_append, List.append_cancel_right_eq] at chars
  exact String.toList_inj.mp chars

theorem contentFileName_length (content : List UInt8) :
    (contentFileName md5 content).length > 0 := by
  simp only [contentFileName, String.length_append]
  exact Nat.lt_of_lt_of_le (by decide : 0 < ".bin".length) (Nat.le_add_left _ _)

theorem dumpEntry_of_behind {process : Process} {dump : MemoryDump} {entry : Entry}
    (bounded : entry.start ≤ entry.stop)
    (behind : entry.start < entry.stop → dump.segmentLastAddr ≤ entry.start) :
    (dumpEntry md5 process dump entry).finalSegmentList =
      dump.finalSegmentList ++ (segmentOf md5 process entry).toList ∧
    (dumpEntry md5 process dump entry).files =
      (match process.dumped entry with
       | some content => Function.update dump.files (contentFileName md5 content) (some content)
       | none => dump.files) ∧
    (dumpEntry md5 process dump entry).segmentLastAddr =
      if entry.start < entry.stop then entry.stop else dump.segmentLastAddr := by
  unfold dumpEntry
  by_cases empty : entry.start = entry.stop
  · have notFull : ¬ entry.start < entry.stop := by omega
    rw [if_pos empty]
    simp [segmentOf, Process.dumped, notFull]
  · have full : entry.start < entry.stop := by omega
    have notOver : ¬ dump.segmentLastAddr > entry.start := Nat.not_lt.mpr (behind full)
    rw [if_neg empty, if_neg (fun both => notOver both.1)]
    simp only [notOver, if_false]
    by_cases wanted : entry.wanted = true
    · cases outcome : process.readOutcome entry.start (entry.stop - entry.start) <;>
        simp [segmentOf, Process.dumped, wanted, full, outcome]
    · simp [segmentOf, Process.dumped, wanted, full]

theorem foldl_dumpEntry_segments {process : Process} {entries : List Entry} {dump : MemoryDump}
    (sorted : SortedEntries entries)
    (behind : ∀ entry ∈ entries, entry.start < entry.stop → dump.segmentLastAddr ≤ entry.start) :
    (entries.foldl (dumpEntry md5 process) dump).finalSegmentList =
      dump.finalSegmentList ++ entries.filterMap (segmentOf md5 process) := by
  induction entries generalizing dump with
  | nil => simp
  | cons head rest ih =>
      obtain ⟨segments, _, last⟩ :=
        @dumpEntry_of_behind md5 process dump head (sorted.ordered head List.mem_cons_self)
          (behind head List.mem_cons_self)
      have ordered := (List.pairwise_cons.mp sorted.behind).1
      rw [List.foldl_cons, ih sorted.tail ?_, segments, List.filterMap_cons]
      · cases segmentOf md5 process head <;> simp
      · intro entry member full
        rw [last]
        split
        · next headFull => exact ordered entry member headFull full
        · exact behind entry (List.mem_cons_of_mem _ member) full

/-- A content file is not overwritten by another content. -/
theorem foldl_dumpEntry_files {process : Process} {entries : List Entry} {dump : MemoryDump}
    (sorted : SortedEntries entries)
    (behind : ∀ entry ∈ entries, entry.start < entry.stop → dump.segmentLastAddr ≤ entry.start)
    (content : List UInt8)
    (distinct : ∀ entry ∈ entries, ∀ other, process.dumped entry = some other →
      md5 other = md5 content → other = content)
    (stored : dump.files (contentFileName md5 content) = some content ∨
      ∃ entry ∈ entries, process.dumped entry = some content) :
    (entries.foldl (dumpEntry md5 process) dump).files (contentFileName md5 content) =
      some content := by
  induction entries generalizing dump with
  | nil =>
      rcases stored with stored | ⟨entry, member, _⟩
      · exact stored
      · cases member
  | cons head rest ih =>
      obtain ⟨_, files, last⟩ :=
        @dumpEntry_of_behind md5 process dump head (sorted.ordered head List.mem_cons_self)
          (behind head List.mem_cons_self)
      have ordered := (List.pairwise_cons.mp sorted.behind).1
      rw [List.foldl_cons]
      refine ih sorted.tail ?_
        (fun entry member => distinct entry (List.mem_cons_of_mem _ member)) ?_
      · intro entry member full
        rw [last]
        split
        · next headFull => exact ordered entry member headFull full
        · exact behind entry (List.mem_cons_of_mem _ member) full
      · rw [files]
        cases headDumped : process.dumped head with
        | none =>
            rcases stored with stored | ⟨entry, member, dumped⟩
            · exact .inl stored
            · rcases List.mem_cons.mp member with rfl | later
              · rw [headDumped] at dumped
                cases dumped
              · exact .inr ⟨entry, later, dumped⟩
        | some other =>
            by_cases same : contentFileName md5 content = contentFileName md5 other
            · have isContent := distinct head List.mem_cons_self other headDumped
                (contentFileName_inj same).symm
              subst isContent
              exact .inl (by simp)
            · rcases stored with stored | ⟨entry, member, dumped⟩
              · exact .inl (by simp [Function.update_of_ne same, stored])
              · rcases List.mem_cons.mp member with rfl | later
                · rw [headDumped, Option.some.injEq] at dumped
                  exact absurd (dumped ▸ rfl) same
                · exact .inr ⟨entry, later, dumped⟩

theorem segmentOf_cases {process : Process} {entry : Entry}
    {segment : SegInfo} (found : segmentOf md5 process entry = some segment) :
    entry.start < entry.stop ∧ segment.start = entry.start ∧ segment.stop = entry.stop ∧
      (segment.contentFile = "" ∨ ∃ content, process.dumped entry = some content ∧
        segment.contentFile = contentFileName md5 content) := by
  unfold segmentOf at found
  split at found
  · next full =>
    split at found
    · next outcome =>
      cases found
      refine ⟨full.1, rfl, rfl, .inr ⟨_, ?_, rfl⟩⟩
      exact if_pos ⟨full.1, full.2, outcome⟩
    · cases found
      exact ⟨full.1, rfl, rfl, .inl rfl⟩
    · cases found
  · cases found

theorem segmentOf_dumped (md5 : List UInt8 → String) {process : Process} {entry : Entry}
    {content : List UInt8} (dumped : process.dumped entry = some content) :
    ∃ segment, segmentOf md5 process entry = some segment ∧ segment.start = entry.start ∧
      segment.contentFile = contentFileName md5 content := by
  obtain ⟨full, wanted, outcome, rfl⟩ := process.dumped_bytes dumped
  refine ⟨⟨entry.start, entry.stop, entry.objfile, ⟨entry.read, entry.write, entry.execute⟩,
    contentFileName md5 (process.bytes entry.start (entry.stop - entry.start))⟩, ?_, rfl, rfl⟩
  simp [segmentOf, full, wanted, outcome]

theorem dumpProcessMemory_segments {process : Process} (sorted : SortedEntries process.vmmap) :
    (dumpProcessMemory md5 process).finalSegmentList =
      process.vmmap.filterMap (segmentOf md5 process) :=
  foldl_dumpEntry_segments sorted (by simp)

theorem dump_ordered {process : Process} (sorted : SortedEntries process.vmmap) :
    (dumpProcessMemory md5 process).finalSegmentList.Pairwise
      fun lower upper => lower.stop ≤ upper.start := by
  rw [dumpProcessMemory_segments sorted, List.pairwise_filterMap]
  refine sorted.behind.imp fun behind lower lowerFound upper upperFound => ?_
  obtain ⟨lowerFull, _, lowerStop, _⟩ := segmentOf_cases lowerFound
  obtain ⟨upperFull, upperStart, _, _⟩ := segmentOf_cases upperFound
  rw [lowerStop, upperStart]
  exact behind lowerFull upperFull

theorem dumpProcessMemory_files {process : Process} (sorted : SortedEntries process.vmmap)
    (noCollision : NoCollision md5 process) {entry : Entry} {content : List UInt8}
    (member : entry ∈ process.vmmap) (dumped : process.dumped entry = some content) :
    (dumpProcessMemory md5 process).files (contentFileName md5 content) = some content :=
  foldl_dumpEntry_files sorted (by simp) content
    (fun other otherMember found otherDumped same =>
      noCollision other otherMember entry member found content otherDumped dumped same)
    (.inr ⟨entry, member, dumped⟩)

end

/-! ## What the segments cover -/

def Entry.Contains (entry : Entry) (address : Nat) : Prop :=
  entry.start ≤ address ∧ address < entry.stop

def SegInfo.Contains (segment : SegInfo) (address : Nat) : Prop :=
  segment.start ≤ address ∧ address < segment.stop

/-- Separate segments in order, with the addresses of every entry asked for. -/
structure Covers (segments : List SegInfo) (entries : List Entry) (asked : Entry → Prop) :
    Prop where
  disjoint : segments.Pairwise fun left right =>
    ∀ address, ¬ (left.Contains address ∧ right.Contains address)
  increasing : segments.Pairwise fun lower upper => lower.start < upper.start
  nonempty : ∀ segment ∈ segments, segment.start < segment.stop
  covered : ∀ entry ∈ entries, asked entry → ∀ address, entry.Contains address →
    ∃ segment ∈ segments, segment.Contains address

/-- The dumper wants the content, and reading it does not raise an exception. -/
def Process.Readable (process : Process) (entry : Entry) : Prop :=
  entry.wanted = true ∧
    process.readOutcome entry.start (entry.stop - entry.start) ≠ .exception

theorem segmentOf_readable (md5 : List UInt8 → String) {process : Process} {entry : Entry}
    (full : entry.start < entry.stop) (readable : process.Readable entry) :
    ∃ segment, segmentOf md5 process entry = some segment ∧ segment.start = entry.start ∧
      segment.stop = entry.stop := by
  obtain ⟨wanted, noException⟩ := readable
  unfold segmentOf
  cases outcome : process.readOutcome entry.start (entry.stop - entry.start) with
  | content => exact ⟨_, if_pos ⟨full, wanted⟩, rfl, rfl⟩
  | none => exact ⟨_, if_pos ⟨full, wanted⟩, rfl, rfl⟩
  | exception => exact absurd outcome noException

/-- The scan with its last address neither loses nor repeats an address. -/
theorem dumpProcessMemory_covers (md5 : List UInt8 → String) {process : Process}
    (sorted : SortedEntries process.vmmap) :
    Covers (dumpProcessMemory md5 process).finalSegmentList process.vmmap process.Readable := by
  have ordered := @dump_ordered md5 process sorted
  have nonempty : ∀ segment ∈ (dumpProcessMemory md5 process).finalSegmentList,
      segment.start < segment.stop := by
    intro segment member
    rw [dumpProcessMemory_segments sorted] at member
    obtain ⟨entry, _, found⟩ := List.mem_filterMap.mp member
    obtain ⟨full, start, stop, _⟩ := segmentOf_cases found
    exact start ▸ stop ▸ full
  refine ⟨?_, ?_, nonempty, ?_⟩
  · refine ordered.imp fun behind address both => ?_
    exact absurd (Nat.lt_of_lt_of_le both.1.2 (behind.trans both.2.1)) (Nat.lt_irrefl _)
  · refine ordered.imp_of_mem fun lowerMember _ behind => ?_
    exact Nat.lt_of_lt_of_le (nonempty _ lowerMember) behind
  · intro entry member readable address inside
    have full : entry.start < entry.stop := Nat.lt_of_le_of_lt inside.1 inside.2
    obtain ⟨segment, found, start, stop⟩ := segmentOf_readable md5 full readable
    refine ⟨segment, ?_, start ▸ inside.1, stop ▸ inside.2⟩
    rw [dumpProcessMemory_segments sorted]
    exact List.mem_filterMap.mpr ⟨entry, member, found⟩

/-- Two entries that touch, of which the second cannot be read. -/
def halfReadable : Process where
  arch := "x86_64"
  bigEndian := false
  regNames := []
  regs := fun _ => none
  vmmap := [⟨0x1000, 0x2000, "", true, false, false⟩,
    ⟨0x2000, 0x3000, "[vvar]", true, false, false⟩]
  memory := fun _ => 0
  readOutcome := fun start _ => if start = 0x1000 then .content else .exception

theorem halfReadable_sorted : SortedEntries halfReadable.vmmap where
  sorted := by simp [halfReadable]
  disjoint := by simp [halfReadable]
  ordered := by simp [halfReadable]

theorem dumpProcessMemory_covers_halfReadable :
    ∃ segment ∈ (dumpProcessMemory (fun _ => "") halfReadable).finalSegmentList,
      segment.Contains 0x1fff := by
  have covers := dumpProcessMemory_covers (fun _ => "") halfReadable_sorted
  refine covers.covered _ List.mem_cons_self ⟨?_, by decide⟩ 0x1fff ⟨by decide, by decide⟩
  simp [Entry.wanted]

/-- A segment whose reading raises an exception is left out. -/
theorem dumpProcessMemory_leaves_unreadable : ¬ ∀ md5 process,
    SortedEntries process.vmmap →
      Covers (dumpProcessMemory md5 process).finalSegmentList process.vmmap
        (fun entry => entry.wanted = true) := by
  intro claim
  have covers := claim (fun _ => "") halfReadable halfReadable_sorted
  obtain ⟨segment, member, inside⟩ := covers.covered _ (List.mem_cons_of_mem _ List.mem_cons_self)
    (by simp [Entry.wanted]) 0x2000 ⟨by decide, by decide⟩
  have segments : (dumpProcessMemory (fun _ => "") halfReadable).finalSegmentList =
      halfReadable.vmmap.filterMap (segmentOf (fun _ => "") halfReadable) :=
    dumpProcessMemory_segments halfReadable_sorted
  rw [segments] at member
  simp [halfReadable, segmentOf, Entry.wanted] at member
  subst member
  exact absurd inside.2 (by decide)

end SbFuzz.Context
