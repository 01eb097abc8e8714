import SbFuzz.Context.CLoader
import SbFuzz.Context.DumperProperties
import SbFuzz.Context.EmulatorProperties

/-! The round trip of memory through the dumper and the C loader. -/

set_option autoImplicit false

namespace SbFuzz.Context

open Memory (Aligned)

/-! ## Numbers -/

theorem uint64OfNumber_of_aligned {number : Nat} (aligned : Aligned number)
    (word : number < 2 ^ 64) : uint64OfNumber number = some (UInt64.ofNat number) := by
  have divides : 2 ^ 12 ∣ number := Nat.dvd_of_mod_eq_zero aligned
  have exactly : Numeric.toBinary64 number = number :=
    (Numeric.toBinary64_eq_self_iff number).mpr (Numeric.exact_of_dvd divides
      (word.trans (by decide)))
  rw [uint64OfNumber, uint64OfDouble, exactly, if_pos word]

/-! ## One segment -/

/-- A segment that the loader has no reason to complain about. -/
structure Loadable (files : Files) (segment : SegInfo) : Prop where
  nonempty : segment.start < segment.stop
  word : segment.stop < 2 ^ 64
  aligned : Aligned segment.start
  stopAligned : Aligned segment.stop
  content : segment.contentFile.length > 0 → ∃ content,
    files segment.contentFile = some content ∧ content.length = segment.stop - segment.start

/-- These bytes are mapped and in memory from this address on. -/
def ContentAt (emulator : Emulator) (start : Nat) (bytes : List UInt8) : Prop :=
  ∀ (offset : Nat) (inside : offset < bytes.length), emulator.Mapped (start + offset) ∧
    emulator.memory (UInt64.ofNat (start + offset)) = bytes[offset]

/-- The engine from one point of a load to a later one, when all that is loaded
in between lies in `[low, high)`. -/
structure Extends (before after : Loading) (low high : Nat) : Prop where
  errors : after.errors = before.errors
  returned : after.returned = before.returned
  mapped : ∀ address, before.emulator.Mapped address → after.emulator.Mapped address
  blocks : ∀ block ∈ after.emulator.mapped.blocks,
    block ∈ before.emulator.mapped.blocks ∨ block.limit ≤ high
  memory : ∀ byte : UInt64, byte.toNat < low →
    after.emulator.memory byte = before.emulator.memory byte

theorem Permissions.perms_valid (permissions : Permissions) :
    permissions.perms &&& ~~~ucProtAll = 0 := by
  unfold Permissions.perms
  cases permissions.r <;> cases permissions.w <;> cases permissions.x <;> decide

structure Loadable.Words (segment : SegInfo) (segStart segEnd : UInt64) : Prop where
  start : uint64OfNumber segment.start = some segStart
  stop : uint64OfNumber segment.stop = some segEnd
  startValue : segStart.toNat = segment.start
  size : (segEnd - segStart).toNat = segment.stop - segment.start

theorem Loadable.words {files : Files} {segment : SegInfo} (loadable : Loadable files segment) :
    Loadable.Words segment (UInt64.ofNat segment.start) (UInt64.ofNat segment.stop) := by
  have nonempty := loadable.nonempty
  have word := loadable.word
  have startWord : segment.start < 2 ^ 64 := by omega
  have startValue := UInt64.toNat_ofNat_of_lt' startWord
  have stopValue := UInt64.toNat_ofNat_of_lt' word
  refine ⟨uint64OfNumber_of_aligned loadable.aligned startWord,
    uint64OfNumber_of_aligned loadable.stopAligned word, startValue, ?_⟩
  have less : UInt64.ofNat segment.start ≤ UInt64.ofNat segment.stop := by
    rw [UInt64.le_iff_toNat_le]
    omega
  rw [UInt64.toNat_sub_of_le _ _ less, startValue, stopValue]

theorem mapSegment_ok {files : Files} {loading : Loading} {segment : SegInfo}
    (loadable : Loadable files segment) {segStart segEnd : UInt64}
    (words : Loadable.Words segment segStart segEnd)
    (below : ∀ block ∈ loading.emulator.mapped.blocks, block.limit ≤ segment.start) :
    ∃ emulator, mapSegment loading segment.name segStart (segEnd - segStart)
        segment.permissions.perms = { loading with emulator } ∧
      MapResult loading.emulator emulator segStart (segEnd - segStart) := by
  have nonempty := loadable.nonempty
  have word := loadable.word
  have mappable : Mappable loading.emulator segStart (segEnd - segStart)
      segment.permissions.perms := by
    refine ⟨?_, ?_, ?_, ?_, segment.permissions.perms_valid, ?_⟩
    · intro zero
      have size := words.size
      rw [zero] at size
      have : (0 : UInt64).toNat = 0 := rfl
      omega
    · rw [words.startValue, words.size]
      omega
    · rw [words.startValue]
      exact loadable.aligned
    · have start := loadable.aligned
      have stop := loadable.stopAligned
      rw [words.size]
      unfold Aligned Memory.pageSize at start stop ⊢
      omega
    · intro block member meets
      have limit := below block member
      have reaches := meets.2
      rw [words.startValue] at reaches
      omega
  obtain ⟨emulator, mapped⟩ := (loading.emulator.ucMemMap_isOk_iff _ _ _).mpr mappable
  exact ⟨emulator, by rw [mapSegment, mapped], Emulator.ucMemMap_result mapped⟩

theorem writeContent_ok {loading : Loading} {address : UInt64} {bytes : List UInt8}
    (noWrap : address.toNat + bytes.length ≤ 2 ^ 64)
    (mapped : ∀ offset < bytes.length, loading.emulator.Mapped (address.toNat + offset)) :
    ∃ emulator, writeContent loading address bytes = { loading with emulator } ∧
      WriteResult loading.emulator emulator address bytes := by
  obtain ⟨emulator, written, result⟩ := loading.emulator.ucMemWrite_ok noWrap mapped
  exact ⟨emulator, by rw [writeContent, written], result⟩

theorem loadSegment_ok {files : Files} {loading : Loading} {segment : SegInfo}
    (loadable : Loadable files segment) (running : loading.returned = false)
    (below : ∀ block ∈ loading.emulator.mapped.blocks, block.limit ≤ segment.start) :
    Extends loading (loadSegment files loading segment) segment.start segment.stop ∧
      ∀ content, segment.contentFile.length > 0 → files segment.contentFile = some content →
        ContentAt (loadSegment files loading segment).emulator segment.start content := by
  have nonempty := loadable.nonempty
  have word := loadable.word
  have words := loadable.words
  obtain ⟨mapped, mapping, mapResult⟩ := mapSegment_ok loadable words below
  have covered (offset : Nat) (inside : offset < segment.stop - segment.start) :
      mapped.Mapped ((UInt64.ofNat segment.start).toNat + offset) := by
    refine (mapResult.mapped_iff _).mpr (.inr ⟨Nat.le_add_right _ _, ?_⟩)
    rw [words.size]
    omega
  -- both branches write as many bytes as were mapped
  obtain ⟨bytes, loaded, size, isContent⟩ : ∃ bytes : List UInt8,
      loadSegment files loading segment = writeContent { loading with emulator := mapped }
        (UInt64.ofNat segment.start) bytes ∧ bytes.length = segment.stop - segment.start ∧
      ∀ content, segment.contentFile.length > 0 → files segment.contentFile = some content →
        bytes = content := by
    simp only [loadSegment, running, Bool.false_eq_true, if_false, words.start, words.stop,
      mapping]
    split
    · next named =>
      obtain ⟨content, stored, length⟩ := loadable.content named
      rw [stored]
      exact ⟨content, rfl, length, fun other _ same => Option.some.inj same⟩
    · next unnamed =>
      refine ⟨_, rfl, by rw [List.length_replicate, words.size], ?_⟩
      exact fun content named => absurd named unnamed
  have noWrap : (UInt64.ofNat segment.start).toNat + bytes.length ≤ 2 ^ 64 := by
    rw [words.startValue, size]
    omega
  obtain ⟨emulator, written, result⟩ :=
    @writeContent_ok { loading with emulator := mapped } _ _ noWrap (size ▸ covered)
  rw [loaded, written]
  refine ⟨⟨rfl, rfl, ?_, ?_, ?_⟩, ?_⟩
  · intro address was
    exact (Emulator.Mapped.congr result.mapped).mpr ((mapResult.mapped_iff _).mpr (.inl was))
  · intro block member
    change block ∈ emulator.mapped.blocks at member
    rw [result.mapped] at member
    refine (mapResult.blocks block member).imp_right fun range => ?_
    rw [range.2, words.startValue, words.size]
    omega
  · intro byte low
    have outside : byte.toNat < (UInt64.ofNat segment.start).toNat := by
      rw [words.startValue]
      exact low
    exact (result.kept byte (.inl outside)).trans (mapResult.memory byte (.inl outside))
  · intro content named stored
    obtain rfl := isContent content named stored
    intro offset inside
    have address : UInt64.ofNat (segment.start + offset) =
        UInt64.ofNat segment.start + UInt64.ofNat offset := UInt64.ofNat_add _ _
    refine ⟨(Emulator.Mapped.congr result.mapped).mpr ?_, ?_⟩
    · have reached := covered offset (size ▸ inside)
      rwa [words.startValue] at reached
    · rw [address]
      exact result.written offset inside

/-! ## All segments -/

theorem ContentAt.extend {before after : Loading} {low high start : Nat} {bytes : List UInt8}
    (content : ContentAt before.emulator start bytes) (extended : Extends before after low high)
    (below : start + bytes.length ≤ low) (word : low ≤ 2 ^ 64) :
    ContentAt after.emulator start bytes := by
  intro offset inside
  obtain ⟨mapped, same⟩ := content offset inside
  refine ⟨extended.mapped _ mapped, (extended.memory _ ?_).trans same⟩
  have inRange : start + offset < 2 ^ 64 := by omega
  rw [UInt64.toNat_ofNat_of_lt' inRange]
  omega

theorem Extends.refl (loading : Loading) (low high : Nat) : Extends loading loading low high :=
  ⟨rfl, rfl, fun _ mapped => mapped, fun _ member => .inl member, fun _ _ => rfl⟩

theorem Extends.widen {before after : Loading} {low low' high high' : Nat}
    (extended : Extends before after low' high') (lower : low ≤ low') (higher : high' ≤ high) :
    Extends before after low high where
  errors := extended.errors
  returned := extended.returned
  mapped := extended.mapped
  blocks block member :=
    (extended.blocks block member).imp_right fun within => within.trans higher
  memory byte below := extended.memory byte (below.trans_le lower)

theorem Extends.trans {first second third : Loading} {low high : Nat}
    (left : Extends first second low high) (right : Extends second third low high) :
    Extends first third low high where
  errors := right.errors.trans left.errors
  returned := right.returned.trans left.returned
  mapped address was := right.mapped address (left.mapped address was)
  blocks block member := (right.blocks block member).elim (left.blocks block) .inr
  memory byte below := (right.memory byte below).trans (left.memory byte below)

theorem foldl_loadSegment_ok {files : Files} {segments : List SegInfo} {loading : Loading}
    {low : Nat} (loadable : ∀ segment ∈ segments, Loadable files segment)
    (ordered : segments.Pairwise fun lower upper => lower.stop ≤ upper.start)
    (running : loading.returned = false)
    (below : ∀ segment ∈ segments, ∀ block ∈ loading.emulator.mapped.blocks,
      block.limit ≤ segment.start) (above : ∀ segment ∈ segments, low ≤ segment.start) :
    Extends loading (segments.foldl (loadSegment files) loading) low (2 ^ 64) ∧
      ∀ segment ∈ segments, ∀ content, segment.contentFile.length > 0 →
        files segment.contentFile = some content →
        ContentAt (segments.foldl (loadSegment files) loading).emulator segment.start content := by
  induction segments generalizing loading low with
  | nil => exact ⟨Extends.refl loading low _, by simp⟩
  | cons head rest ih =>
      have headLoadable := loadable head List.mem_cons_self
      have nonempty := headLoadable.nonempty
      obtain ⟨headFirst, restOrdered⟩ := List.pairwise_cons.mp ordered
      have inRest {segment : SegInfo} (member : segment ∈ rest) : segment ∈ head :: rest :=
        List.mem_cons_of_mem _ member
      obtain ⟨headExtends, headContent⟩ := loadSegment_ok headLoadable running
        (below head List.mem_cons_self)
      have nextBelow : ∀ segment ∈ rest,
          ∀ block ∈ (loadSegment files loading head).emulator.mapped.blocks,
          block.limit ≤ segment.start := by
        intro segment member block present
        rcases headExtends.blocks block present with old | within
        · exact below segment (inRest member) block old
        · exact within.trans (headFirst segment member)
      obtain ⟨restExtends, restContents⟩ := ih
        (fun segment member => loadable segment (inRest member)) restOrdered
        (headExtends.returned.trans running) nextBelow headFirst
      have belowHead := above head List.mem_cons_self
      refine ⟨(headExtends.widen belowHead headLoadable.word.le).trans
        (restExtends.widen (by omega) le_rfl), ?_⟩
      intro segment member content named found
      rcases List.mem_cons.mp member with rfl | later
      · obtain ⟨_, same, length⟩ := headLoadable.content named
        obtain rfl := Option.some.inj (found.symm.trans same)
        -- what follows lies behind the content of this segment
        exact (headContent content named found).extend restExtends (by omega)
          headLoadable.word.le
      · exact restContents segment later content named found

/-! ## The round trip -/

theorem dump_loadable {md5 : List UInt8 → String} {process : Process}
    (vmmap : Vmmap process.vmmap) (noCollision : NoCollision md5 process) {segment : SegInfo}
    (member : segment ∈ (dumpProcessMemory md5 process).finalSegmentList) :
    Loadable (dumpProcessMemory md5 process).files segment := by
  rw [dumpProcessMemory_segments vmmap.sortedEntries, List.mem_filterMap] at member
  obtain ⟨entry, present, found⟩ := member
  obtain ⟨full, start, stop, named⟩ := segmentOf_cases found
  obtain ⟨aligned, stopAligned⟩ := vmmap.aligned entry present
  refine ⟨by omega, stop ▸ (vmmap.bounded entry present).2, start ▸ aligned, stop ▸ stopAligned,
    fun nonempty => ?_⟩
  rcases named with unnamed | ⟨content, dumped, named⟩
  · rw [unnamed] at nonempty
    exact absurd nonempty (by decide)
  · rw [named]
    refine ⟨content, dumpProcessMemory_files vmmap.sortedEntries noCollision present dumped, ?_⟩
    obtain ⟨_, _, _, rfl⟩ := process.dumped_bytes dumped
    rw [Process.bytes_length, start, stop]

/-- The memory of a process, dumped and then loaded into a fresh engine. -/
def dumpAndLoad (md5 : List UInt8 → String) (process : Process) : Loading :=
  mapSegments (dumpProcessMemory md5 process).files .opened
    (dumpProcessMemory md5 process).finalSegmentList

/-- Every entry that the dumper reads is loaded back byte for byte. -/
theorem dumpAndLoad_roundTrip {md5 : List UInt8 → String} {process : Process}
    (vmmap : Vmmap process.vmmap) (noCollision : NoCollision md5 process) :
    (dumpAndLoad md5 process).errors = [] ∧ (dumpAndLoad md5 process).returned = false ∧
      ∀ entry ∈ process.vmmap, entry.wanted = true →
        process.readOutcome entry.start (entry.stop - entry.start) = .content →
        ∀ address, entry.start ≤ address → address < entry.stop →
          (dumpAndLoad md5 process).emulator.Mapped address ∧
            (dumpAndLoad md5 process).emulator.memory (UInt64.ofNat address) =
              process.memory address := by
  obtain ⟨extended, contents⟩ :=
    @foldl_loadSegment_ok (dumpProcessMemory md5 process).files
      (dumpProcessMemory md5 process).finalSegmentList ⟨.opened, [], false⟩ 0
      (fun segment member => dump_loadable vmmap noCollision member) (dump_ordered vmmap.sortedEntries)
      rfl (fun _ _ block present => by cases present) (fun _ _ => Nat.zero_le _)
  refine ⟨extended.errors, extended.returned,
    fun entry member wanted outcome address low high => ?_⟩
  have full : entry.start < entry.stop := by omega
  have dumped : process.dumped entry =
      some (process.bytes entry.start (entry.stop - entry.start)) := if_pos ⟨full, wanted, outcome⟩
  obtain ⟨segment, found, start, named⟩ := segmentOf_dumped md5 dumped
  have listed : segment ∈ (dumpProcessMemory md5 process).finalSegmentList := by
    rw [dumpProcessMemory_segments vmmap.sortedEntries]
    exact List.mem_filterMap.mpr ⟨entry, member, found⟩
  have stored := dumpProcessMemory_files vmmap.sortedEntries noCollision member dumped
  have content := contents segment listed _ (named ▸ contentFileName_length _)
    (named ▸ stored) (address - entry.start) (by rw [Process.bytes_length]; omega)
  have same : segment.start + (address - entry.start) = address := by omega
  rw [same, Process.bytes_getElem] at content
  have back : entry.start + (address - entry.start) = address := by omega
  rwa [back] at content

def codePage : Entry := ⟨0x400000, 0x401000, "/bin/target", true, false, true⟩

def heapPages : Entry := ⟨0x402000, 0x404000, "[heap]", true, true, false⟩

def stoppedProcess : Process where
  arch := "i386"
  bigEndian := false
  regNames := []
  regs := fun _ => none
  vmmap := [codePage, ⟨0x401000, 0x402000, "", false, false, false⟩,
    ⟨0x402000, 0x402000, "", true, false, false⟩, heapPages]
  memory := fun address => if address < 0x402000 then 0x90 else 0
  readOutcome := fun _ _ => .content

def stoppedMd5 (content : List UInt8) : String :=
  if content.head? = some 0x90 then "4a405984dac8fa524b191dcbcff99ed8"
  else "0829f71740aab1ab98b33eae21dee122"

theorem stoppedProcess_vmmap : Vmmap stoppedProcess.vmmap where
  sorted := by decide
  disjoint := by decide
  bounded := by decide
  aligned := by decide

theorem stoppedMd5_dumped {entry : Entry} {content : List UInt8}
    (dumped : stoppedProcess.dumped entry = some content) :
    stoppedMd5 content = if entry.start < 0x402000 then "4a405984dac8fa524b191dcbcff99ed8"
      else "0829f71740aab1ab98b33eae21dee122" := by
  obtain ⟨full, _, _, rfl⟩ := stoppedProcess.dumped_bytes dumped
  obtain ⟨size, same⟩ : ∃ size, entry.stop - entry.start = size + 1 :=
    ⟨entry.stop - entry.start - 1, by omega⟩
  rw [same]
  simp only [stoppedMd5, Process.bytes, List.range_succ_eq_map, List.map_cons, List.head?_cons,
    stoppedProcess, Nat.add_zero, Option.some.injEq]
  split <;> rfl

theorem stoppedProcess_noCollision : NoCollision stoppedMd5 stoppedProcess := by
  have cases (entry : Entry) (member : entry ∈ stoppedProcess.vmmap) (content : List UInt8)
      (dumped : stoppedProcess.dumped entry = some content) :
      entry = codePage ∨ entry = heapPages := by
    obtain ⟨full, wanted, _⟩ := stoppedProcess.dumped_bytes dumped
    simp only [stoppedProcess, List.mem_cons, List.not_mem_nil, or_false] at member
    rcases member with rfl | rfl | rfl | rfl
    · exact .inl rfl
    · exact absurd wanted (by decide)
    · exact absurd full (by decide)
    · exact .inr rfl
  intro left leftMember right rightMember first second leftDumped rightDumped same
  rw [stoppedMd5_dumped leftDumped, stoppedMd5_dumped rightDumped] at same
  rcases cases left leftMember first leftDumped with rfl | rfl <;>
    rcases cases right rightMember second rightDumped with rfl | rfl
  · exact Option.some.inj (leftDumped.symm.trans rightDumped)
  · exact absurd same (by decide)
  · exact absurd same (by decide)
  · exact Option.some.inj (leftDumped.symm.trans rightDumped)

theorem dumpAndLoad_roundTrip_stoppedProcess :
    (dumpAndLoad stoppedMd5 stoppedProcess).errors = [] ∧
      (dumpAndLoad stoppedMd5 stoppedProcess).emulator.memory (UInt64.ofNat codePage.start) =
        stoppedProcess.memory codePage.start := by
  obtain ⟨errors, _, memory⟩ :=
    dumpAndLoad_roundTrip stoppedProcess_vmmap stoppedProcess_noCollision
  have code := memory codePage List.mem_cons_self (by decide) rfl codePage.start le_rfl (by decide)
  exact ⟨errors, code.2⟩

end SbFuzz.Context
