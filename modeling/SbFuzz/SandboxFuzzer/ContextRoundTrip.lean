import SbFuzz.Context.DumperProperties
import SbFuzz.SandboxFuzzer.MapSegments

/-! Contexts of the pwndbg dumper in the C++ loader: when the architecture, the
registers and the memory of a process come back. -/

set_option autoImplicit false

namespace SbFuzz.SandboxFuzzer

open Context
open Memory (Aligned pageDown pageUp)

/-! ## Segments in order -/

/-- Segments of whole pages, one behind the other. -/
structure InOrder (segmentList : List SegInfo) : Prop where
  behind : segmentList.Pairwise fun lower upper => lower.stop ≤ upper.start
  nonempty : ∀ segment ∈ segmentList, segment.start < segment.stop
  aligned : ∀ segment ∈ segmentList, Aligned segment.start ∧ Aligned segment.stop
  bounded : ∀ segment ∈ segmentList, segment.stop < 2 ^ 64

theorem InOrder.init {init : List SegInfo} {last : SegInfo} (inOrder : InOrder (init ++ [last])) :
    InOrder init where
  behind := (List.pairwise_append.mp inOrder.behind).1
  nonempty := fun segment member => inOrder.nonempty segment (List.mem_append_left _ member)
  aligned := fun segment member => inOrder.aligned segment (List.mem_append_left _ member)
  bounded := fun segment member => inOrder.bounded segment (List.mem_append_left _ member)

theorem InOrder.before_last {init : List SegInfo} {last segment : SegInfo}
    (inOrder : InOrder (init ++ [last])) (member : segment ∈ init) :
    segment.stop ≤ last.start :=
  (List.pairwise_append.mp inOrder.behind).2.2 segment member last (List.mem_singleton_self last)

/-- Segments that the loader does not skip. -/
def Accepted (segment : SegInfo) : Prop := segment.stop - segment.start ≤ 1024 * 1024 * 1024

instance (segment : SegInfo) : Decidable (Accepted segment) := inferInstanceAs (Decidable (_ ≤ _))

theorem InOrder.valid {segmentList : List SegInfo} {segment : SegInfo}
    (inOrder : InOrder segmentList) (member : segment ∈ segmentList)
    (accepted : Accepted segment) : ValidSegment segment where
  nonempty := inOrder.nonempty segment member
  small := accepted
  noWrap := by
    have stopAligned := (inOrder.aligned segment member).2
    have bounded := inOrder.bounded segment member
    unfold Aligned Memory.pageSize at stopAligned
    omega

/-! ## One segment -/

section

variable (uncompress : Uncompress) (files : Files)

/-- The bytes that are loaded for a segment, or what ends the program. -/
def loadedBytes (segment : SegInfo) : Except EngineFailure (List UInt8) :=
  contentOf uncompress files segment.contentFile (segment.stop - segment.start)

structure RoundResult (before after : Emulator) (segment : SegInfo) (data : List UInt8) :
    Prop where
  mapped : ∀ address, after.Mapped address ↔
    before.Mapped address ∨ (segment.start ≤ address ∧ address < segment.stop)
  loaded : ∀ offset < segment.stop - segment.start,
    after.memory (UInt64.ofNat (segment.start + offset)) = data.getD offset 0
  kept : ∀ byte : UInt64, byte.toNat < segment.start → after.memory byte = before.memory byte
  registers : after.registers = before.registers

variable {uncompress files}

theorem EngineLoad.segment_skipped {load : EngineLoad} {segment : SegInfo}
    (nonempty : segment.start < segment.stop) (bounded : segment.stop < 2 ^ 64)
    (skipped : ¬ Accepted segment) : load.segment uncompress files segment = load := by
  have large : UInt64.ofNat segment.stop - UInt64.ofNat segment.start > maxAllowableSegSize :=
    (skipped_iff nonempty.le bounded).mpr (Nat.not_le.mp skipped)
  unfold EngineLoad.segment
  simp only [large, if_true, ite_self]

theorem EngineLoad.mapOverlapping_behind {load : EngineLoad} {segment : SegInfo}
    (valid : ValidSegment segment)
    (aligned : Aligned segment.start ∧ Aligned segment.stop)
    (behind : ∀ block ∈ load.emulator.mapped.blocks, block.limit ≤ segment.start) :
    ∃ emulator address size asked,
      load.mapOverlapping (UInt64.ofNat segment.start) (UInt64.ofNat segment.stop)
        (segPerms segment.permissions) = { load with emulator, asked } ∧
      MapResult load.emulator emulator address size ∧
      address.toNat = segment.start ∧ address.toNat + size.toNat = segment.stop := by
  obtain ⟨startValue, stopValue⟩ := valid.words
  have nonempty := valid.nonempty
  have noWrap := valid.noWrap
  have bounded : Bounded load.emulator := by
    intro block member
    have below := behind block member
    omega
  obtain ⟨overlap, spec, outcome⟩ := load.mapOverlapping_outcome
    (UInt64.ofNat segment.start) (UInt64.ofNat segment.stop) segment.permissions
    (by rw [startValue, stopValue]; exact nonempty) (by rw [stopValue]; exact noWrap) bounded
  rw [startValue, stopValue] at spec outcome
  have outside : ∀ block ∈ load.emulator.mapped.blocks, ¬ Contains block segment.start := by
    intro block member contains
    exact Nat.not_lt.mpr (behind block member) contains.2
  have free : overlap = .none := by
    cases spec with
    | none _ => rfl
    | pass member starts _ => exact absurd starts (outside _ member)
    | overlapStart member starts _ _ => exact absurd starts (outside _ member)
    | overlapEnd member ends _ _ =>
        have below := behind _ member
        have reached := ends.2
        omega
  subst free
  have low : pageDown segment.start = segment.start := aligned.1.pageDown
  have high : pageUp segment.stop = segment.stop := aligned.2.pageUp
  simp only [Overlap.range, low, high] at outcome
  generalize mapping : load.mapOverlapping (UInt64.ofNat segment.start)
    (UInt64.ofNat segment.stop) (segPerms segment.permissions) = after at outcome
  cases outcome with
  | nothing empty => omega
  | mapped _ start stop _ result => exact ⟨_, _, _, _, rfl, result, start, stop⟩
  | refused _ _ _ taken =>
      obtain ⟨block, member, meets⟩ := taken
      exact absurd meets.2 (Nat.not_lt.mpr (behind block member))

theorem EngineLoad.segment_behind (uncompress : Uncompress) (files : Files) {load : EngineLoad}
    {segment : SegInfo} (valid : ValidSegment segment) (running : load.failure = none)
    (aligned : Aligned segment.start ∧ Aligned segment.stop)
    (behind : ∀ block ∈ load.emulator.mapped.blocks, block.limit ≤ segment.start) :
    (∀ failure, loadedBytes uncompress files segment = .error failure →
      (load.segment uncompress files segment).failure = some failure) ∧
    ∀ data, loadedBytes uncompress files segment = .ok data →
      (load.segment uncompress files segment).failure = none ∧
      RoundResult load.emulator (load.segment uncompress files segment).emulator segment data := by
  obtain ⟨startValue, stopValue⟩ := valid.words
  have nonempty := valid.nonempty
  have noWrap := valid.noWrap
  obtain ⟨emulator, address, size, asked, mapping, result, start, stop⟩ :=
    EngineLoad.mapOverlapping_behind valid aligned behind
  have unfolded := EngineLoad.segment_accepted uncompress files valid running mapping
  simp only [running, Option.isSome_none, Bool.false_eq_true, if_false] at unfolded
  have mapped : ∀ byte, segment.start ≤ byte → byte < segment.stop → emulator.Mapped byte := by
    intro byte above below
    exact (result.mapped_iff byte).mpr (.inr ⟨by omega, by omega⟩)
  have outcome := EngineLoad.loadContent_outcome uncompress files
    { load with emulator, asked, failure := none } (UInt64.ofNat segment.start)
    (UInt64.ofNat segment.stop) segment.contentFile (by omega)
    (by rw [startValue, stopValue]; exact mapped)
  rw [startValue, stopValue] at outcome
  change ContentOutcome _ _ (loadedBytes uncompress files segment) _ at outcome
  rw [unfolded]
  generalize EngineLoad.loadContent _ _ _ _ _ _ = after at outcome
  generalize loadedBytes uncompress files segment = content at outcome
  cases outcome with
  | failed failure =>
      constructor
      · intro other same
        cases same
        rfl
      · intro data same
        cases same
  | @written data final written =>
      constructor
      · intro failure same
        cases same
      intro bytes same
      cases same
      refine ⟨rfl, ?_, ?_, ?_, written.registers.trans result.registers⟩
      · intro byte
        rw [← start, ← stop, ← result.mapped_iff byte]
        exact Emulator.Mapped.congr written.mapped
      · intro offset inside
        have word : segment.start + offset < 2 ^ 64 := by omega
        have value := UInt64.toNat_ofNat_of_lt' word
        by_cases present : offset < data.length
        · rw [UInt64.ofNat_add, written.written offset present, List.getD_eq_getElem _ _ present]
        · rw [written.kept _ (.inr (by omega)), result.zeroed _ (by omega) (by omega),
            List.getD_eq_default _ _ (Nat.not_lt.mp present)]
      · intro byte below
        rw [written.kept byte (.inl (by omega)), result.memory byte (.inl (by omega))]

/-! ## All segments -/

structure LoadedAll (uncompress : Uncompress) (files : Files) (before after : Emulator)
    (segmentList : List SegInfo) : Prop where
  mapped : ∀ address, after.Mapped address ↔
    ∃ segment ∈ segmentList, Accepted segment ∧ segment.start ≤ address ∧ address < segment.stop
  loaded : ∀ segment ∈ segmentList, Accepted segment →
    ∃ data, loadedBytes uncompress files segment = .ok data ∧
      ∀ offset < segment.stop - segment.start,
        after.memory (UInt64.ofNat (segment.start + offset)) = data.getD offset 0
  registers : after.registers = before.registers

/-- In a list in order the blocks of earlier segments end before the next one. -/
theorem LoadedAll.behind {before after : Emulator} {init : List SegInfo} {last : SegInfo}
    (loadedAll : LoadedAll uncompress files before after init)
    (inOrder : InOrder (init ++ [last])) :
    ∀ block ∈ after.mapped.blocks, block.limit ≤ last.start := by
  intro block member
  have full := block.first_lt_limit
  obtain ⟨segment, earlier, _, _, inside⟩ := (loadedAll.mapped (block.limit - 1)).mp
    ⟨block, member, by omega, by omega⟩
  have before := inOrder.before_last earlier
  omega

theorem LoadedAll.skip {before after : Emulator} {init : List SegInfo} {last : SegInfo}
    (loadedAll : LoadedAll uncompress files before after init) (skipped : ¬ Accepted last) :
    LoadedAll uncompress files before after (init ++ [last]) := by
  refine ⟨fun address => ?_, fun segment member accepted => ?_, loadedAll.registers⟩
  · rw [loadedAll.mapped]
    simp [or_and_right, exists_or, skipped]
  · rcases List.mem_append.mp member with old | new
    · exact loadedAll.loaded segment old accepted
    · obtain rfl := List.mem_singleton.mp new
      exact absurd accepted skipped

theorem LoadedAll.snoc {before between after : Emulator} {init : List SegInfo} {last : SegInfo}
    {data : List UInt8} (loadedAll : LoadedAll uncompress files before between init)
    (inOrder : InOrder (init ++ [last])) (accepted : Accepted last)
    (content : loadedBytes uncompress files last = .ok data)
    (round : RoundResult between after last data) :
    LoadedAll uncompress files before after (init ++ [last]) := by
  refine ⟨fun address => ?_, fun segment member small => ?_,
    round.registers.trans loadedAll.registers⟩
  · rw [round.mapped, loadedAll.mapped]
    simp [or_and_right, exists_or, accepted]
  · rcases List.mem_append.mp member with old | new
    · obtain ⟨bytes, found, same⟩ := loadedAll.loaded segment old small
      refine ⟨bytes, found, fun offset inside => ?_⟩
      have before := inOrder.before_last old
      have bounded := inOrder.bounded segment member
      have word : segment.start + offset < 2 ^ 64 := by omega
      rw [round.kept _ (by rw [UInt64.toNat_ofNat_of_lt' word]; omega)]
      exact same offset inside
    · obtain rfl := List.mem_singleton.mp new
      exact ⟨data, content, round.loaded⟩

theorem mapSegments_loadedAll {emulator : Emulator} {segmentList : List SegInfo}
    (fresh : emulator.mapped.blocks = []) (inOrder : InOrder segmentList)
    (succeeded : (mapSegments uncompress files emulator segmentList).failure = none) :
    LoadedAll uncompress files emulator
      (mapSegments uncompress files emulator segmentList).emulator segmentList := by
  induction segmentList using List.reverseRecOn with
  | nil => exact ⟨by simp [mapSegments, Emulator.Mapped, fresh], by simp, rfl⟩
  | append_singleton init last ih =>
      rw [mapSegments_snoc] at succeeded ⊢
      have running : (mapSegments uncompress files emulator init).failure = none := by
        cases stopped : (mapSegments uncompress files emulator init).failure with
        | none => rfl
        | some failure =>
            rw [EngineLoad.segment_stopped uncompress files stopped, stopped] at succeeded
            cases succeeded
      have loadedAll := ih inOrder.init running
      have isLast : last ∈ init ++ [last] := List.mem_append_right _ List.mem_cons_self
      by_cases accepted : Accepted last
      · obtain ⟨failing, loading⟩ := EngineLoad.segment_behind uncompress files
          (inOrder.valid isLast accepted) running (inOrder.aligned last isLast)
          (loadedAll.behind inOrder)
        cases content : loadedBytes uncompress files last with
        | error failure =>
            rw [failing failure content] at succeeded
            cases succeeded
        | ok data => exact loadedAll.snoc inOrder accepted content (loading data content).2
      · rw [EngineLoad.segment_skipped (inOrder.nonempty last isLast)
          (inOrder.bounded last isLast) accepted]
        exact loadedAll.skip accepted

theorem mapSegments_succeeds {emulator : Emulator} {segmentList : List SegInfo}
    (fresh : emulator.mapped.blocks = []) (inOrder : InOrder segmentList)
    (loadable : ∀ segment ∈ segmentList, Accepted segment →
      ∃ data, loadedBytes uncompress files segment = .ok data) :
    (mapSegments uncompress files emulator segmentList).failure = none := by
  induction segmentList using List.reverseRecOn with
  | nil => rfl
  | append_singleton init last ih =>
      have running := ih inOrder.init fun segment member =>
        loadable segment (List.mem_append_left _ member)
      have isLast : last ∈ init ++ [last] := List.mem_append_right _ List.mem_cons_self
      rw [mapSegments_snoc]
      by_cases accepted : Accepted last
      · obtain ⟨data, content⟩ := loadable last isLast accepted
        obtain ⟨_, loading⟩ := EngineLoad.segment_behind uncompress files
          (inOrder.valid isLast accepted) running (inOrder.aligned last isLast)
          ((mapSegments_loadedAll fresh inOrder.init running).behind inOrder)
        exact (loading data content).1
      · rw [EngineLoad.segment_skipped (inOrder.nonempty last isLast)
          (inOrder.bounded last isLast) accepted]
        exact running

end

/-! ## Registers -/

theorem loadRegisters_ok_iff (regs registerMap : List (String × Nat)) (emulator : Emulator) :
    (∃ next, loadRegisters regs registerMap emulator = .ok next) ↔
      ∀ entry ∈ registerMap, ∃ value, regs.lookup entry.1 = some value := by
  induction registerMap generalizing emulator with
  | nil => simp [loadRegisters]
  | cons head rest ih =>
      obtain ⟨name, regid⟩ := head
      simp only [loadRegisters, List.forall_mem_cons]
      cases regs.lookup name with
      | none => simp
      | some value => simp [ih]

theorem loadRegisters_result {regs registerMap : List (String × Nat)} {emulator next : Emulator}
    (loaded : loadRegisters regs registerMap emulator = .ok next)
    (distinct : (registerMap.map Prod.snd).Nodup) :
    next.mapped = emulator.mapped ∧
      (∀ entry ∈ registerMap, ∃ value, regs.lookup entry.1 = some value ∧
        next.registers entry.2 = UInt64.ofNat value) ∧
      ∀ regid, regid ∉ registerMap.map Prod.snd →
        next.registers regid = emulator.registers regid := by
  induction registerMap generalizing emulator with
  | nil =>
      cases loaded
      exact ⟨rfl, by simp, fun _ _ => rfl⟩
  | cons head rest ih =>
      obtain ⟨name, regid⟩ := head
      obtain ⟨isNew, restDistinct⟩ := List.nodup_cons.mp distinct
      simp only [loadRegisters] at loaded
      cases found : regs.lookup name with
      | none =>
          rw [found] at loaded
          cases loaded
      | some value =>
          rw [found] at loaded
          obtain ⟨mapped, written, kept⟩ := ih loaded restDistinct
          refine ⟨mapped, ?_, ?_⟩
          · intro entry member
            rcases List.mem_cons.mp member with rfl | later
            · exact ⟨value, found, (kept regid isNew).trans (if_pos rfl)⟩
            · exact written entry later
          · intro other absent
            simp only [List.map_cons, List.mem_cons, not_or] at absent
            exact (kept other absent.2).trans (if_neg absent.1)

theorem getRegisterMap_distinct : ((getRegisterMap ucMode32).map Prod.snd).Nodup := by decide

theorem lookup_cons_ite {Value : Type} (key other : String) (value : Value)
    (entries : List (String × Value)) :
    ((key, value) :: entries).lookup other =
      if other = key then some value else entries.lookup other := by
  rw [List.lookup_cons]
  by_cases same : other = key
  · simp [same]
  · simp [same, beq_eq_false_iff_ne.mpr same]

theorem lookup_assign {Value : Type} (key other : String) (value : Value)
    (entries : List (String × Value)) :
    (assign key value entries).lookup other =
      if other = key then some value else entries.lookup other := by
  induction entries with
  | nil => exact lookup_cons_ite key other value []
  | cons head rest ih =>
      obtain ⟨name, old⟩ := head
      simp only [assign]
      split
      · next here =>
        subst here
        simp only [lookup_cons_ite]
        split <;> rfl
      · next elsewhere =>
        simp only [lookup_cons_ite, ih]
        split
        · next same =>
          subst same
          rw [if_neg elsewhere]
        · rfl

/-- A process has a register that is dumped under a name. -/
def HasRegister (process : Process) (name : String) (value : UInt64) : Prop :=
  ∃ reg ∈ process.regNames, stripReg reg = name ∧ process.regs reg = some value

theorem lookup_dumpReg (process : Process) (regState : List (String × Nat)) (reg name : String) :
    (dumpReg process regState reg).lookup name =
      if name = stripReg reg then ((process.regs reg).map UInt64.toNat).or (regState.lookup name)
      else regState.lookup name := by
  unfold dumpReg
  cases process.regs reg with
  | none => simp
  | some value =>
      rw [lookup_assign]
      simp

theorem dumpRegs_lookup {process : Process} {name : String} :
    (∀ number, (dumpRegs process).lookup name = some number →
      ∃ value, HasRegister process name value ∧ value.toNat = number) ∧
    ∀ value, HasRegister process name value →
      ∃ number, (dumpRegs process).lookup name = some number := by
  unfold dumpRegs HasRegister
  generalize process.regNames = regNames
  induction regNames using List.reverseRecOn with
  | nil => simp
  | append_singleton init last ih =>
      obtain ⟨sound, complete⟩ := ih
      simp only [List.foldl_append, List.foldl_cons, List.foldl_nil, lookup_dumpReg]
      have older : ∀ value, (∃ reg ∈ init, stripReg reg = name ∧ process.regs reg = some value) →
          ∃ reg ∈ init ++ [last], stripReg reg = name ∧ process.regs reg = some value := by
        rintro value ⟨reg, member, found⟩
        exact ⟨reg, List.mem_append_left _ member, found⟩
      constructor
      · intro number found
        split at found
        · next same =>
          cases read : process.regs last with
          | none =>
              rw [read] at found
              obtain ⟨value, present, number⟩ := sound number found
              exact ⟨value, older value present, number⟩
          | some value =>
              rw [read] at found
              exact ⟨value, ⟨last, by simp, same.symm, read⟩, Option.some.inj found⟩
        · obtain ⟨value, present, number⟩ := sound number found
          exact ⟨value, older value present, number⟩
      · rintro value ⟨reg, member, named, read⟩
        rcases List.mem_append.mp member with old | new
        · obtain ⟨number, found⟩ := complete value ⟨reg, old, named, read⟩
          split
          · rw [found]
            cases process.regs last with
            | none => exact ⟨number, rfl⟩
            | some other => exact ⟨other.toNat, rfl⟩
          · exact ⟨number, found⟩
        · obtain rfl := List.mem_singleton.mp new
          rw [if_pos named.symm, read]
          exact ⟨value.toNat, rfl⟩

/-! ## Architectures -/

/-- The architecture and mode that the names of the dumper stand for: the
`arch_map` of the Python loader. -/
def pythonArchMap : List (String × UcSettings) :=
  [("x64", ⟨ucArchX86, ucMode64⟩), ("x86", ⟨ucArchX86, ucMode32⟩), ("arm64be", ⟨2, 1 <<< 30⟩),
    ("arm64le", ⟨2, 0⟩), ("armbe", ⟨1, 1 <<< 30⟩), ("armle", ⟨1, 0⟩),
    ("armbethumb", ⟨1, 1 <<< 4 ||| 1 <<< 30⟩), ("armlethumb", ⟨1, 1 <<< 4⟩),
    ("mips", ⟨3, 1 <<< 2 ||| 1 <<< 30⟩), ("mipsel", ⟨3, 1 <<< 2⟩)]

theorem mapArch_names {process : Process} {name : String} (named : mapArch process = some name) :
    name ∈ "" :: pythonArchMap.map Prod.fst := by
  unfold mapArch at named
  simp only [Bool.or_eq_true] at named
  split at named
  · cases named
    decide
  split at named
  · cases named
    decide
  split at named
  · cases named
    decide
  split at named
  · cases named
    decide
  split at named
  · obtain ⟨thumb, _, rfl⟩ := Option.map_eq_some_iff.mp named
    cases thumb <;> cases process.bigEndian <;> decide
  split at named
  · cases named
    cases process.bigEndian <;> decide
  · cases named
    decide

/-- `x86` is the only name of the dumper that the loader can open an engine for. -/
theorem ucOpen_getArchAndMode_iff {process : Process} {name : String}
    (named : mapArch process = some name) :
    ucOpen (getArchAndMode name) = true ↔ name = "x86" := by
  have loop : ∀ other ∈ "" :: pythonArchMap.map Prod.fst,
      (ucOpen (getArchAndMode other) = true ↔ other = "x86") := by decide
  exact loop name (mapArch_names named)

/-! ## The context of a process -/

/-- The engine has the architecture, the registers and the memory of the process. -/
structure Reconstructed (process : Process) (settings : UcSettings) (emulator : Emulator) :
    Prop where
  arch : (mapArch process).bind (pythonArchMap.lookup ·) = some settings
  registers : ∀ entry ∈ getRegisterMap settings.mode,
    HasRegister process entry.1 (emulator.registers entry.2)
  memory : ∀ entry ∈ process.vmmap, ∀ content, process.dumped entry = some content →
    ∀ (offset : Nat) (inside : offset < content.length),
      emulator.Mapped (entry.start + offset) ∧
        emulator.memory (UInt64.ofNat (entry.start + offset)) = content[offset]

/-- What the encodings of the dumper and the decodings of the loader have in common. -/
structure Compatible (uncompress : Uncompress) (process : Process) : Prop where
  arch : mapArch process = some "x86"
  registers : ∀ entry ∈ getRegisterMap ucMode32, ∃ value, HasRegister process entry.1 value
  contents : ∀ entry ∈ process.vmmap, ∀ content, process.dumped entry = some content →
    content.length ≤ 1024 * 1024 * 1024 ∧
      ∃ data, uncompress.decode content content.length = some data ∧
        ∀ (offset : Nat) (inside : offset < content.length),
          data.getD offset 0 = content[offset]

theorem mem_dump_iff {md5 : List UInt8 → String} {process : Process}
    (vmmap : Vmmap process.vmmap) {segment : SegInfo} :
    segment ∈ (dumpProcessMemory md5 process).finalSegmentList ↔
      ∃ entry ∈ process.vmmap, segmentOf md5 process entry = some segment := by
  rw [dumpProcessMemory_segments vmmap.sortedEntries, List.mem_filterMap]

theorem dump_inOrder (md5 : List UInt8 → String) {process : Process}
    (vmmap : Vmmap process.vmmap) :
    InOrder (dumpProcessMemory md5 process).finalSegmentList := by
  refine ⟨dump_ordered vmmap.sortedEntries, ?_, ?_, ?_⟩
  · intro segment member
    obtain ⟨entry, _, found⟩ := (mem_dump_iff vmmap).mp member
    obtain ⟨full, start, stop, _⟩ := segmentOf_cases found
    omega
  · intro segment member
    obtain ⟨entry, present, found⟩ := (mem_dump_iff vmmap).mp member
    obtain ⟨_, start, stop, _⟩ := segmentOf_cases found
    rw [start, stop]
    exact vmmap.aligned entry present
  · intro segment member
    obtain ⟨entry, present, found⟩ := (mem_dump_iff vmmap).mp member
    obtain ⟨_, _, stop, _⟩ := segmentOf_cases found
    rw [stop]
    exact (vmmap.bounded entry present).2

/-- The loader uncompresses what the dumper wrote as it is. -/
theorem loadedBytes_dumped (uncompress : Uncompress) {md5 : List UInt8 → String}
    {process : Process} (vmmap : Vmmap process.vmmap) (noCollision : NoCollision md5 process)
    {entry : Entry} (present : entry ∈ process.vmmap) {segment : SegInfo} {content : List UInt8}
    (found : segmentOf md5 process entry = some segment)
    (dumped : process.dumped entry = some content) :
    segment.start = entry.start ∧ segment.stop - segment.start = content.length ∧
      ∀ data, loadedBytes uncompress (dumpProcessMemory md5 process).files segment = .ok data ↔
        uncompress.decode content content.length = some data := by
  obtain ⟨same, sameFound, start, named⟩ := segmentOf_dumped md5 dumped
  obtain rfl := Option.some.inj (found.symm.trans sameFound)
  obtain ⟨_, _, stop, _⟩ := segmentOf_cases found
  obtain ⟨_, _, _, bytes⟩ := process.dumped_bytes dumped
  have size : segment.stop - segment.start = content.length := by
    rw [bytes, Process.bytes_length, start, stop]
  refine ⟨start, size, fun data => ?_⟩
  have stored := dumpProcessMemory_files vmmap.sortedEntries noCollision present dumped
  have nonempty : segment.contentFile.length > 0 := named ▸ contentFileName_length content
  unfold loadedBytes contentOf
  rw [if_pos nonempty, named, stored, size]
  cases decoded : uncompress.decode content content.length <;> simp [decoded]

theorem aflUnicornEngine_ok {uncompress : Uncompress} {directory : ContextDirectory}
    {settings : UcSettings} {emulator : Emulator}
    (loaded : aflUnicornEngine uncompress directory = .ok (settings, emulator)) :
    settings = getArchAndMode directory.index.arch ∧ ucOpen settings = true ∧
      ∃ started, loadRegisters directory.index.regs (getRegisterMap settings.mode) .opened =
          .ok started ∧
        (mapSegments uncompress directory.files started directory.index.segments).failure = none ∧
        (mapSegments uncompress directory.files started directory.index.segments).emulator =
          emulator := by
  simp only [aflUnicornEngine] at loaded
  split at loaded
  · next opened =>
    cases registers : loadRegisters directory.index.regs
        (getRegisterMap (getArchAndMode directory.index.arch).mode) .opened with
    | error failure =>
        rw [registers] at loaded
        cases loaded
    | ok started =>
        simp only [registers] at loaded
        cases stopped : (mapSegments uncompress directory.files started
            directory.index.segments).failure with
        | some failure =>
            rw [stopped] at loaded
            cases loaded
        | none =>
            rw [stopped] at loaded
            cases loaded
            exact ⟨rfl, opened, started, registers, stopped, rfl⟩
  · cases loaded

theorem aflUnicornEngine_of_steps (uncompress : Uncompress) (directory : ContextDirectory)
    {started : Emulator} (opened : ucOpen (getArchAndMode directory.index.arch) = true)
    (registers : loadRegisters directory.index.regs
      (getRegisterMap (getArchAndMode directory.index.arch).mode) .opened = .ok started)
    (succeeded : (mapSegments uncompress directory.files started
      directory.index.segments).failure = none) :
    aflUnicornEngine uncompress directory = .ok (getArchAndMode directory.index.arch,
      (mapSegments uncompress directory.files started directory.index.segments).emulator) := by
  simp only [aflUnicornEngine]
  rw [if_pos opened, registers]
  simp only [succeeded]

section

variable {md5 : List UInt8 → String} {uncompress : Uncompress} {process : Process}
  {directory : ContextDirectory}

theorem compatible_of_reconstructed (vmmap : Vmmap process.vmmap)
    (noCollision : NoCollision md5 process) (accepted : dumpContext md5 process = some directory)
    {settings : UcSettings} {emulator : Emulator}
    (loaded : aflUnicornEngine uncompress directory = .ok (settings, emulator))
    (reconstructed : Reconstructed process settings emulator) :
    Compatible uncompress process := by
  obtain ⟨name, named, rfl⟩ := Option.map_eq_some_iff.mp accepted
  obtain ⟨rfl, opened, started, registers, succeeded, rfl⟩ := aflUnicornEngine_ok loaded
  obtain rfl := (ucOpen_getArchAndMode_iff named).mp opened
  have distinct := getRegisterMap_distinct
  obtain ⟨mapped, _, _⟩ := loadRegisters_result registers distinct
  have inOrder := dump_inOrder md5 vmmap
  have loadedAll := mapSegments_loadedAll (by rw [mapped]; rfl) inOrder succeeded
  refine ⟨named, fun entry member => ⟨_, reconstructed.registers entry member⟩, ?_⟩
  intro entry present content dumped
  obtain ⟨segment, found, _⟩ := segmentOf_dumped md5 dumped
  obtain ⟨start, size, decodes⟩ :=
    loadedBytes_dumped uncompress vmmap noCollision present found dumped
  have listed := (mem_dump_iff vmmap).mpr ⟨entry, present, found⟩
  have nonempty := inOrder.nonempty segment listed
  have same := reconstructed.memory entry present content dumped
  -- a segment that was skipped is not mapped by another one
  have small : Accepted segment := by
    obtain ⟨other, otherListed, otherSmall, above, below⟩ :=
      (loadedAll.mapped _).mp (same 0 (by omega)).1
    by_contra skipped
    have distinct : other ≠ segment := fun isSegment => skipped (isSegment ▸ otherSmall)
    rcases pairwise_either inOrder.behind otherListed listed distinct with before | behind
    · omega
    · omega
  obtain ⟨data, content_, memory⟩ := loadedAll.loaded segment listed small
  refine ⟨size ▸ small, data, (decodes data).mp content_, fun offset inside => ?_⟩
  rw [← memory offset (by omega), start]
  exact (same offset inside).2

theorem reconstructed_of_compatible (vmmap : Vmmap process.vmmap)
    (noCollision : NoCollision md5 process) (accepted : dumpContext md5 process = some directory)
    (compatible : Compatible uncompress process) :
    ∃ settings emulator, aflUnicornEngine uncompress directory = .ok (settings, emulator) ∧
      Reconstructed process settings emulator := by
  obtain ⟨name, named, rfl⟩ := Option.map_eq_some_iff.mp accepted
  obtain rfl : name = "x86" := Option.some.inj (named.symm.trans compatible.arch)
  have inOrder := dump_inOrder md5 vmmap
  have present : ∀ entry ∈ getRegisterMap ucMode32,
      ∃ number, (dumpRegs process).lookup entry.1 = some number := by
    intro entry member
    obtain ⟨value, found⟩ := compatible.registers entry member
    exact dumpRegs_lookup.2 value found
  obtain ⟨started, registers⟩ :=
    (loadRegisters_ok_iff (dumpRegs process) (getRegisterMap ucMode32) .opened).mpr present
  obtain ⟨mapped, written, _⟩ := loadRegisters_result registers getRegisterMap_distinct
  have fresh : started.mapped.blocks = [] := by rw [mapped]; rfl
  have loadable : ∀ segment ∈ (dumpProcessMemory md5 process).finalSegmentList,
      Accepted segment → ∃ data,
        loadedBytes uncompress (dumpProcessMemory md5 process).files segment = .ok data := by
    intro segment listed _
    obtain ⟨entry, member, found⟩ := (mem_dump_iff vmmap).mp listed
    obtain ⟨_, _, _, unnamed | ⟨content, dumped, _⟩⟩ := segmentOf_cases found
    · refine ⟨[], ?_⟩
      unfold loadedBytes contentOf
      rw [unnamed]
      rfl
    · obtain ⟨_, data, decoded, _⟩ := compatible.contents entry member content dumped
      obtain ⟨_, _, decodes⟩ :=
        loadedBytes_dumped uncompress vmmap noCollision member found dumped
      exact ⟨data, (decodes data).mpr decoded⟩
  have succeeded := mapSegments_succeeds fresh inOrder loadable
  have loadedAll := mapSegments_loadedAll fresh inOrder succeeded
  refine ⟨_, _, aflUnicornEngine_of_steps _ _ rfl registers succeeded, ?_, ?_, ?_⟩
  · rw [named]
    rfl
  · intro entry member
    obtain ⟨number, found, value⟩ := written entry member
    obtain ⟨word, has, same⟩ := dumpRegs_lookup.1 number found
    rw [loadedAll.registers, value, ← same, UInt64.ofNat_toNat]
    exact has
  · intro entry member content dumped offset inside
    obtain ⟨small, data, decoded, same⟩ := compatible.contents entry member content dumped
    obtain ⟨segment, found, _⟩ := segmentOf_dumped md5 dumped
    obtain ⟨start, size, decodes⟩ :=
      loadedBytes_dumped uncompress vmmap noCollision member found dumped
    have listed := (mem_dump_iff vmmap).mpr ⟨entry, member, found⟩
    have accepted : Accepted segment := size.trans_le small
    obtain ⟨bytes, content_, memory⟩ := loadedAll.loaded segment listed accepted
    obtain rfl := Option.some.inj (decoded.symm.trans ((decodes bytes).mp content_))
    rw [← start]
    refine ⟨(loadedAll.mapped _).mpr ⟨segment, listed, accepted, by omega, by omega⟩, ?_⟩
    rw [memory offset (by omega)]
    exact same offset inside

/-- The loader accepts the context of a process and reconstructs the process
exactly if the encodings of the dumper are the ones that the loader decodes. -/
theorem reconstructed_iff_compatible (vmmap : Vmmap process.vmmap)
    (noCollision : NoCollision md5 process)
    (accepted : dumpContext md5 process = some directory) :
    (∃ settings emulator, aflUnicornEngine uncompress directory = .ok (settings, emulator) ∧
      Reconstructed process settings emulator) ↔ Compatible uncompress process := by
  constructor
  · rintro ⟨settings, emulator, loaded, reconstructed⟩
    exact compatible_of_reconstructed vmmap noCollision accepted loaded reconstructed
  · exact reconstructed_of_compatible vmmap noCollision accepted

end

def unreadProcess (arch : String) (regNames : List String) : Process where
  arch
  bigEndian := false
  regNames
  regs := fun _ => some 0x401000
  vmmap := [⟨0x400000, 0x401000, "/bin/target", false, false, true⟩]
  memory := fun _ => 0x90
  readOutcome := fun _ _ => .none

def process32 : Process :=
  unreadProcess "i386" ["eax", "ebx", "ecx", "edx", "esi", "edi", "ebp", "esp", "eip", "eflags"]

def process64 : Process := unreadProcess "i386:x86-64" ["rax", "rip", "rsp"]

theorem unreadProcess_vmmap (arch : String) (regNames : List String) :
    Vmmap (unreadProcess arch regNames).vmmap where
  sorted := by simp [unreadProcess]
  disjoint := by simp [unreadProcess]
  bounded := by simp [unreadProcess]
  aligned := by
    intro entry member
    obtain rfl := List.mem_singleton.mp member
    decide

theorem unreadProcess_dumped (arch : String) (regNames : List String) (entry : Entry) :
    (unreadProcess arch regNames).dumped entry = none := by
  simp [Process.dumped, unreadProcess]

theorem unreadProcess_noCollision (md5 : List UInt8 → String) (arch : String)
    (regNames : List String) : NoCollision md5 (unreadProcess arch regNames) := by
  intro left _ right _ first second dumped
  rw [unreadProcess_dumped] at dumped
  cases dumped

def emptyMd5 (_ : List UInt8) : String := "d41d8cd98f00b204e9800998ecf8427e"

theorem dumpContext_of_mapArch (md5 : List UInt8 → String) {process : Process} {arch : String}
    (named : mapArch process = some arch) :
    ∃ directory, dumpContext md5 process = some directory ∧ directory.index.arch = arch := by
  unfold dumpContext
  rw [named]
  exact ⟨_, rfl, rfl⟩

theorem reconstructed_iff_compatible_process32 :
    ∃ directory, dumpContext emptyMd5 process32 = some directory ∧
      ∃ settings emulator, aflUnicornEngine noZlib directory = .ok (settings, emulator) ∧
        Reconstructed process32 settings emulator := by
  have named : mapArch process32 = some "x86" := by decide
  obtain ⟨directory, accepted, _⟩ := dumpContext_of_mapArch emptyMd5 named
  refine ⟨directory, accepted, (reconstructed_iff_compatible (unreadProcess_vmmap _ _)
    (unreadProcess_noCollision _ _ _) accepted).mpr ⟨named, ?_, ?_⟩⟩
  · have known : ∀ entry ∈ getRegisterMap ucMode32, ∃ reg ∈ process32.regNames,
        stripReg reg = entry.1 := by decide
    intro entry member
    obtain ⟨reg, present, same⟩ := known entry member
    exact ⟨0x401000, reg, present, same, rfl⟩
  · intro entry _ content dumped
    exact absurd ((unreadProcess_dumped _ _ entry).symm.trans dumped) (by simp)

/-- The name that the dumper has for 64-bit processes is not one of the loader's. -/
theorem process64_rejected : ¬ ∀ md5 uncompress process directory,
    Vmmap process.vmmap → NoCollision md5 process → dumpContext md5 process = some directory →
      ∃ settings emulator, aflUnicornEngine uncompress directory = .ok (settings, emulator) ∧
        Reconstructed process settings emulator := by
  intro claim
  have named : mapArch process64 = some "x64" := by decide
  obtain ⟨directory, accepted, arch⟩ := dumpContext_of_mapArch emptyMd5 named
  obtain ⟨settings, emulator, loaded, _⟩ := claim emptyMd5 noZlib process64 directory
    (unreadProcess_vmmap _ _) (unreadProcess_noCollision _ _ _) accepted
  obtain ⟨rfl, opened, _⟩ := aflUnicornEngine_ok loaded
  rw [arch] at opened
  exact absurd opened (by decide)

end SbFuzz.SandboxFuzzer
