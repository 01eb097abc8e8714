import SbFuzz.QemuMode.QasanMalloc
import Mathlib.Data.List.Pairwise
import Mathlib.Data.List.Perm.Basic

/-! Runs of a target on the allocator of QASan: what the quarantine promises, and what becomes of
the chunks that are put into it. -/

set_option autoImplicit false

namespace SbFuzz.QemuMode.QasanMalloc

open SbFuzz.Memory

/-! ## Chunks and calls -/

structure Chunk where
  header : Nat
  block : Region
deriving DecidableEq, Repr

def Chunk.ptr (chunk : Chunk) : Nat := chunk.header + chunkBeginSize

/-- The chunks that the target holds, and the freed ones that the backend has not got back, the
oldest first. -/
structure Heap (shadow : Shadow) where
  st : State shadow
  live : List Chunk
  quarantined : List Chunk

inductive Call where
  | malloc (backend : Backend) (size : UInt64)
  | posixMemalign (backend : Backend) (align len : UInt64)
  | free (busy : Bool) (ptr : Nat)

variable {shadow : Shadow}

def Heap.hold (heap : Heap shadow) (st : State shadow) : Answer → Heap shadow
  | .chunk layout =>
      { heap with st := st, live := heap.live ++ [⟨layout.header.start, layout.obtained⟩] }
  | _ => { heap with st := st }

/-- A chunk that was freed is in quarantine until its block is given back. -/
def Heap.release (heap : Heap shadow) (ptr : Nat) (st : State shadow) : Heap shadow :=
  let given := st.freed.drop heap.st.freed.length
  match heap.live.find? (fun chunk => chunk.ptr == ptr) with
  | none => { heap with st := st }
  | some chunk =>
      { st := st
        live := heap.live.erase chunk
        quarantined := (heap.quarantined ++ [chunk]).filter fun other =>
          other.block.start ∉ given }

def Heap.call (zone : Nat) (heap : Heap shadow) : Call → Except Stop (Heap shadow)
  | .malloc backend size =>
      (QasanMalloc.malloc backend heap.st size.toNat).map fun (st, answer) => heap.hold st answer
  | .posixMemalign backend align len =>
      (QasanMalloc.posixMemalign backend heap.st align.toNat len.toNat).map
        fun (st, _, answer) => heap.hold st answer
  | .free busy ptr => (QasanMalloc.free zone busy heap.st ptr).map (heap.release ptr)

/-! ## What is promised -/

/-- Following a link from a pointer visits exactly these addresses, up to NULL. -/
inductive Linked (link : Nat → Nat) : Nat → List Nat → Prop
  | nil : Linked link 0 []
  | cons {ck : Nat} {rest : List Nat} (nonNull : ck ≠ 0) (linked : Linked link (link ck) rest) :
      Linked link ck (ck :: rest)

structure Kept (heap : Heap shadow) : Prop where
  bytes : heap.st.quarantineBytes =
    (heap.quarantined.map fun chunk => (heap.st.chunks chunk.header).requestedSize).sum
  below : heap.st.quarantineBytes < quarantineMaxBytes
  visits : Linked (fun ck => (heap.st.chunks ck).prev) heap.st.quarantineEnd
    (heap.quarantined.map Chunk.header)

/-- The oldest chunks of the quarantine are given back, and perhaps the one that is freed. -/
structure GivenBack (heap after : Heap shadow) : Prop where
  oldestFirst : ∃ evicted rest direct, heap.quarantined = evicted ++ rest ∧
    direct ⊆ heap.live ∧ direct.length ≤ 1 ∧
      after.st.freed = heap.st.freed ++ (evicted ++ direct).map (·.block.start)
  once : (after.st.freed.drop heap.st.freed.length).Nodup ∧
    ∀ chunk ∈ after.live ++ after.quarantined,
      chunk.block.start ∉ after.st.freed.drop heap.st.freed.length

structure Served (heap : Heap shadow) (call : Call) (outcome : Except Stop (Heap shadow)) :
    Prop where
  returns : ∀ busy ptr, call = .free busy ptr → ∀ reason, outcome ≠ .error reason
  kept : ∀ after, outcome = .ok after → Kept after
  givenBack : ∀ after, outcome = .ok after → GivenBack heap after

/-- No chunk is put into quarantine. -/
def Call.Fits (zone : Nat) (heap : Heap shadow) : Call → Prop
  | .free busy ptr => ptr = 0 ∨ (zone ≤ ptr ∧ ptr < zone + tmpZoneSize) ∨ busy = true ∨
      quarantineMaxBytes ≤ (heap.st.chunks (ptr - chunkBeginSize)).requestedSize
  | _ => True

/-! ## What is assumed -/

/-- The backend hands out memory that is free. -/
def Backend.Fresh (zone : Nat) (heap : Heap shadow) (backend : Backend) : Prop :=
  ∀ request block, backend request = some block →
    block.region.Apart ⟨zone, tmpZoneSize⟩ ∧
      ∀ chunk ∈ heap.live ++ heap.quarantined, block.region.Apart chunk.block

/-- The target frees what it got, once. -/
def Call.Admitted (zone : Nat) (heap : Heap shadow) : Call → Prop
  | .malloc backend _ => backend.Fresh zone heap
  | .posixMemalign backend _ _ => backend.Fresh zone heap
  | .free _ ptr => ptr = 0 ∨ (zone ≤ ptr ∧ ptr < zone + tmpZoneSize) ∨
      ∃ chunk ∈ heap.live, chunk.ptr = ptr

/-! ## The invariant -/

/-- Where the block of a chunk starts, as its header says. -/
def ChunkBegin.origin (begin_ : ChunkBegin) (ck : Nat) : Nat :=
  if begin_.alignedOrig ≠ 0 then begin_.alignedOrig else ck

/-- The header lies in the block, and leads back to its start. -/
structure Placed (zone : Nat) (st : State shadow) (chunk : Chunk) : Prop where
  header : (Region.mk chunk.header headerSize).Within chunk.block
  nonNull : chunk.block.start ≠ 0
  outside : ¬ (zone ≤ chunk.ptr ∧ chunk.ptr < zone + tmpZoneSize)
  origin : (st.chunks chunk.header).origin chunk.header = chunk.block.start

/-- The quarantine is a list from its top on, and nothing else of it is kept up. -/
structure Inv (zone : Nat) (heap : Heap shadow) : Prop where
  bytes : heap.st.quarantineBytes = 0
  atEnd : heap.st.quarantineEnd = 0
  linked : Linked (fun ck => (heap.st.chunks ck).next) heap.st.quarantineTop
    (heap.quarantined.reverse.map Chunk.header)
  placed : ∀ chunk ∈ heap.live ++ heap.quarantined, Placed zone heap.st chunk
  apart : (heap.live ++ heap.quarantined).Pairwise fun chunk other => chunk.block.Apart other.block

theorem Linked.congr {link other : Nat → Nat} {ck : Nat} {cks : List Nat}
    (linked : Linked link ck cks) (same : ∀ ck ∈ cks, other ck = link ck) :
    Linked other ck cks := by
  induction linked with
  | nil => exact .nil
  | @cons ck rest nonNull linked ih =>
      refine .cons nonNull ?_
      rw [same ck List.mem_cons_self]
      exact ih fun ck member => same ck (List.mem_cons_of_mem _ member)

theorem Linked.eq_nil {link : Nat → Nat} {cks : List Nat} (linked : Linked link 0 cks) :
    cks = [] := by
  cases linked with
  | nil => rfl
  | cons nonNull _ => exact absurd rfl nonNull

section

variable {zone : Nat} {heap : Heap shadow}

theorem Inv.apart_of_ne (inv : Inv zone heap) {chunk other : Chunk}
    (member : chunk ∈ heap.live ++ heap.quarantined)
    (otherMember : other ∈ heap.live ++ heap.quarantined) (ne : chunk ≠ other) :
    chunk.block.Apart other.block :=
  have : Std.Symm fun chunk other : Chunk => chunk.block.Apart other.block :=
    ⟨fun _ _ => Or.symm⟩
  inv.apart.forall member otherMember ne

/-- Chunks are told apart by their headers and by the starts of their blocks. -/
theorem Inv.eq_of_same (inv : Inv zone heap) {chunk other : Chunk}
    (member : chunk ∈ heap.live ++ heap.quarantined)
    (otherMember : other ∈ heap.live ++ heap.quarantined)
    (same : chunk.header = other.header ∨ chunk.block.start = other.block.start) :
    chunk = other := by
  by_contra ne
  have apart := inv.apart_of_ne member otherMember ne
  have header := (inv.placed chunk member).header
  have otherHeader := (inv.placed other otherMember).header
  unfold Region.Within headerSize at header otherHeader
  unfold Region.Apart at apart
  dsimp only at header otherHeader
  omega

/-- In a heap that meets the invariant, the promise is that the quarantine is empty. -/
theorem Inv.kept_iff (inv : Inv zone heap) : Kept heap ↔ heap.quarantined = [] := by
  constructor
  · intro kept
    have visits := kept.visits
    rw [inv.atEnd] at visits
    exact List.map_eq_nil_iff.mp visits.eq_nil
  · intro none
    refine ⟨by rw [inv.bytes, none]; rfl, by rw [inv.bytes]; decide, ?_⟩
    rw [inv.atEnd, none]
    exact .nil

end

/-! ## Allocation -/

/-- Chunk headers and quarantine are the same. -/
structure State.Same (st after : State shadow) : Prop where
  chunks : after.chunks = st.chunks
  top : after.quarantineTop = st.quarantineTop
  atEnd : after.quarantineEnd = st.quarantineEnd
  bytes : after.quarantineBytes = st.quarantineBytes
  freed : after.freed = st.freed

/-- What an allocation does to the state: nothing, or one new header. -/
inductive Allocates (backend : Backend) (st : State shadow) : State shadow → Answer → Prop
  | without {after : State shadow} {answer : Answer} (same : st.Same after)
      (none : ∀ layout, answer ≠ .chunk layout) : Allocates backend st after answer
  | chunk {after : State shadow} {layout : Layout} {begin_ : ChunkBegin} {request : Nat}
      {block : Obtained request} (answers : backend request = some block)
      (obtained : layout.obtained = block.region)
      (header : (Region.mk layout.header.start headerSize).Within layout.obtained)
      (inside : layout.header.start + chunkBeginSize <
        layout.obtained.start + layout.obtained.len)
      (origin : begin_.origin layout.header.start = layout.obtained.start)
      (same : (st.setChunk layout.header.start begin_).Same after) :
      Allocates backend st after (.chunk layout)

theorem map_eq_ok {ε α β : Type} {f : α → β} {outcome : Except ε α} {result : β}
    (mapped : outcome.map f = .ok result) : ∃ value, outcome = .ok value ∧ f value = result := by
  cases outcome with
  | error reason => exact nomatch mapped
  | ok value => exact ⟨value, rfl, Except.ok.inj mapped⟩

theorem layOut_ok {st after : State shadow} {layout : Layout} {begin_ : ChunkBegin}
    {answer : Answer} (laidOut : layOut st layout begin_ = .ok (after, answer)) :
    answer = .chunk layout ∧ layout.header.Within layout.obtained ∧
      layout.user.Within layout.obtained ∧
        (st.setChunk layout.header.start begin_).Same after := by
  unfold layOut at laidOut
  dsimp only at laidOut
  split at laidOut
  · next header =>
    split at laidOut
    · next user =>
      cases laidOut
      exact ⟨rfl, header, user, ⟨rfl, rfl, rfl, rfl, rfl⟩⟩
    · exact nomatch laidOut
  · exact nomatch laidOut

theorem allocates_malloc {backend : Backend} {st after : State shadow} {size : Nat}
    {answer : Answer} (word : size < 2 ^ 64)
    (allocated : malloc backend st size = .ok (after, answer)) :
    Allocates backend st after answer := by
  unfold malloc at allocated
  split at allocated
  · cases allocated
    exact .without ⟨rfl, rfl, rfl, rfl, rfl⟩ fun _ same => nomatch same
  · split at allocated
    · cases allocated
      exact .without ⟨rfl, rfl, rfl, rfl, rfl⟩ fun _ same => nomatch same
    · next block answers =>
      obtain ⟨rfl, header, user, same⟩ := layOut_ok allocated
      refine .chunk answers rfl header ?_ rfl same
      have inside := user.2
      dsimp only [Obtained.region] at inside ⊢
      unfold chunkStructSize chunkBeginSize headerSize redzoneSize at *
      omega

theorem allocates_posixMemalign {backend : Backend} {st after : State shadow} {align len : Nat}
    {code : Nat} {answer : Answer}
    (allocated : posixMemalign backend st align len = .ok (after, code, answer)) :
    Allocates backend st after answer := by
  unfold posixMemalign at allocated
  split at allocated
  · cases allocated
    exact .without ⟨rfl, rfl, rfl, rfl, rfl⟩ fun _ same => nomatch same
  · split at allocated
    · cases allocated
      exact .without ⟨rfl, rfl, rfl, rfl, rfl⟩ fun _ same => nomatch same
    · next some_ =>
      dsimp only at allocated
      split at allocated
      · cases allocated
        exact .without ⟨rfl, rfl, rfl, rfl, rfl⟩ fun _ same => nomatch same
      · next block answers =>
        split at allocated
        · exact nomatch allocated
        · obtain ⟨⟨placed, laid⟩, laidOut, stored⟩ := map_eq_ok allocated
          cases stored
          obtain ⟨rfl, header, user, same⟩ := layOut_ok laidOut
          have inside := user.2
          dsimp only [Obtained.region] at inside ⊢
          have nonNull := block.nonNull
          refine .chunk answers rfl header ?_ ?_ same
          · dsimp only [Obtained.region]
            omega
          · exact if_pos nonNull

section

variable {zone : Nat} {heap : Heap shadow}

theorem givenBack_none {after : Heap shadow} (same : after.st.freed = heap.st.freed) :
    GivenBack heap after where
  oldestFirst := ⟨[], heap.quarantined, [], rfl, List.nil_subset _, Nat.zero_le _, by simp [same]⟩
  once := by simp [same]

/-- An allocation leaves the chunks as they are. -/
theorem Inv.hold (inv : Inv zone heap) {backend : Backend} {after : State shadow} {answer : Answer}
    (fresh : backend.Fresh zone heap) (allocates : Allocates backend heap.st after answer) :
    Inv zone (heap.hold after answer) := by
  cases allocates with
  | without same none =>
      have unheld : heap.hold after answer = { heap with st := after } := by
        cases answer with
        | chunk layout => exact absurd rfl (none layout)
        | null => rfl
        | zone index => rfl
        | kept => rfl
      rw [unheld]
      refine ⟨same.bytes.trans inv.bytes, same.atEnd.trans inv.atEnd, ?_, fun chunk member => ?_,
        inv.apart⟩
      · rw [same.top, same.chunks]
        exact inv.linked
      · obtain ⟨header, nonNull, outside, origin⟩ := inv.placed chunk member
        exact ⟨header, nonNull, outside, by rwa [same.chunks]⟩
  | @chunk layout begin_ request block answers obtained header inside origin same =>
      obtain ⟨zoneApart, apart⟩ := fresh request block answers
      rw [← obtained] at zoneApart apart
      have others (chunk : Chunk) (member : chunk ∈ heap.live ++ heap.quarantined) :
          after.chunks chunk.header = heap.st.chunks chunk.header := by
        have chunkApart := apart chunk member
        have chunkHeader := (inv.placed chunk member).header
        unfold Region.Within headerSize at header chunkHeader
        unfold Region.Apart at chunkApart
        dsimp only at header chunkHeader
        rw [same.chunks]
        exact if_neg (by omega)
      refine ⟨same.bytes.trans inv.bytes, same.atEnd.trans inv.atEnd, ?_, fun chunk member => ?_, ?_⟩
      · simp only [Heap.hold]
        rw [same.top]
        refine inv.linked.congr fun ck member => ?_
        obtain ⟨chunk, isQuarantined, rfl⟩ := List.mem_map.mp member
        rw [others chunk (List.mem_append_right _ (List.mem_reverse.mp isQuarantined))]
      · simp only [Heap.hold, List.append_assoc, List.singleton_append] at member
        rcases List.mem_cons.mp (List.perm_middle.mem_iff.mp member) with rfl | old
        · refine ⟨header, ?_, ?_, ?_⟩
          · rw [obtained]
            exact block.nonNull
          · unfold Region.Within headerSize at header
            unfold Region.Apart at zoneApart
            dsimp only [Chunk.ptr] at header zoneApart ⊢
            omega
          · simp only [Heap.hold, same.chunks, State.setChunk, if_true]
            exact origin
        · obtain ⟨oldHeader, nonNull, outside, oldOrigin⟩ := inv.placed chunk old
          refine ⟨oldHeader, nonNull, outside, ?_⟩
          simp only [Heap.hold]
          rwa [others chunk old]
      · simp only [Heap.hold, List.append_assoc, List.singleton_append]
        exact (List.pairwise_cons.mpr ⟨apart, inv.apart⟩).perm List.perm_middle.symm
          (fun apart => Or.symm apart)

end

/-! ## Release -/

theorem evict_stops {ck fuel : Nat} {st : State shadow} (enough : fuel ≠ 0)
    (bytes : st.quarantineBytes = 0) (small : (st.chunks ck).requestedSize < quarantineMaxBytes) :
    evict ck fuel st = .ok st := by
  have wide : quarantineMaxBytes < 2 ^ 64 := by decide
  cases fuel with
  | zero => exact absurd rfl enough
  | succ fuel =>
      rw [evict, bytes, Nat.add_zero, Nat.mod_eq_of_lt (by omega), if_neg (Nat.not_le.mpr small)]

/-- The chunk at the top of the quarantine. -/
def State.pushed (st : State shadow) (ck : Nat) : State shadow :=
  let linked := st.setChunk ck { st.chunks ck with next := st.quarantineTop }
  let back :=
    if st.quarantineTop ≠ 0 then
      linked.setChunk st.quarantineTop { linked.chunks st.quarantineTop with prev := ck }
    else linked
  { back with quarantineTop := ck }

theorem quarantinePush_eq (busy : Bool) {st : State shadow} (bytes : st.quarantineBytes = 0)
    (ck : Nat) :
    quarantinePush busy st ck =
      .ok (if busy = true ∨ quarantineMaxBytes ≤ (st.chunks ck).requestedSize then (st, false)
        else (st.pushed ck, true)) := by
  rw [quarantinePush]
  by_cases large : quarantineMaxBytes ≤ (st.chunks ck).requestedSize
  · rw [if_pos large, if_pos (.inr large)]
  · rw [if_neg large]
    cases busy with
    | true => rfl
    | false =>
        rw [if_neg Bool.false_ne_true, evict_stops (by decide) bytes (Nat.not_le.mp large),
          if_neg (by simpa using large)]
        rfl

theorem pushed_next (st : State shadow) (ck other : Nat) :
    ((st.pushed ck).chunks other).next =
      if other = ck then st.quarantineTop else (st.chunks other).next := by
  unfold State.pushed State.setChunk
  split
  · by_cases isTop : other = st.quarantineTop
    · subst isTop
      simp only [if_true]
      split <;> rfl
    · simp only [if_neg isTop]
      split <;> rfl
  · simp only
    split <;> rfl

theorem pushed_origin (st : State shadow) (ck other : Nat) :
    ((st.pushed ck).chunks other).origin other = (st.chunks other).origin other := by
  have same : ((st.pushed ck).chunks other).alignedOrig = (st.chunks other).alignedOrig := by
    unfold State.pushed State.setChunk
    by_cases isChunk : other = ck
    · subst isChunk
      split
      · by_cases isTop : other = st.quarantineTop
        · subst isTop
          simp
        · simp [isTop]
      · simp
    · split
      · by_cases isTop : other = st.quarantineTop
        · subst isTop
          simp [isChunk]
        · simp [isTop, isChunk]
      · simp [isChunk]
  simp only [ChunkBegin.origin, same]

theorem pushed_top (st : State shadow) (ck : Nat) : (st.pushed ck).quarantineTop = ck := rfl

theorem pushed_rest (st : State shadow) (ck : Nat) :
    (st.pushed ck).quarantineBytes = st.quarantineBytes ∧
      (st.pushed ck).quarantineEnd = st.quarantineEnd ∧ (st.pushed ck).freed = st.freed := by
  unfold State.pushed State.setChunk
  split <;> exact ⟨rfl, rfl, rfl⟩

theorem giveBack_eq (st : State shadow) (ck : Nat) :
    st.giveBack ck = st.backendFree ((st.chunks ck).origin ck) := by
  unfold State.giveBack ChunkBegin.origin
  split <;> rfl

section

variable {zone : Nat} {heap : Heap shadow} {chunk : Chunk}

theorem Inv.nodup (inv : Inv zone heap) : (heap.live ++ heap.quarantined).Nodup := by
  refine inv.apart.imp_of_mem fun {chunk other} member _ apart same => ?_
  have header := (inv.placed chunk member).header
  subst same
  unfold Region.Within headerSize at header
  unfold Region.Apart at apart
  dsimp only at header
  omega

theorem free_chunk (inv : Inv zone heap) (member : chunk ∈ heap.live) (busy : Bool) :
    QasanMalloc.free zone busy heap.st chunk.ptr =
      .ok ((if busy = true ∨ quarantineMaxBytes ≤ (heap.st.chunks chunk.header).requestedSize then
          heap.st.backendFree chunk.block.start else heap.st.pushed chunk.header).poison
        ⟨chunk.ptr, padded (heap.st.chunks chunk.header).requestedSize⟩ .heapFreed) := by
  have placed := inv.placed chunk (List.mem_append_left _ member)
  have header : chunk.ptr - chunkBeginSize = chunk.header := Nat.add_sub_cancel _ _
  have nonNull : chunk.ptr ≠ 0 := by
    unfold Chunk.ptr chunkBeginSize headerSize
    omega
  rw [QasanMalloc.free, if_neg nonNull, if_neg placed.outside]
  simp only [header, quarantinePush_eq busy inv.bytes, giveBack_eq]
  by_cases fits : busy = true ∨ quarantineMaxBytes ≤ (heap.st.chunks chunk.header).requestedSize
  · rw [if_pos fits, if_pos fits, ← placed.origin]
    rfl
  · rw [if_neg fits, if_neg fits]
    rfl

theorem release_chunk (inv : Inv zone heap) (member : chunk ∈ heap.live) (st : State shadow) :
    heap.release chunk.ptr st =
      { st := st
        live := heap.live.erase chunk
        quarantined := (heap.quarantined ++ [chunk]).filter fun other =>
          other.block.start ∉ st.freed.drop heap.st.freed.length } := by
  have found : heap.live.find? (fun other => other.ptr == chunk.ptr) = some chunk := by
    cases search : heap.live.find? (fun other => other.ptr == chunk.ptr) with
    | none => exact absurd (beq_self_eq_true chunk.ptr) (List.find?_eq_none.mp search chunk member)
    | some other =>
        have isPtr : other.ptr = chunk.ptr := by simpa using List.find?_some search
        have otherMember := List.mem_of_find?_eq_some search
        rw [inv.eq_of_same (List.mem_append_left _ otherMember) (List.mem_append_left _ member)
          (.inl (Nat.add_right_cancel isPtr))]
  rw [Heap.release, found]

theorem Inv.ne_of_other (inv : Inv zone heap) (member : chunk ∈ heap.live) {other : Chunk}
    (otherMember : other ∈ heap.live.erase chunk ++ heap.quarantined) : other ≠ chunk := by
  have parts := List.nodup_append.mp inv.nodup
  rcases List.mem_append.mp otherMember with live | quarantined
  · exact (parts.1.mem_erase_iff.mp live).1
  · exact fun same => parts.2.2 chunk member other quarantined same.symm

/-- A freed chunk whose block is given back. -/
theorem Inv.giveBack (inv : Inv zone heap) (member : chunk ∈ heap.live) (after : State shadow)
    (same : (heap.st.backendFree chunk.block.start).Same after) :
    Inv zone (heap.release chunk.ptr after) ∧
      (heap.release chunk.ptr after).quarantined = heap.quarantined ∧
        GivenBack heap (heap.release chunk.ptr after) := by
  have given : after.freed.drop heap.st.freed.length = [chunk.block.start] := by
    rw [same.freed]
    exact List.drop_left
  have old : heap.live.erase chunk ++ heap.quarantined ⊆ heap.live ++ heap.quarantined :=
    (List.Sublist.append List.erase_sublist (List.Sublist.refl _)).subset
  have starts (other : Chunk) (kept : other ∈ heap.live.erase chunk ++ heap.quarantined) :
      other.block.start ≠ chunk.block.start := fun sameStart =>
    inv.ne_of_other member kept
      (inv.eq_of_same (old kept) (List.mem_append_left _ member) (.inr sameStart))
  have quarantined : (heap.quarantined ++ [chunk]).filter
      (fun other => other.block.start ∉ [chunk.block.start]) = heap.quarantined := by
    rw [List.filter_append, List.filter_eq_self.mpr fun other isQuarantined => by
      simpa using starts other (List.mem_append_right _ isQuarantined)]
    simp
  rw [release_chunk inv member, given, quarantined]
  refine ⟨⟨same.bytes.trans inv.bytes, same.atEnd.trans inv.atEnd, ?_, fun other kept => ?_, ?_⟩,
    rfl, ?_, ?_⟩
  · simp only [same.top, same.chunks]
    exact inv.linked
  · obtain ⟨header, nonNull, outside, origin⟩ := inv.placed other (old kept)
    refine ⟨header, nonNull, outside, ?_⟩
    simp only [same.chunks]
    exact origin
  · exact inv.apart.sublist (List.Sublist.append List.erase_sublist (List.Sublist.refl _))
  · exact ⟨[], heap.quarantined, [chunk], rfl, by simpa using member, Nat.le_refl _, same.freed⟩
  · rw [given]
    exact ⟨List.pairwise_singleton _ _, fun other kept => by simpa using starts other kept⟩

/-- A freed chunk that is put into the quarantine. -/
theorem Inv.push (inv : Inv zone heap) (member : chunk ∈ heap.live) (after : State shadow)
    (same : (heap.st.pushed chunk.header).Same after) :
    Inv zone (heap.release chunk.ptr after) ∧
      (heap.release chunk.ptr after).quarantined = heap.quarantined ++ [chunk] := by
  obtain ⟨bytes, atEnd, freed⟩ := pushed_rest heap.st chunk.header
  have given : after.freed.drop heap.st.freed.length = [] := by
    rw [same.freed, freed]
    exact List.drop_length
  have perm : (heap.live ++ heap.quarantined).Perm
      (heap.live.erase chunk ++ (heap.quarantined ++ [chunk])) := by
    refine ((List.perm_cons_erase member).append_right _).trans ?_
    rw [List.cons_append, ← List.append_assoc]
    exact (List.perm_append_singleton chunk _).symm
  have quarantined : (heap.quarantined ++ [chunk]).filter
      (fun other => other.block.start ∉ ([] : List Nat)) = heap.quarantined ++ [chunk] := by
    simp
  rw [release_chunk inv member, given, quarantined]
  refine ⟨⟨same.bytes.trans (bytes.trans inv.bytes), same.atEnd.trans (atEnd.trans inv.atEnd), ?_,
    fun other kept => ?_, ?_⟩, rfl⟩
  · simp only [same.top, pushed_top, same.chunks, List.reverse_append, List.reverse_singleton,
      List.singleton_append, List.map_cons]
    have header := (inv.placed chunk (List.mem_append_left _ member)).header.1
    have nonNull := (inv.placed chunk (List.mem_append_left _ member)).nonNull
    refine Linked.cons ?_ ?_
    · dsimp only at header
      omega
    · rw [pushed_next, if_pos rfl]
      refine inv.linked.congr fun ck isLinked => ?_
      obtain ⟨other, isQuarantined, rfl⟩ := List.mem_map.mp isLinked
      rw [pushed_next, if_neg]
      intro sameHeader
      have otherMember := List.mem_reverse.mp isQuarantined
      exact inv.ne_of_other member (List.mem_append_right _ otherMember)
        (inv.eq_of_same (List.mem_append_right _ otherMember) (List.mem_append_left _ member)
          (.inl sameHeader))
  · obtain ⟨header, nonNull, outside, origin⟩ := inv.placed other (perm.mem_iff.mpr kept)
    refine ⟨header, nonNull, outside, ?_⟩
    simp only [same.chunks, pushed_origin]
    exact origin
  · exact inv.apart.perm perm fun apart => Or.symm apart

end

/-! ## Calls -/

/-- What one call does, while the invariant holds. -/
structure Steps (zone : Nat) (heap : Heap shadow) (call : Call) : Prop where
  returns : ∀ busy ptr, call = .free busy ptr → ∀ reason, heap.call zone call ≠ .error reason
  keeps : ∀ after, heap.call zone call = .ok after → Inv zone after
  fits : call.Fits zone heap → ∀ after, heap.call zone call = .ok after →
    after.quarantined = heap.quarantined ∧ GivenBack heap after
  misses : ¬ call.Fits zone heap → ∃ after chunk, heap.call zone call = .ok after ∧
    after.quarantined = heap.quarantined ++ [chunk]

section

variable {zone : Nat} {heap : Heap shadow}

theorem steps_allocates (inv : Inv zone heap) {call : Call} {backend : Backend}
    (fresh : backend.Fresh zone heap) (fits : call.Fits zone heap)
    (notFree : ∀ busy ptr, call ≠ .free busy ptr)
    (allocates : ∀ after, heap.call zone call = .ok after →
      ∃ st answer, Allocates backend heap.st st answer ∧ after = heap.hold st answer) :
    Steps zone heap call where
  returns := fun busy ptr same => absurd same (notFree busy ptr)
  keeps := fun after returned => by
    obtain ⟨st, answer, allocated, rfl⟩ := allocates after returned
    exact inv.hold fresh allocated
  fits := fun _ after returned => by
    obtain ⟨st, answer, allocated, rfl⟩ := allocates after returned
    have freed : st.freed = heap.st.freed := by
      cases allocated with
      | without same => exact same.freed
      | chunk _ _ _ _ _ same => exact same.freed
    cases answer with
    | null => exact ⟨rfl, givenBack_none freed⟩
    | zone index => exact ⟨rfl, givenBack_none freed⟩
    | kept => exact ⟨rfl, givenBack_none freed⟩
    | chunk layout => exact ⟨rfl, givenBack_none freed⟩
  misses := fun misses => absurd fits misses

theorem call_free {busy : Bool} {ptr : Nat} {st : State shadow}
    (freed : QasanMalloc.free zone busy heap.st ptr = .ok st) :
    heap.call zone (.free busy ptr) = .ok (heap.release ptr st) := by
  rw [Heap.call, freed, Except.map]

/-- NULL and the pointers to the zone for early allocations are left alone. -/
theorem steps_free_none (inv : Inv zone heap) (busy : Bool) {ptr : Nat}
    (other : ptr = 0 ∨ (zone ≤ ptr ∧ ptr < zone + tmpZoneSize)) :
    Steps zone heap (.free busy ptr) := by
  have freed : QasanMalloc.free zone busy heap.st ptr = .ok heap.st := by
    rw [QasanMalloc.free]
    by_cases null : ptr = 0
    · rw [if_pos null]
    · rw [if_neg null, if_pos (other.resolve_left null)]
  have absent : heap.live.find? (fun chunk => chunk.ptr == ptr) = none := by
    refine List.find?_eq_none.mpr fun chunk member same => ?_
    have isPtr : chunk.ptr = ptr := beq_iff_eq.mp same
    have outside := (inv.placed chunk (List.mem_append_left _ member)).outside
    rcases other with null | inZone
    · unfold Chunk.ptr chunkBeginSize headerSize at isPtr
      omega
    · exact outside (isPtr ▸ inZone)
  have called : heap.call zone (.free busy ptr) = .ok heap := by
    rw [call_free freed, Heap.release, absent]
  have fits : Call.Fits zone heap (.free busy ptr) := other.elim .inl fun inZone => .inr (.inl inZone)
  refine ⟨?_, ?_, fun _ => ?_, fun misses => absurd fits misses⟩
  · rw [called]
    exact fun _ _ _ _ same => nomatch same
  · rw [called]
    intro after same
    cases same
    exact inv
  · rw [called]
    intro after same
    cases same
    exact ⟨rfl, givenBack_none rfl⟩

theorem steps_free_chunk (inv : Inv zone heap) (busy : Bool) {chunk : Chunk}
    (member : chunk ∈ heap.live) : Steps zone heap (.free busy chunk.ptr) := by
  have placed := inv.placed chunk (List.mem_append_left _ member)
  have header : chunk.ptr - chunkBeginSize = chunk.header := Nat.add_sub_cancel _ _
  have nonNull : chunk.ptr ≠ 0 := by
    unfold Chunk.ptr chunkBeginSize headerSize
    omega
  have fits_iff : Call.Fits zone heap (.free busy chunk.ptr) ↔
      busy = true ∨ quarantineMaxBytes ≤ (heap.st.chunks chunk.header).requestedSize := by
    simp only [Call.Fits, header, nonNull, placed.outside, false_or]
  have freed := free_chunk inv member busy
  by_cases fits : busy = true ∨ quarantineMaxBytes ≤ (heap.st.chunks chunk.header).requestedSize
  · rw [if_pos fits] at freed
    have called := call_free freed
    obtain ⟨keeps, quarantined, givenBack⟩ := inv.giveBack member
      ((heap.st.backendFree chunk.block.start).poison _ _) ⟨rfl, rfl, rfl, rfl, rfl⟩
    refine ⟨?_, ?_, fun _ => ?_, fun misses => absurd (fits_iff.mpr fits) misses⟩
    · rw [called]
      exact fun _ _ _ _ same => nomatch same
    · rw [called]
      intro after same
      cases same
      exact keeps
    · rw [called]
      intro after same
      cases same
      exact ⟨quarantined, givenBack⟩
  · rw [if_neg fits] at freed
    have called := call_free freed
    obtain ⟨keeps, quarantined⟩ := inv.push member ((heap.st.pushed chunk.header).poison _ _)
      ⟨rfl, rfl, rfl, rfl, rfl⟩
    refine ⟨?_, ?_, fun other => absurd (fits_iff.mp other) fits, fun _ => ⟨_, chunk, called, quarantined⟩⟩
    · rw [called]
      exact fun _ _ _ _ same => nomatch same
    · rw [called]
      intro after same
      cases same
      exact keeps

theorem steps (inv : Inv zone heap) {call : Call} (admitted : call.Admitted zone heap) :
    Steps zone heap call := by
  cases call with
  | malloc backend size =>
      refine steps_allocates inv admitted trivial (fun _ _ same => nomatch same)
        fun after returned => ?_
      obtain ⟨⟨st, answer⟩, allocated, rfl⟩ := map_eq_ok returned
      exact ⟨st, answer, allocates_malloc size.toNat_lt allocated, rfl⟩
  | posixMemalign backend align len =>
      refine steps_allocates inv admitted trivial (fun _ _ same => nomatch same)
        fun after returned => ?_
      obtain ⟨⟨st, code, answer⟩, allocated, rfl⟩ := map_eq_ok returned
      exact ⟨st, answer, allocates_posixMemalign allocated, rfl⟩
  | free busy ptr =>
      by_cases other : ptr = 0 ∨ (zone ≤ ptr ∧ ptr < zone + tmpZoneSize)
      · exact steps_free_none inv busy other
      · obtain ⟨chunk, member, rfl⟩ :=
          (or_assoc.mpr admitted).resolve_left other
        exact steps_free_chunk inv busy member

/-- With nothing in quarantine, a call keeps the promise as long as it puts nothing there. -/
theorem Steps.served_iff {call : Call} (step : Steps zone heap call)
    (none : heap.quarantined = []) :
    Served heap call (heap.call zone call) ↔ call.Fits zone heap := by
  constructor
  · intro served
    by_contra misses
    obtain ⟨after, chunk, returned, quarantined⟩ := step.misses misses
    have kept := (step.keeps after returned).kept_iff.mp (served.kept after returned)
    rw [quarantined] at kept
    exact List.append_ne_nil_of_right_ne_nil _ (List.cons_ne_nil _ _) kept
  · intro fits
    exact
      { returns := step.returns
        kept := fun after returned => (step.keeps after returned).kept_iff.mpr
          ((step.fits fits after returned).1.trans none)
        givenBack := fun after returned => (step.fits fits after returned).2 }

end

/-! ## Runs -/

/-- An allocator that has neither chunks nor a quarantine. -/
def Heap.start (initialized : Bool) (map : shadow.Map) (chunks : Nat → ChunkBegin) :
    Heap shadow :=
  ⟨⟨initialized, 0, map, chunks, 0, 0, 0, []⟩, [], []⟩

def AllAdmitted (zone : Nat) : Heap shadow → List Call → Prop
  | _, [] => True
  | heap, call :: rest => call.Admitted zone heap ∧
      ∀ after, heap.call zone call = .ok after → AllAdmitted zone after rest

def AllServed (zone : Nat) : Heap shadow → List Call → Prop
  | _, [] => True
  | heap, call :: rest => Served heap call (heap.call zone call) ∧
      ∀ after, heap.call zone call = .ok after → AllServed zone after rest

def AllFit (zone : Nat) : Heap shadow → List Call → Prop
  | _, [] => True
  | heap, call :: rest => call.Fits zone heap ∧
      ∀ after, heap.call zone call = .ok after → AllFit zone after rest

theorem inv_start (zone : Nat) (initialized : Bool) (map : shadow.Map)
    (chunks : Nat → ChunkBegin) : Inv zone (Heap.start initialized map chunks) where
  bytes := rfl
  atEnd := rfl
  linked := .nil
  placed := fun _ member => nomatch member
  apart := .nil

theorem allServed_iff {zone : Nat} {heap : Heap shadow} (inv : Inv zone heap)
    (none : heap.quarantined = []) {calls : List Call} (admitted : AllAdmitted zone heap calls) :
    AllServed zone heap calls ↔ AllFit zone heap calls := by
  induction calls generalizing heap with
  | nil => exact Iff.rfl
  | cons call rest ih =>
      have step := steps inv admitted.1
      refine (and_congr_right fun served => ?_).trans
        (and_congr_left fun _ => step.served_iff none)
      have fits := (step.served_iff none).mp served
      refine forall_congr' fun after => forall_congr' fun returned => ?_
      exact ih (step.keeps after returned) ((step.fits fits after returned).1.trans none)
        (admitted.2 after returned)

/-- The quarantine keeps its promises exactly as long as nothing is put into it. -/
theorem quarantine_served_iff (shadow : Shadow) (zone : Nat) (initialized : Bool) (map : shadow.Map)
    (chunks : Nat → ChunkBegin) (calls : List Call)
    (admitted : AllAdmitted zone (Heap.start initialized map chunks) calls) :
    AllServed zone (Heap.start initialized map chunks) calls ↔
      AllFit zone (Heap.start initialized map chunks) calls :=
  allServed_iff (inv_start zone initialized map chunks) rfl admitted

/-- A backend whose memory begins at one page. -/
def pageBackend : Backend := fun request =>
  if fits : request ≤ 2 ^ 30 then
    some ⟨4096, by decide, by decide, Nat.le_trans (Nat.add_le_add_left fits _) (by decide)⟩
  else none

def emptyHeap : Heap exactShadow := Heap.start true (fun _ => false) fun _ => ⟨0, 0, 0, 0⟩

/-- A run that allocates a chunk from an empty heap and frees it. -/
theorem admitted_malloc_free (busy : Bool) {size : UInt64} {after : Heap exactShadow}
    (called : emptyHeap.call (2 ^ 40) (.malloc pageBackend size) = .ok after)
    (live : ∃ chunk ∈ after.live, chunk.ptr = 4096 + chunkBeginSize) :
    AllAdmitted (2 ^ 40) emptyHeap
      [.malloc pageBackend size, .free busy (4096 + chunkBeginSize)] := by
  refine ⟨fun request block answers => ⟨?_, fun _ member => nomatch member⟩,
    fun other returned => ⟨.inr (.inr ?_), fun _ _ => trivial⟩⟩
  · unfold pageBackend at answers
    split at answers
    · next fits =>
      cases answers
      unfold Region.Apart Obtained.region
      dsimp only
      omega
    · exact nomatch answers
  · cases called.symm.trans returned
    exact live

theorem quarantine_served_large :
    AllServed (2 ^ 40) emptyHeap
      [.malloc pageBackend 52428800, .free false (4096 + chunkBeginSize)] :=
  (quarantine_served_iff exactShadow (2 ^ 40) true (fun _ => false) (fun _ => ⟨0, 0, 0, 0⟩) _
    (admitted_malloc_free false rfl ⟨_, List.mem_cons_self, rfl⟩)).mpr
      ⟨trivial, fun _ returned => ⟨.inr (.inr (.inr (by cases returned; decide))),
        fun _ _ => trivial⟩⟩

/-- The first chunk that is put into quarantine is neither counted nor found from its end. -/
theorem quarantine_not_served :
    ¬ ∀ (shadow : Shadow) (zone : Nat) (initialized : Bool) (map : shadow.Map)
      (chunks : Nat → ChunkBegin) (calls : List Call),
      AllAdmitted zone (Heap.start initialized map chunks) calls →
        AllServed zone (Heap.start initialized map chunks) calls := by
  intro all
  have admitted : AllAdmitted (2 ^ 40) emptyHeap
      [.malloc pageBackend 5, .free false (4096 + chunkBeginSize)] :=
    admitted_malloc_free false rfl ⟨_, List.mem_cons_self, rfl⟩
  have served := all exactShadow _ _ _ _ _ admitted
  have allFit := (allServed_iff (inv_start _ _ _ _) rfl admitted).mp served
  have fits := (allFit.2 _ rfl).1
  simp only [Call.Fits] at fits
  revert fits
  decide

end SbFuzz.QemuMode.QasanMalloc
