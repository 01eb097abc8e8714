import SbFuzz.QemuMode.QasanMalloc
import Mathlib.Algebra.Order.Group.Nat

/-! Where QASan lays out the parts of a chunk. -/

set_option autoImplicit false

namespace SbFuzz.QemuMode.QasanMalloc

open SbFuzz.Memory

inductive Request where
  | malloc (size : UInt64)
  | posixMemalign (align len : UInt64)

variable {shadow : Shadow}

def Request.run (backend : Backend) (st : State shadow) :
    Request → Except Stop (State shadow × Answer)
  | .malloc size => QasanMalloc.malloc backend st size.toNat
  | .posixMemalign align len =>
      (QasanMalloc.posixMemalign backend st align.toNat len.toNat).map fun (st, _, answer) =>
        (st, answer)

def Request.alignment : Request → Nat
  | .malloc _ => allocAlignSize
  | .posixMemalign align _ => align.toNat

def Layout.regions (layout : Layout) : List Region :=
  [layout.header, layout.leftRedzone, layout.user, layout.rightRedzone]

/-- What is promised of the chunk. -/
structure LaidOut (align : Nat) (st : State shadow) (layout : Layout) : Prop where
  within : ∀ region ∈ layout.regions, region.Within layout.obtained
  apart : layout.regions.Pairwise Region.Apart
  aligned : align ∣ layout.user.start
  unpoisoned : ∀ k, layout.user.start ≤ k → k < layout.user.start + layout.user.len →
    shadow.poisoned st.map k = false

structure Granted (align : Nat) (outcome : Except Stop (State shadow × Answer)) : Prop where
  returns : ∀ reason, outcome ≠ .error reason
  laidOut : ∀ st layout, outcome = .ok (st, .chunk layout) → LaidOut align st layout

/-- The size of the block is no sum that wraps around. -/
def MallocFits (backend : Backend) (st : State shadow) (size : Nat) : Prop :=
  st.initialized = true → backend ((chunkStructSize + size) % 2 ^ 64) ≠ none →
    chunkStructSize + size < 2 ^ 64

/-- Nor is there a division by zero, and where the pointer is moved by a whole alignment the last
granule is more than half full. -/
def MemalignFits (backend : Backend) (align len : Nat) : Prop :=
  acceptsAlign align = true → len ≠ 0 →
    ∀ block, backend ((chunkStructSize + (len + align) % 2 ^ 64) % 2 ^ 64) = some block →
      align ≠ 0 ∧ chunkStructSize + len + align < 2 ^ 64 ∧
        (align ∣ block.start + chunkBeginSize → len % allocAlignSize = 0 ∨
          8 ≤ len % allocAlignSize)

def Request.Fits (backend : Backend) (st : State shadow) : Request → Prop
  | .malloc size => MallocFits backend st size.toNat
  | .posixMemalign align len => MemalignFits backend align.toNat len.toNat

/-! ## One chunk -/

/-- The parts of a chunk whose header stands right in front of its user area. -/
def chunkLayout (obtained : Region) (user len right : Nat) : Layout where
  obtained := obtained
  header := ⟨user - chunkBeginSize, headerSize⟩
  leftRedzone := ⟨user - redzoneSize, redzoneSize⟩
  user := ⟨user, len⟩
  rightRedzone := ⟨user + len, right⟩

/-- The user area is cleared with its block, and no red zone is poisoned in it. -/
theorem unpoisoned_of_apart (st : State shadow) {obtained left right user : Region}
    (within : user.Within obtained) (leftApart : left.Apart user) (rightApart : user.Apart right)
    {k : Nat} (above : user.start ≤ k) (below : k < user.start + user.len) (chunk : ChunkBegin)
    (ck : Nat) :
    shadow.poisoned (((((st.unpoison obtained).setChunk ck chunk).poison left .heapLeftRz).poison
      right .heapRightRz).map) k = false := by
  unfold Region.Within at within
  unfold Region.Apart at leftApart rightApart
  simp only [State.poison, State.setChunk, State.unpoison]
  rw [shadow.poison_outside _ _ _ _ (by omega), shadow.poison_outside _ _ _ _ (by omega),
    shadow.unpoison_inside _ _ _ (by omega) (by omega)]

/-- A chunk is laid out as long as it ends inside its block. -/
theorem served_layOut_iff (st : State shadow) (obtained : Region) {user len right align : Nat}
    (chunk : ChunkBegin) (above : obtained.start + chunkBeginSize ≤ user)
    (aligned : align ∣ user) :
    Granted align (layOut st (chunkLayout obtained user len right) chunk) ↔
      user + len + right ≤ obtained.start + obtained.len := by
  have sizes : chunkBeginSize = headerSize + redzoneSize := rfl
  constructor
  · intro served
    cases outcome : layOut st (chunkLayout obtained user len right) chunk with
    | error reason => exact absurd outcome (served.returns reason)
    | ok result =>
        have within : ∃ after, result = (after, .chunk (chunkLayout obtained user len right)) := by
          unfold layOut at outcome
          dsimp only at outcome
          split at outcome
          · split at outcome
            · exact ⟨_, (Except.ok.inj outcome).symm⟩
            · exact nomatch outcome
          · exact nomatch outcome
        obtain ⟨after, rfl⟩ := within
        have laidOut := served.laidOut after _ outcome
        exact (laidOut.within (chunkLayout obtained user len right).rightRedzone
          (by simp [Layout.regions])).2
  · intro ends
    let layout := chunkLayout obtained user len right
    have within : ∀ region ∈ layout.regions, region.Within layout.obtained := by
      simp only [layout, Layout.regions, chunkLayout, List.forall_mem_cons, Region.Within]
      refine ⟨?_, ?_, ?_, ?_, fun _ member => nomatch member⟩ <;> omega
    have apart : layout.regions.Pairwise Region.Apart := by
      simp only [layout, Layout.regions, chunkLayout, List.pairwise_cons, List.forall_mem_cons,
        Region.Apart]
      refine ⟨⟨?_, ?_, ?_, fun _ member => nomatch member⟩, ⟨?_, ?_, fun _ member => nomatch member⟩,
        ⟨?_, fun _ member => nomatch member⟩, (fun _ member => nomatch member), .nil⟩ <;> omega
    have header : layout.header.Within layout.obtained := within _ (by simp [Layout.regions])
    have body : layout.user.Within layout.obtained := within _ (by simp [Layout.regions])
    have outcome : layOut st layout chunk = .ok
        ((((st.unpoison layout.obtained).setChunk layout.header.start chunk).poison
          layout.leftRedzone .heapLeftRz).poison layout.rightRedzone .heapRightRz,
            .chunk layout) := by
      rw [layOut, if_pos header]
      exact if_pos body
    rw [outcome]
    refine ⟨fun reason same => (nomatch same), fun after placed same => ?_⟩
    cases same
    refine ⟨within, apart, aligned, fun k fromStart toEnd => ?_⟩
    refine unpoisoned_of_apart st body (.inl ?_) (.inl (Nat.le_refl _)) fromStart toEnd chunk _
    simp only [layout, chunkLayout]
    omega

/-! ## Both functions -/

theorem served_without (align : Nat) {st : State shadow} {answer : Answer}
    (without : ∀ layout, answer ≠ .chunk layout) : Granted align (.ok (st, answer)) where
  returns := fun _ same => nomatch same
  laidOut := fun _ layout same => absurd (Prod.mk.inj (Except.ok.inj same)).2 (without layout)

/-- The right red zone of `__libqasan_malloc`. -/
def mallocRight (size : Nat) : Nat :=
  if size % allocAlignSize ≠ 0 then size / allocAlignSize * allocAlignSize + 8 + redzoneSize - size
  else redzoneSize

/-- The right red zone of `__libqasan_posix_memalign`. -/
def memalignRight (len : Nat) : Nat :=
  if len % allocAlignSize ≠ 0 then
    len / allocAlignSize * allocAlignSize + allocAlignSize + redzoneSize - len
  else redzoneSize

theorem malloc_some {backend : Backend} {st : State shadow} {size : Nat}
    {block : Obtained ((chunkStructSize + size) % 2 ^ 64)} (initialized : st.initialized = true)
    (answer : backend ((chunkStructSize + size) % 2 ^ 64) = some block) :
    malloc backend st size =
      layOut st (chunkLayout block.region (block.start + chunkBeginSize) size (mallocRight size))
        ⟨size, 0, 0, 0⟩ := by
  have header : block.start + chunkBeginSize - chunkBeginSize = block.start :=
    Nat.add_sub_cancel _ _
  have left : block.start + chunkBeginSize - redzoneSize = block.start + headerSize := by
    unfold chunkBeginSize
    omega
  rw [malloc, initialized, answer, chunkLayout, header, left]
  rfl

theorem posixMemalign_some {backend : Backend} {st : State shadow} {align len : Nat}
    {block : Obtained ((chunkStructSize + (len + align) % 2 ^ 64) % 2 ^ 64)}
    (accepted : acceptsAlign align = true) (some_ : len ≠ 0) (positive : align ≠ 0)
    (answer : backend ((chunkStructSize + (len + align) % 2 ^ 64) % 2 ^ 64) = some block) :
    ∃ chunk, posixMemalign backend st align len =
      (layOut st (chunkLayout block.region (block.start + chunkBeginSize +
        (align - (block.start + chunkBeginSize) % align)) len (memalignRight len)) chunk).map
          fun (st, answer) => (st, 0, answer) := by
  have left (data : Nat) : block.start + chunkBeginSize + data - redzoneSize =
      block.start + chunkBeginSize + data - chunkBeginSize + headerSize := by
    unfold chunkBeginSize
    omega
  refine ⟨⟨len, block.start, (st.chunks (block.start + chunkBeginSize +
    (align - (block.start + chunkBeginSize) % align) - chunkBeginSize)).next, (st.chunks
      (block.start + chunkBeginSize + (align - (block.start + chunkBeginSize) % align) -
        chunkBeginSize)).prev⟩, ?_⟩
  rw [posixMemalign, accepted, if_neg (by decide), if_neg some_]
  simp only [answer, if_neg positive]
  rw [chunkLayout, left]
  rfl

theorem malloc_ends_iff {start size : Nat} (word : size < 2 ^ 64) :
    start + chunkBeginSize + size + mallocRight size ≤
        start + (chunkStructSize + size) % 2 ^ 64 ↔
      chunkStructSize + size < 2 ^ 64 := by
  unfold mallocRight chunkStructSize chunkBeginSize allocAlignSize headerSize redzoneSize
  split <;> omega

/-- The next multiple of an alignment that lies behind an address. -/
theorem dvd_add_sub_mod (address : Nat) {align : Nat} (positive : align ≠ 0) :
    align ∣ address + (align - address % align) := by
  have below := Nat.mod_lt address (Nat.pos_of_ne_zero positive)
  have parts := Nat.div_add_mod address align
  refine ⟨address / align + 1, ?_⟩
  rw [Nat.mul_add, Nat.mul_one]
  omega

theorem memalign_ends_iff {start align len : Nat} (aligned : start % allocAlignSize = 0)
    (accepted : acceptsAlign align = true) (positive : align ≠ 0)
    (word : align < 2 ^ 64) (lenWord : len < 2 ^ 64)
    (fits : start + (chunkStructSize + (len + align) % 2 ^ 64) % 2 ^ 64 ≤ 2 ^ 64) :
    start + chunkBeginSize + (align - (start + chunkBeginSize) % align) + len +
          memalignRight len ≤
        start + (chunkStructSize + (len + align) % 2 ^ 64) % 2 ^ 64 ↔
      chunkStructSize + len + align < 2 ^ 64 ∧
        (align ∣ start + chunkBeginSize → len % allocAlignSize = 0 ∨ 8 ≤ len % allocAlignSize) := by
  have eights : align % 8 = 0 := by
    unfold acceptsAlign at accepted
    simp only [Bool.and_eq_true, decide_eq_true_eq] at accepted
    exact accepted.2
  have granule : (start + chunkBeginSize) % align % 8 = 0 := by
    rw [Nat.mod_mod_of_dvd _ (Nat.dvd_of_mod_eq_zero eights)]
    unfold allocAlignSize chunkBeginSize headerSize redzoneSize at *
    omega
  have below := Nat.mod_lt (start + chunkBeginSize) (Nat.pos_of_ne_zero positive)
  have le := Nat.mod_le (start + chunkBeginSize) align
  rw [Nat.dvd_iff_mod_eq_zero]
  generalize (start + chunkBeginSize) % align = moved at *
  unfold memalignRight chunkStructSize chunkBeginSize allocAlignSize headerSize redzoneSize at *
  split <;> omega

theorem malloc_served_iff (backend : Backend) (st : State shadow) {size : Nat}
    (word : size < 2 ^ 64) :
    Granted allocAlignSize (malloc backend st size) ↔ MallocFits backend st size := by
  unfold MallocFits
  cases initialized : st.initialized with
  | false =>
      rw [malloc, initialized]
      exact iff_of_true (served_without _ fun _ same => nomatch same) fun other => nomatch other
  | true =>
      cases answer : backend ((chunkStructSize + size) % 2 ^ 64) with
      | none =>
          rw [malloc, initialized, answer]
          exact iff_of_true (served_without _ fun _ same => nomatch same)
            fun _ other => absurd rfl other
      | some block =>
          have reached : allocAlignSize ∣ block.start + chunkBeginSize :=
            Nat.dvd_add (Nat.dvd_of_mod_eq_zero block.aligned) (by decide)
          rw [malloc_some initialized answer]
          refine (served_layOut_iff st block.region _ (Nat.le_refl _) reached).trans ?_
          refine (malloc_ends_iff word).trans ?_
          simp

theorem posixMemalign_served_iff (backend : Backend) (st : State shadow) {align len : Nat}
    (word : align < 2 ^ 64) (lenWord : len < 2 ^ 64) :
    Granted align ((posixMemalign backend st align len).map fun (st, _, answer) => (st, answer)) ↔
      MemalignFits backend align len := by
  unfold MemalignFits
  by_cases accepted : acceptsAlign align = true
  · by_cases some_ : len = 0
    · rw [posixMemalign, accepted, if_neg (by decide), if_pos some_]
      exact iff_of_true (served_without _ fun _ same => nomatch same)
        fun _ other => absurd some_ other
    · cases answer : backend ((chunkStructSize + (len + align) % 2 ^ 64) % 2 ^ 64) with
      | none =>
          rw [posixMemalign, accepted, if_neg (by decide), if_neg some_]
          simp only [answer]
          exact iff_of_true (served_without _ fun _ same => nomatch same)
            fun _ _ _ other => nomatch other
      | some block =>
          by_cases positive : align = 0
          · rw [posixMemalign, accepted, if_neg (by decide), if_neg some_]
            simp only [answer, if_pos positive]
            exact iff_of_false (fun served => served.returns _ rfl)
              fun fits => (fits trivial some_ block rfl).1 positive
          · obtain ⟨chunk, same⟩ := @posixMemalign_some _ _ st _ _ _ accepted some_ positive answer
            have reached := dvd_add_sub_mod (block.start + chunkBeginSize) positive
            have stored : (posixMemalign backend st align len).map
                (fun (st, _, answer) => (st, answer)) =
                  layOut st (chunkLayout block.region (block.start + chunkBeginSize +
                    (align - (block.start + chunkBeginSize) % align)) len (memalignRight len))
                      chunk := by
              rw [same]
              cases layOut st _ chunk with
              | error reason => rfl
              | ok result => rfl
            rw [stored]
            refine (served_layOut_iff st block.region chunk (Nat.le_add_right _ _) reached).trans ?_
            refine (memalign_ends_iff block.aligned accepted positive word lenWord block.fits).trans ?_
            simp [accepted, some_, positive]
  · rw [posixMemalign, if_pos (by simpa using accepted)]
    exact iff_of_true (served_without _ fun _ same => nomatch same)
      fun other => absurd other accepted

/-- A request is laid out as promised exactly when it fits. -/
theorem request_served_iff (backend : Backend) (st : State shadow) (request : Request) :
    Granted request.alignment (request.run backend st) ↔ request.Fits backend st := by
  cases request with
  | malloc size => exact malloc_served_iff backend st size.toNat_lt
  | posixMemalign align len =>
      exact posixMemalign_served_iff backend st align.toNat_lt len.toNat_lt

/-- The right red zone of a single byte ends 7 bytes behind its block. -/
theorem request_not_served :
    ¬ ∀ (shadow : Shadow) (backend : Backend) (st : State shadow) (request : Request),
      acceptsAlign request.alignment = true →
        Granted request.alignment (request.run backend st) := by
  intro all
  let backend : Backend := fun request =>
    if fits : 4096 + request ≤ 2 ^ 64 then some ⟨4096, by decide, by decide, fits⟩ else none
  let st : State exactShadow := ⟨true, 0, fun _ => false, fun _ => ⟨0, 0, 0, 0⟩, 0, 0, 0, []⟩
  have served := all exactShadow backend st (.posixMemalign 16 1) (by decide)
  have fits : MemalignFits backend 16 1 :=
    (posixMemalign_served_iff backend st (by decide) (by decide)).mp served
  have last := (fits (by decide) (by decide) ⟨4096, by decide, by decide, by decide⟩
    (dif_pos (by decide))).2.2 (by decide)
  exact absurd last (by decide)

end SbFuzz.QemuMode.QasanMalloc
