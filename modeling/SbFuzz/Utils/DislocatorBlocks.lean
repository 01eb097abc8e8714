import SbFuzz.Utils.Dislocator

/-! The memory of a block of libdislocator, from its header to its guard page, and what `free`
makes of it. -/

set_option autoImplicit false

namespace SbFuzz.Utils.Dislocator

open SbFuzz.Memory

/-- A block that was handed out, with the mapping that was made for it. -/
structure Block where
  ptr : Nat
  len : Nat
  map : Region
deriving DecidableEq, Repr

/-- The pages in front of the guard page. -/
def Block.dataPages (block : Block) : Region := ⟨block.map.start, block.map.len - pageSize⟩

theorem Block.start_dataPages (block : Block) : block.dataPages.start = block.map.start :=
  Region.start_mk _ _

theorem Block.len_dataPages (block : Block) : block.dataPages.len = block.map.len - pageSize := by
  rw [Block.dataPages]

variable (config : Config)

def mapping (page len : Nat) : Region :=
  ⟨page * pageSize, pageUp (roundLen config len + 8) + pageSize⟩

def blockAt (page len : Nat) : Block := ⟨blockPtr config page len, len, mapping config page len⟩

/-- The header, the tail and the guard page of a block are as they were made. -/
structure Placed (st : State) (block : Block) : Prop where
  small : block.len ≤ config.maxMem
  placed : ∃ page, block = blockAt config page block.len
  mapped : block.map ∈ st.maps
  guarded : ⟨block.ptr + roundLen config block.len, pageSize⟩ ∈ st.protects
  length : st.ptrL block.ptr = block.len % 2 ^ 32
  canary : st.ptrC block.ptr = config.allocCanary
  tail : ∀ k, block.len ≤ k → k < roundLen config block.len →
    st.mem (block.ptr + k) = tailAllocCanary

variable {config}

/-! ## Frames -/

theorem Placed.bounds {st : State} {block : Block} (placed : Placed config st block) :
    block.map.start + 8 ≤ block.ptr ∧
      block.ptr + roundLen config block.len + pageSize = block.map.start + block.map.len := by
  obtain ⟨page, same⟩ := placed.placed
  have place := blockPtr_add config page block.len
  have start : block.map.start = page * pageSize := by rw [same]; rfl
  have len : block.map.len = pageUp (roundLen config block.len + 8) + pageSize := by
    rw [same]
    rfl
  have ptr : block.ptr = blockPtr config page block.len := by
    conv_lhs => rw [same]
    rfl
  unfold guardPage at place
  omega

/-- A block stays as it is where only its own bytes change. -/
theorem Placed.frame {st after : State} {block : Block} (placed : Placed config st block)
    (maps : st.maps ⊆ after.maps) (protects : st.protects ⊆ after.protects)
    (same : ∀ k, block.map.start ≤ k → k < block.map.start + block.map.len →
      (k < block.ptr ∨ block.ptr + block.len ≤ k) → after.mem k = st.mem k) :
    Placed config after block := by
  have bounds := placed.bounds
  have longer := (le_roundLen placed.small).1
  refine ⟨placed.small, placed.placed, maps placed.mapped, protects placed.guarded, ?_, ?_, ?_⟩
  · refine (dword_congr fun k above below => ?_).trans placed.length
    exact same k (by omega) (by omega) (Or.inl (by omega))
  · refine (dword_congr fun k above below => ?_).trans placed.canary
    exact same k (by omega) (by omega) (Or.inl (by omega))
  · intro k above below
    rw [same (block.ptr + k) (by omega) (by omega) (Or.inr (by omega))]
    exact placed.tail k above below

/-- Nothing is written outside of the new mapping. -/
theorem allocated_outside (st : State) (page : Nat) {len k : Nat} (small : len ≤ config.maxMem)
    (outside : k < (mapping config page len).start ∨
      (mapping config page len).start + (mapping config page len).len ≤ k) :
    (allocated config st page len).mem k = st.mem k := by
  have place := blockPtr_add config page len
  have longer := (le_roundLen small).1
  unfold guardPage at place
  simp only [mapping] at outside
  have words (value : Nat) : (dwordBytes value).length = 4 := rfl
  have tail : (List.replicate (roundLen config len - len) tailAllocCanary).length =
      roundLen config len - len := List.length_replicate
  have unmapped : (st.mmap (page * pageSize)
      (pageUp (roundLen config len + 8) + pageSize)).mem k = st.mem k := if_neg (by omega)
  simp only [allocated]
  rcases outside with before | behind
  · rw [put_before _ _ (by omega), put_before _ _ (by omega), put_before _ _ (by omega), unmapped]
  · rw [put_outside _ (by omega), put_outside _ (by rw [words]; omega),
      put_outside _ (by rw [words]; omega), unmapped]

theorem placed_allocated (st : State) (page : Nat) {len : Nat} (small : len ≤ config.maxMem) :
    Placed config (allocated config st page len) (blockAt config page len) := by
  have place := blockPtr_add config page len
  have longer := (le_roundLen small).1
  have words (value : Nat) : (dwordBytes value).length = 4 := rfl
  refine ⟨small, ⟨page, rfl⟩, List.mem_append_right _ List.mem_cons_self,
    List.mem_append_right _ ?_, ?_, ?_, ?_⟩
  · rw [List.mem_singleton, blockAt, place.1]
  · let zeros := (st.mmap (page * pageSize) (pageUp (roundLen config len + 8) + pageSize)).mem
    refine Eq.trans (dword_congr fun k above below => ?_)
      (dword_put zeros (blockPtr config page len - 8) len)
    simp only [blockAt] at above below
    simp only [allocated]
    rw [put_before _ _ (by omega), put_before _ _ (by omega)]
  · let zeros := (st.mmap (page * pageSize) (pageUp (roundLen config len + 8) + pageSize)).mem
    let header := put zeros (blockPtr config page len - 8) (dwordBytes len)
    refine Eq.trans (dword_congr fun k above below => ?_)
      ((dword_put header (blockPtr config page len - 4) config.allocCanary).trans
        (Nat.mod_eq_of_lt config.word))
    simp only [blockAt] at above below
    simp only [allocated]
    rw [put_before _ _ (by omega)]
  · intro k above below
    simp only [blockAt] at above below ⊢
    obtain ⟨inTail, rfl⟩ := Nat.exists_eq_add_of_le above
    simp only [allocated]
    rw [← Nat.add_assoc, put_at _ _ (by rw [List.length_replicate]; omega),
      List.getElem_replicate]

/-! ## Release -/

theorem tailLoop_eq (mem : Cells) (ptr : Nat) {rlen fuel len : Nat} (word : rlen < 2 ^ 32)
    (le : len ≤ rlen) (enough : rlen - len < fuel)
    (tail : ∀ k, len ≤ k → k < rlen → mem (ptr + k) = tailAllocCanary) :
    tailLoop mem ptr rlen fuel len = .ok rlen := by
  induction fuel generalizing len with
  | zero => omega
  | succ fuel ih =>
      rw [tailLoop]
      by_cases inside : len < rlen
      · rw [if_pos inside, if_neg (not_not.mpr (tail len (Nat.le_refl _) inside)),
          Nat.mod_eq_of_lt (by omega)]
        exact ih inside (by omega) fun k above => tail k (by omega)
      · rw [if_neg inside, Nat.le_antisymm le (Nat.not_lt.mp inside)]

/-- No word of 32 bits reaches the end of the tail. -/
theorem tailLoop_wraps (mem : Cells) (ptr fuel : Nat) {len : Nat} (word : len < 2 ^ 32)
    (reached : Nat) : tailLoop mem ptr (2 ^ 32) fuel len ≠ .ok reached := by
  induction fuel generalizing len with
  | zero => exact fun same => nomatch same
  | succ fuel ih =>
      rw [tailLoop, if_pos word]
      split
      · exact fun same => nomatch same
      · exact ih (Nat.mod_lt _ (by decide))

/-- The length with its tail, up to the end of its last page, is a word of 32 bits. -/
def Block.Releasable (config : Config) (block : Block) : Prop :=
  roundLen config block.len + 8 + (pageSize - 1) < 2 ^ 32

theorem free_placed {st : State} {block : Block} (placed : Placed config st block) :
    free config st block.ptr =
      (checkTail config st block.ptr (block.len % 2 ^ 32)).bind fun len =>
        { st with totalMem := wrap 64 (st.totalMem - (block.len % 2 ^ 32 : Nat)) }.mprotect
          (block.ptr - wrap 32 (pageSize * pgCount 32 (len + 8) - len - 8) - 8)
          (pgCount 32 (len + 8) * pageSize % 2 ^ 32) := by
  have nonNull : block.ptr ≠ 0 := by
    have bounds := placed.bounds
    omega
  rw [free, if_neg nonNull, if_neg (not_not.mpr placed.canary), placed.length]
  rfl

theorem checkTail_eq {st : State} {block : Block} (placed : Placed config st block)
    (word : roundLen config block.len < 2 ^ 32) :
    checkTail config st block.ptr block.len = .ok (roundLen config block.len) := by
  have tail := placed.tail
  have longer := le_roundLen placed.small
  rw [checkTail]
  by_cases rounds : config.alignAllocations ∧ block.len % allocAlignSize ≠ 0
  · have rounded : block.len / allocAlignSize * allocAlignSize + allocAlignSize =
        roundLen config block.len := by
      rw [roundLen_eq placed.small, if_pos rounds.1]
      unfold allocAlignSize at *
      omega
    rw [if_pos rounds, rounded]
    exact tailLoop_eq st.mem block.ptr word longer.1 (by omega) tail
  · rw [if_neg rounds, roundLen, if_neg rounds]

theorem roundLen_lt_of_checkTail {st : State} {block : Block} (placed : Placed config st block)
    (word : block.len < 2 ^ 32) {len : Nat}
    (checked : checkTail config st block.ptr block.len = .ok len) :
    roundLen config block.len < 2 ^ 32 := by
  rw [checkTail] at checked
  split at checked
  · next rounds =>
    by_contra wide
    have rounded : block.len / allocAlignSize * allocAlignSize + allocAlignSize = 2 ^ 32 := by
      rw [roundLen_eq placed.small, if_pos rounds.1] at wide
      unfold allocAlignSize at *
      omega
    rw [rounded] at checked
    exact tailLoop_wraps _ _ _ word _ checked
  · next exact_ =>
    rw [roundLen, if_neg exact_]
    exact word

theorem dataPages_placed {st : State} {block : Block} (placed : Placed config st block) :
    Aligned block.dataPages.start ∧
      block.dataPages.len = pageUp (roundLen config block.len + 8) ∧
      block.ptr + roundLen config block.len =
        block.dataPages.start + pageUp (roundLen config block.len + 8) := by
  obtain ⟨page, same⟩ := placed.placed
  have bounds := placed.bounds
  have start : block.map.start = page * pageSize := by rw [same]; rfl
  have len : block.map.len = pageUp (roundLen config block.len + 8) + pageSize := by
    rw [same]
    rfl
  refine ⟨?_, ?_, ?_⟩
  · rw [Block.start_dataPages, start]
    exact Nat.mul_mod_left _ _
  · rw [Block.len_dataPages, len, Nat.add_sub_cancel]
  · rw [Block.start_dataPages]
    omega

theorem mprotect_dataPages {st after : State} {block : Block} (placed : Placed config st block)
    (maps : after.maps = st.maps) :
    after.mprotect block.dataPages.start block.dataPages.len =
      .ok { after with protects := after.protects ++ [block.dataPages] } := by
  rw [State.mprotect, Region.mk_eta, if_pos]
  refine ⟨(dataPages_placed placed).1, List.any_eq_true.mpr ⟨block.map, ?_, ?_⟩⟩
  · rw [maps]
    exact placed.mapped
  · have bounds := placed.bounds
    rw [Block.start_dataPages, Block.len_dataPages, Bool.and_eq_true, decide_eq_true_eq,
      decide_eq_true_eq]
    omega

theorem free_eq {st : State} {block : Block} (placed : Placed config st block)
    (releasable : block.Releasable config) (counted : block.len ≤ st.totalMem)
    (limited : st.totalMem ≤ config.maxMem) :
    free config st block.ptr =
      .ok { st with
        totalMem := st.totalMem - block.len
        protects := st.protects ++ [block.dataPages] } := by
  have limit := maxMem_lt config
  have longer := (le_roundLen placed.small).1
  obtain ⟨-, pages, ends⟩ := dataPages_placed placed
  have up := pageUp_bounds (roundLen config block.len + 8)
  have small : roundLen config block.len + 8 + pageSize ≤ 2 ^ 32 := by
    unfold Block.Releasable pageSize at *
    omega
  have data : pgCount 32 (roundLen config block.len + 8) * pageSize % 2 ^ 32 =
      block.dataPages.len := by
    rw [pgCount_mul small, pages, Nat.mod_eq_of_lt (by omega)]
  have distance : block.ptr - wrap 32 (pageSize * pgCount 32 (roundLen config block.len + 8) -
      roundLen config block.len - 8) - 8 = block.dataPages.start := by
    rw [wrap_offset small]
    omega
  rw [free_placed placed, Nat.mod_eq_of_lt (by omega), checkTail_eq placed (by omega),
    wrap_sub counted (by omega)]
  simp only [Except.bind]
  rw [data, distance]
  exact mprotect_dataPages placed rfl

/-- Otherwise the block is counted with another length, or other pages are protected. -/
theorem free_misses {st after : State} {block : Block} (placed : Placed config st block)
    (wide : ¬ block.Releasable config) (counted : block.len ≤ st.totalMem)
    (limited : st.totalMem ≤ config.maxMem) (freed : free config st block.ptr = .ok after) :
    after.maps = st.maps ∧ ∃ region, after.protects = st.protects ++ [region] ∧
      (after.totalMem + block.len ≠ st.totalMem ∨ region ≠ block.dataPages) := by
  have limit := maxMem_lt config
  have longer := (le_roundLen placed.small).1
  obtain ⟨-, pages, -⟩ := dataPages_placed placed
  have up := pageUp_bounds (roundLen config block.len + 8)
  rw [free_placed placed] at freed
  cases checked : checkTail config st block.ptr (block.len % 2 ^ 32) with
  | error reason =>
      rw [checked] at freed
      cases freed
  | ok len =>
      rw [checked] at freed
      simp only [Except.bind, State.mprotect] at freed
      split at freed
      · cases freed
        refine ⟨rfl, _, rfl, ?_⟩
        by_cases word : block.len < 2 ^ 32
        · right
          rw [Nat.mod_eq_of_lt word] at checked
          have short := roundLen_lt_of_checkTail placed word checked
          rw [checkTail_eq placed short] at checked
          cases checked
          intro same
          have last := congrArg Region.len same
          rw [pages] at last
          unfold Block.Releasable pgCount pageSize at *
          dsimp only at last
          omega
        · left
          have less : block.len % 2 ^ 32 < block.len :=
            Nat.lt_of_lt_of_le (Nat.mod_lt _ (by decide)) (Nat.not_lt.mp word)
          dsimp only
          rw [wrap_sub (by omega) (by omega)]
          omega
      · cases freed

end SbFuzz.Utils.Dislocator
