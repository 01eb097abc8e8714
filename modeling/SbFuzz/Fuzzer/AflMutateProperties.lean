import SbFuzz.Fuzzer.AflMutate

/-! The steps of `afl_mutate` stay inside its buffers, where the ones that do not
compare the new length with `max_len` find room. -/

set_option autoImplicit false

namespace SbFuzz.Fuzzer.AflMutate

open SbFuzz.Systems SbFuzz.Systems.Draws SbFuzz.Systems.Buffers

/-- `max_len` bytes of the buffers can be accessed, and the input is some of them. -/
structure State.Inside (maxLen : Nat) (st : State) : Prop where
  buf : st.buf.length = maxLen
  tmpBuf : maxLen ≤ st.tmpBuf.length
  nonempty : 1 ≤ st.len
  len : st.len ≤ maxLen

def Kept (maxLen : Nat) (mutated : Option State) : Prop := ∀ st ∈ mutated, st.Inside maxLen

section

variable {crashes : Prop} {maxLen : Nat} {st : State}

theorem State.Inside.withBuf (inside : st.Inside maxLen) {buf : List UInt8}
    (same : buf.length = st.buf.length) : ({ st with buf } : State).Inside maxLen :=
  ⟨same.trans inside.buf, inside.tmpBuf, inside.nonempty, inside.len⟩

theorem kept_some (inside : st.Inside maxLen) : Kept maxLen (some st) := by
  rintro _ ⟨⟩
  exact inside

theorem kept_none : Kept maxLen none := nofun

theorem kept_short (inside : st.Inside maxLen) {short : Prop} [Decidable short] :
    Kept maxLen (if short then some st else none) := by
  split
  · exact kept_some inside
  · exact kept_none

theorem u32_of_lt {sum : Nat} (small : sum < 0x100000000) : u32 sum = sum := Nat.mod_eq_of_lt small

/-! ## Blocks -/

theorem blockRange_returns (size : Nat) :
    Returns crashes (fun range => 1 ≤ range.1 ∧ range.1 ≤ range.2 ∧ range.2 ≤ havocBlkXl)
      (blockRange size) := by
  unfold blockRange
  split
  · exact .pure (by decide)
  · exact .pure (by decide)
  · refine .bind (.below_any 10) fun common _ => .ite (fun _ => ?_) (fun _ => ?_)
    · exact .pure (by decide)
    · exact .pure (by decide)

/-- A block has a byte at least, and no more than the limit where there is one. -/
theorem chooseBlockLen_returns (afl : Afl) (limit : Nat) :
    Returns crashes
      (fun blockLen => 1 ≤ blockLen ∧ blockLen ≤ max limit 1 ∧ blockLen ≤ havocBlkXl)
      (chooseBlockLen afl limit) := by
  refine .bind (.below_any _) fun size _ => .bind (blockRange_returns size) fun range bounds =>
    .bind (.below_le _) fun drawn below => .pure ?_
  split at below <;> split <;> omega

theorem replaceBlock_returns (u32s : maxLen < 0x100000000) (inside : st.Inside maxLen)
    {pos oldLen srcPos newLen : Nat} {src : List UInt8} (old : pos + oldLen ≤ st.len)
    (read : srcPos + newLen ≤ src.length) (some' : 1 ≤ st.len + newLen - oldLen)
    (room : st.len + newLen - oldLen ≤ maxLen) :
    Returns crashes (State.Inside maxLen) (replaceBlock st pos oldLen src srcPos newLen) := by
  obtain ⟨buf, tmpBuf, _, len⟩ := inside
  refine .bind (copy_returns (by omega) (by omega)) fun head headLen =>
    .bind (copy_returns read (by omega)) fun inserted insertedLen =>
    .bind (copy_returns (by omega) (by omega)) fun tail tailLen => ?_
  have exact' : u32 (st.len + newLen - oldLen) = st.len + newLen - oldLen := u32_of_lt (by omega)
  dsimp only
  rw [exact']
  refine .bind (copy_returns (by omega) (by omega)) fun after afterLen => .pure ?_
  exact ⟨afterLen.trans buf, by dsimp only; omega, some', room⟩

theorem fixedByte_returns (inside : st.Inside maxLen) {pos : Nat} (bound : pos ≤ st.len) :
    Returns crashes (fun _ => True) (fixedByte st pos) := by
  obtain ⟨buf, _, nonempty, len⟩ := inside
  refine .bind (.below_any 2) fun strat _ => .ite (fun _ => ?_) (fun _ => ?_)
  · exact .bind (.below_any 256) fun item _ => .pure trivial
  · refine loadByte_returns ?_
    split <;> omega

theorem deleteBlock_returns (inside : st.Inside maxLen) {delLen : Nat} (less : delLen < st.len) :
    Returns crashes (State.Inside maxLen) (deleteBlock st delLen) := by
  obtain ⟨buf, tmpBuf, _, len⟩ := inside
  refine .bind (.below (by omega)) fun delFrom drawn =>
    .bind (copy_returns (by omega) (by omega)) fun after afterLen => .pure ?_
  exact ⟨afterLen.trans buf, tmpBuf, by dsimp only; omega, by dsimp only; omega⟩

/-! ## Mutations of bytes and words -/

theorem modifyByte_returns (inside : st.Inside maxLen) {pos : Nat} (bound : pos < st.len)
    (new : UInt8 → UInt8) : Returns crashes (State.Inside maxLen) (modifyByte st pos new) := by
  have there : pos < st.buf.length := inside.buf ▸ Nat.lt_of_lt_of_le bound inside.len
  exact .bind (loadByte_returns there) fun byte _ => .bind (storeByte_returns there _) fun buf same =>
    .pure (inside.withBuf same)

theorem modifyWord_returns (inside : st.Inside maxLen) {width pos : Nat}
    (bound : pos + width ≤ st.len) (new : Nat → Nat) :
    Returns crashes (State.Inside maxLen) (modifyWord width st pos new) := by
  have there : pos + width ≤ st.buf.length := inside.buf ▸ Nat.le_trans bound inside.len
  exact .bind (loadWord_returns there) fun word _ => .bind (storeWord_returns there _)
    fun buf same => .pure (inside.withBuf same)

theorem flipbit_returns (inside : st.Inside maxLen) :
    Returns crashes (State.Inside maxLen) (flipbit st) :=
  .bind (.below_any 8) fun _ _ => .bind (.below inside.nonempty) fun _ drawn =>
    modifyByte_returns inside drawn _

theorem interesting8_returns (inside : st.Inside maxLen) :
    Returns crashes (State.Inside maxLen) (interesting8 st) := by
  refine .bind (.below (by decide)) fun item drawn =>
    .bind (.fetch_lt drawn) fun value _ =>
    .bind (.below inside.nonempty) fun pos bound => ?_
  have there : pos < st.buf.length := inside.buf ▸ Nat.lt_of_lt_of_le bound inside.len
  exact .bind (storeByte_returns there _) fun buf same => .pure (inside.withBuf same)

theorem interesting_returns (inside : st.Inside maxLen) {width : Nat} (wide : 0 < width)
    {values : List Int} (some' : 0 < values.length) (swap : Nat → Nat) :
    Returns crashes (State.Inside maxLen) (interesting width values swap st) := by
  refine .ite (fun _ => .pure inside) fun long => .bind (.below some') fun item drawn =>
    .bind (.fetch_lt drawn) fun value _ =>
    .bind (.below (by omega)) fun pos bound => ?_
  have there : pos + width ≤ st.buf.length := inside.buf ▸ by have := inside.len; omega
  exact .bind (storeWord_returns there _) fun buf same => .pure (inside.withBuf same)

theorem arith8_returns (inside : st.Inside maxLen) (new : UInt8 → UInt8 → UInt8) :
    Returns crashes (State.Inside maxLen) (arith8 new st) :=
  .bind (.below_any _) fun _ _ => .bind (.below inside.nonempty) fun _ drawn =>
    modifyByte_returns inside drawn _

theorem arith_returns (inside : st.Inside maxLen) {width : Nat} (wide : 0 < width)
    (new : Nat → Nat → Nat → Nat) (swap : Nat → Nat) :
    Returns crashes (State.Inside maxLen) (arith width new swap st) :=
  .ite (fun _ => .pure inside) fun long => .bind (.below (by omega)) fun pos bound =>
    .bind (.below_any _) fun _ _ => modifyWord_returns inside (by omega) _

theorem rand8_returns (inside : st.Inside maxLen) :
    Returns crashes (State.Inside maxLen) (rand8 st) :=
  .bind (.below inside.nonempty) fun _ drawn => .bind (.below_any _) fun _ _ =>
    modifyByte_returns inside drawn _

theorem bytewise_returns (inside : st.Inside maxLen) (new : UInt8 → UInt8) :
    Returns crashes (State.Inside maxLen) (bytewise new st) :=
  .bind (.below inside.nonempty) fun _ drawn => modifyByte_returns inside drawn _

/-! ## Mutations of blocks -/

theorem cloneCopy_returns (u32s : maxLen < 0x100000000) {args : Arguments} (afl : Afl)
    (capacity : args.maxLen = maxLen) (inside : st.Inside maxLen)
    (small : st.len + havocBlkXl < 0x100000000) :
    Returns crashes (Kept maxLen) (cloneCopy afl args st) := by
  refine .ite (fun grows => ?_) (fun _ => .pure (kept_short inside))
  rw [u32_of_lt small, capacity] at grows
  have nonempty := inside.nonempty
  have len := inside.len
  refine .bind (chooseBlockLen_returns afl st.len) fun cloneLen bounds =>
    .bind (.below (Nat.succ_pos _)) fun cloneFrom drawnFrom =>
    .bind (.below nonempty) fun cloneTo drawnTo =>
    .bind (replaceBlock_returns u32s inside (by omega) ?_ (by omega) (by omega)) fun after kept =>
    .pure (kept_some kept)
  rw [inside.buf]
  omega

theorem cloneFixed_returns (u32s : maxLen < 0x100000000) {args : Arguments} (afl : Afl)
    (capacity : args.maxLen = maxLen) (inside : st.Inside maxLen)
    (small : st.len + havocBlkXl < 0x100000000) :
    Returns crashes (Kept maxLen) (cloneFixed afl args st) := by
  refine .ite (fun grows => ?_) (fun _ => .pure (kept_short inside))
  rw [u32_of_lt small, capacity] at grows
  have nonempty := inside.nonempty
  refine .bind (chooseBlockLen_returns afl havocBlkXl) fun cloneLen bounds =>
    .bind (.below nonempty) fun cloneTo drawn =>
    .bind (fixedByte_returns inside (Nat.le_of_lt drawn)) fun item _ =>
    .bind (replaceBlock_returns u32s inside (by omega) ?_ (by omega) (by omega)) fun after kept =>
    .pure (kept_some kept)
  rw [List.length_replicate, Nat.zero_add]

theorem overwriteCopy_returns (afl : Afl) (inside : st.Inside maxLen) :
    Returns crashes (State.Inside maxLen) (overwriteCopy afl st) := by
  refine .ite (fun _ => .pure inside) fun long => ?_
  have buf := inside.buf
  have len := inside.len
  refine .bind (chooseBlockLen_returns afl (st.len - 1)) fun copyLen bounds =>
    .bind (.below (Nat.succ_pos _)) fun copyFrom drawnFrom =>
    .bind (.below (Nat.succ_pos _)) fun copyTo drawnTo =>
    .ite (fun _ => ?_) (fun _ => .pure inside)
  exact .bind (copy_returns (by omega) (by omega)) fun buf same => .pure (inside.withBuf same)

theorem overwriteFixed_returns (afl : Afl) (inside : st.Inside maxLen) :
    Returns crashes (State.Inside maxLen) (overwriteFixed afl st) := by
  refine .ite (fun _ => .pure inside) fun long => ?_
  have buf := inside.buf
  have len := inside.len
  exact .bind (chooseBlockLen_returns afl (st.len - 1)) fun copyLen bounds =>
    .bind (.below (Nat.succ_pos _)) fun copyTo drawn =>
    .bind (fixedByte_returns inside (by omega)) fun item _ =>
    .bind (fill_returns (by omega) item) fun buf same => .pure (inside.withBuf same)

theorem switch_returns (afl : Afl) (inside : st.Inside maxLen) :
    Returns crashes (State.Inside maxLen) (switch afl st) := by
  refine .ite (fun _ => .pure inside) fun long => ?_
  have buf := inside.buf
  have tmpBuf := inside.tmpBuf
  have len := inside.len
  refine .bind (.below inside.nonempty) fun switchFrom drawnFrom =>
    .bind (.belowExcept inside.nonempty) fun switchTo drawnTo =>
    .bind (chooseBlockLen_returns afl _) fun switchLen bounds => ?_
  -- The blocks lie side by side, and the later one ends in front of the end.
  have apart : switchFrom + switchLen ≤ st.len ∧ switchTo + switchLen ≤ st.len := by
    obtain ⟨_, limit, _⟩ := bounds
    split at limit <;> omega
  refine .bind (copy_returns (by omega) (by omega)) fun tmp tmpLen =>
    .bind (copy_returns (by omega) (by omega)) fun first firstLen =>
    .bind (copy_returns (by omega) (by omega)) fun second secondLen => .pure ?_
  exact ⟨(secondLen.trans firstLen).trans buf, tmpLen ▸ tmpBuf, inside.nonempty, len⟩

theorem del_returns (afl : Afl) (inside : st.Inside maxLen) :
    Returns crashes (State.Inside maxLen) (del afl st) :=
  .ite (fun _ => .pure inside) fun long =>
    .bind (chooseBlockLen_returns afl (st.len - 1)) fun delLen bounds =>
    deleteBlock_returns inside (by omega)

theorem delone_returns (inside : st.Inside maxLen) :
    Returns crashes (State.Inside maxLen) (delone st) :=
  .ite (fun _ => .pure inside) fun long => deleteBlock_returns inside (by omega)

theorem shuffleLoop_returns {off i : Nat} {buf : List UInt8} (bound : off + i < buf.length) :
    Returns crashes (fun after => after.length = buf.length) (shuffleLoop off i buf) := by
  induction i generalizing buf with
  | zero => exact .pure rfl
  | succ i ih =>
      refine .bind (.belowExcept (Nat.succ_pos _)) fun j drawn =>
        .bind (loadByte_returns bound) fun temp _ =>
        .bind (loadByte_returns (by omega)) fun other _ =>
        .bind (storeByte_returns bound other) fun first firstLen =>
        .bind (storeByte_returns (by omega) temp) fun second secondLen => ?_
      exact .mono (ih (by omega)) fun after same => same.trans (secondLen.trans firstLen)

theorem shuffle_returns (afl : Afl) (inside : st.Inside maxLen) :
    Returns crashes (State.Inside maxLen) (shuffle afl st) := by
  refine .ite (fun _ => .pure inside) fun long => ?_
  have buf := inside.buf
  have len := inside.len
  exact .bind (chooseBlockLen_returns afl (st.len - 1)) fun blen bounds =>
    .bind (.below (Nat.succ_pos _)) fun off drawn =>
    .bind (shuffleLoop_returns (by omega)) fun buf same => .pure (inside.withBuf same)

theorem insertone_returns (u32s : maxLen < 0x100000000) (inside : st.Inside maxLen)
    (room : st.len < 2 ∨ st.len < maxLen) :
    Returns crashes (State.Inside maxLen) (insertone st) := by
  refine .ite (fun _ => .pure inside) fun long => ?_
  exact .bind (.below inside.nonempty) fun cloneTo drawn =>
    .bind (fixedByte_returns inside (Nat.le_of_lt drawn)) fun item _ =>
    replaceBlock_returns u32s inside (by omega) (Nat.le_refl _) (by omega) (by omega)

/-! ## Tokens and splices -/

theorem extraOverwrite_returns (extras : List (List UInt8)) (inside : st.Inside maxLen) :
    Returns crashes (Kept maxLen) (extraOverwrite extras st) := by
  refine .ite (fun _ => .pure kept_none) fun some' => .bind (.below (by omega))
    fun useExtra drawn => .bind (.fetch_lt drawn) fun extra _ =>
    .ite (fun _ => .pure kept_none) fun short => ?_
  have buf := inside.buf
  have len := inside.len
  exact .bind (.below (Nat.succ_pos _)) fun insertAt bound =>
    .bind (copy_returns (by omega) (by omega)) fun buf same =>
    .pure (kept_some (inside.withBuf same))

/-- The token that is drawn, behind the input, does not wrap around. -/
def ExtraFits (extras : List (List UInt8)) (st : State) (choices : List Nat) : Prop :=
  ∀ useExtra rest extra, below extras.length choices = .ok (useExtra, rest) →
    extras[useExtra]? = some extra → st.len + extra.length < 0x100000000

theorem extraInsert_returns (u32s : maxLen < 0x100000000) {args : Arguments}
    (capacity : args.maxLen = maxLen) {extras : List (List UInt8)} (inside : st.Inside maxLen)
    {choices : List Nat} (fits : ExtraFits extras st choices) :
    ReturnsOn choices crashes (Kept maxLen) (extraInsert extras args st) := by
  refine .ite (fun _ => Returns.on (.pure kept_none) _) fun some' =>
    .bind (Returns.on (.below (by omega)) _) fun useExtra rest drawn bound => ?_
  refine Returns.on (.bind (.fetch_eq (List.getElem?_eq_getElem bound)) fun extra same => ?_) rest
  have small := fits useExtra rest extra drawn (same ▸ List.getElem?_eq_getElem bound)
  refine .ite (fun _ => .pure kept_none) fun grows => ?_
  have buf := inside.buf
  rw [u32_of_lt small, capacity] at grows
  rw [u32_of_lt (by omega), u32_of_lt small]
  refine .bind (.below (Nat.succ_pos _)) fun insertAt bound' =>
    .bind (copy_returns (by omega) (by omega)) fun moved movedLen =>
    .bind (copy_returns (by omega) (by omega)) fun after afterLen => .pure (kept_some ?_)
  exact ⟨(afterLen.trans movedLen).trans buf, inside.tmpBuf,
    Nat.le_trans inside.nonempty (Nat.le_add_right _ _), Nat.le_of_lt (Nat.lt_of_not_le grows)⟩

theorem spliceOverwrite_returns (afl : Afl) (args : Arguments) (inside : st.Inside maxLen) :
    Returns crashes (Kept maxLen) (spliceOverwrite afl args st) := by
  refine .ite (fun _ => .pure kept_none) fun some' =>
    .bind (chooseBlockLen_returns afl (args.spliceBuf.length - 1)) fun chosen bounds => ?_
  have buf := inside.buf
  have len := inside.len
  have copyLen : (if st.len < chosen then st.len else chosen) ≤ st.len ∧
      (if st.len < chosen then st.len else chosen) ≤ args.spliceBuf.length := by
    split <;> omega
  exact .bind (.below (Nat.succ_pos _)) fun copyFrom drawnFrom =>
    .bind (.below (Nat.succ_pos _)) fun copyTo drawnTo =>
    .bind (copy_returns (by omega) (by omega)) fun buf same =>
    .pure (kept_some (inside.withBuf same))

theorem spliceInsert_returns (u32s : maxLen < 0x100000000) {args : Arguments} (afl : Afl)
    (capacity : args.maxLen = maxLen) (inside : st.Inside maxLen)
    (small : st.len + havocBlkXl < 0x100000000) :
    Returns crashes (Kept maxLen) (spliceInsert afl args st) := by
  refine .ite (fun _ => .pure kept_none) fun some' => .ite (fun _ => .pure kept_none) fun grows => ?_
  rw [u32_of_lt small, capacity] at grows
  rw [u32_of_lt (by omega)]
  refine .bind (chooseBlockLen_returns afl args.spliceBuf.length) fun cloneLen bounds =>
    .bind (.below (Nat.succ_pos _)) fun cloneFrom drawnFrom =>
    .bind (.below (Nat.succ_pos _)) fun cloneTo drawnTo =>
    .bind (replaceBlock_returns u32s inside (by omega) (by omega) (by omega) (by omega))
      fun after kept => .pure (kept_some kept)

end

end SbFuzz.Fuzzer.AflMutate
