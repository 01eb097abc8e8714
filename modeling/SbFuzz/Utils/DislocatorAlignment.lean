import SbFuzz.Utils.Dislocator
import Mathlib.Algebra.Order.Group.Nat

/-! `posix_memalign` and its relatives of libdislocator: which blocks are aligned as they were
asked for. -/

set_option autoImplicit false

namespace SbFuzz.Utils.Dislocator

open SbFuzz.Memory

inductive AlignedCall where
  | posixMemalign
  | memalign
  | alignedAlloc
deriving DecidableEq, Repr

variable (config : Config)

/-- What the call returns, or stores for its caller. -/
def AlignedCall.run (st : State) (map : Option Nat) (align len : Nat) :
    AlignedCall → Except Stop (State × Nat)
  | .posixMemalign => (Dislocator.posixMemalign config st map 0 align len).map fun (st, _, ptr) =>
      (st, ptr)
  | .memalign => Dislocator.memalign config st map align len
  | .alignedAlloc => Dislocator.alignedAlloc config st map align len

/-- There is no division by zero, and a block is aligned and reaches up to its guard page. -/
structure ServedAligned (align len : Nat) (outcome : Except Stop (State × Nat)) : Prop where
  divides : outcome ≠ .error .divisionByZero
  aligned : ∀ st ptr, outcome = .ok (st, ptr) → ptr ≠ 0 → align ∣ ptr
  longEnough : ∀ st ptr, outcome = .ok (st, ptr) → ptr ≠ 0 →
    ∃ guard, st.protects.getLast? = some ⟨guard, pageSize⟩ ∧ ptr + len ≤ guard

/-- The next multiple of the alignment. -/
def alignUp (align len : Nat) : Nat :=
  if len % align ≠ 0 then len + (align - len % align) else len

/-- What the rounding to the alignment of `max_align_t` adds. -/
def padding (len : Nat) : Nat := roundLen config len - len

/-- A block that is allocated has a rounded length that fits a word, and a guard page at a multiple
of the alignment, apart from the padding. -/
def BlockFits (st : State) (map : Option Nat) (align len : Nat) : Prop :=
  ∀ page, map = some page → st.totalMem + alignUp align len % 2 ^ 64 ≤ config.maxMem →
    alignUp align len < 2 ^ 64 ∧
      align ∣ guardPage config page (alignUp align len) - padding config (alignUp align len)

def AlignedCall.Fits (st : State) (map : Option Nat) (align len : Nat) (call : AlignedCall) :
    Prop :=
  acceptsAlign align = true →
    (align = 0 → call ≠ .alignedAlloc ∧ len = 0) ∧
      (align ≠ 0 → len ≠ 0 → (call = .alignedAlloc → align ∣ len) →
        BlockFits config st map align len)

/-! ## Rounding -/

theorem alignUp_bounds {align : Nat} (positive : align ≠ 0) (len : Nat) :
    len ≤ alignUp align len ∧ align ∣ alignUp align len := by
  have below := Nat.mod_lt len (Nat.pos_of_ne_zero positive)
  unfold alignUp
  split
  · have next : len + (align - len % align) = align * (len / align) + align := by
      have parts := Nat.div_add_mod len align
      omega
    exact ⟨Nat.le_add_right _ _, next ▸ Nat.dvd_add (Nat.dvd_mul_right _ _) (Nat.dvd_refl align)⟩
  · next none => exact ⟨Nat.le_refl _, Nat.dvd_of_mod_eq_zero (not_not.mp none)⟩

variable {config}

/-- A rounded length that wraps around leaves less than was asked for. -/
theorem roundLen_wrapped {align len : Nat} (positive : align ≠ 0) (word : align < 2 ^ 64)
    (lenWord : len < 2 ^ 64) (wraps : ¬ alignUp align len < 2 ^ 64)
    (small : alignUp align len % 2 ^ 64 ≤ config.maxMem) :
    roundLen config (alignUp align len % 2 ^ 64) < len := by
  have limit := maxMem_lt config
  have rounded := le_roundLen small
  have below := Nat.mod_lt len (Nat.pos_of_ne_zero positive)
  unfold alignUp at *
  split at wraps
  · next some_ =>
    rw [if_pos some_] at *
    have quotient : align ≤ len := by
      by_contra shorter
      rw [Nat.mod_eq_of_lt (by omega)] at wraps
      omega
    omega
  · exact absurd lenWord wraps

/-! ## Blocks -/

theorem served_null (align len : Nat) (st : State) : ServedAligned align len (.ok (st, 0)) where
  divides := by simp
  aligned := fun _ _ same nonNull => absurd (Prod.mk.inj (Except.ok.inj same)).2.symm nonNull
  longEnough := fun _ _ same nonNull => absurd (Prod.mk.inj (Except.ok.inj same)).2.symm nonNull

theorem not_served_divisionByZero (align len : Nat) :
    ¬ ServedAligned align len (.error .divisionByZero) := fun served => served.divides rfl

theorem served_failed (align len request : Nat) (st : State) {reason : Stop}
    (other : reason ≠ .divisionByZero) :
    ServedAligned align len
      ((allocFails config st reason).map fun result => clobber result request) := by
  unfold allocFails
  split
  · exact ⟨fun same => other (Except.error.inj same), fun _ _ same => (nomatch same),
      fun _ _ same => (nomatch same)⟩
  · exact served_null align len st

theorem served_allocated_iff (align len page request : Nat) (st : State) :
    ServedAligned align len ((Except.ok (allocated config st page request,
        blockPtr config page request)).map fun result => clobber result request) ↔
      align ∣ blockPtr config page request ∧ len ≤ roundLen config request := by
  have place := blockPtr_add config page request
  have nonNull : blockPtr config page request ≠ 0 := by omega
  have last : (allocated config st page request).protects.getLast? =
      some ⟨guardPage config page request, pageSize⟩ := List.getLast?_concat
  rw [Except.map, clobber, if_neg nonNull]
  constructor
  · intro served
    refine ⟨served.aligned _ _ rfl nonNull, ?_⟩
    obtain ⟨guard, isLast, reaches⟩ := served.longEnough _ _ rfl nonNull
    have isGuard : guardPage config page request = guard :=
      congrArg Region.start (Option.some.inj (last.symm.trans isLast))
    omega
  · rintro ⟨aligned, longEnough⟩
    refine ⟨by simp, fun after ptr same _ => ?_, fun after ptr same _ => ?_⟩
    · obtain ⟨_, rfl⟩ := Prod.mk.inj (Except.ok.inj same)
      exact aligned
    · obtain ⟨rfl, rfl⟩ := Prod.mk.inj (Except.ok.inj same)
      exact ⟨_, last, by omega⟩

/-- The rounded length and the padding lie between the block and its guard page. -/
theorem dvd_blockPtr_iff {align len : Nat} (page : Nat) (rounded : align ∣ len)
    (small : len ≤ config.maxMem) :
    align ∣ blockPtr config page len ↔ align ∣ guardPage config page len - padding config len := by
  have place := blockPtr_add config page len
  have longer := (le_roundLen small).1
  have same : guardPage config page len - padding config len = blockPtr config page len + len := by
    unfold padding
    omega
  rw [same]
  exact (Nat.dvd_add_left rounded).symm

theorem served_block_iff (st : State) (map : Option Nat) {align len : Nat} (positive : align ≠ 0)
    (word : align < 2 ^ 64) (lenWord : len < 2 ^ 64) :
    ServedAligned align len ((dislocatorAlloc config st map (alignUp align len % 2 ^ 64)).map
        fun result => clobber result (alignUp align len % 2 ^ 64)) ↔
      BlockFits config st map align len := by
  obtain ⟨longer, rounded⟩ := alignUp_bounds positive len
  rw [dislocatorAlloc_eq st map (Nat.mod_lt _ (by decide))]
  by_cases fits : st.totalMem + alignUp align len % 2 ^ 64 ≤ config.maxMem
  · have small : alignUp align len % 2 ^ 64 ≤ config.maxMem :=
      Nat.le_trans (Nat.le_add_left _ _) fits
    rw [if_pos fits]
    cases map with
    | none =>
        exact iff_of_true (served_failed _ _ _ _ (by decide)) fun page same => nomatch same
    | some page =>
        refine (served_allocated_iff align len page _ st).trans ?_
        have atPage : BlockFits config st (some page) align len ↔ alignUp align len < 2 ^ 64 ∧
            align ∣ guardPage config page (alignUp align len) -
              padding config (alignUp align len) :=
          ⟨fun blockFits => blockFits page rfl fits,
            fun holds other same _ => Option.some.inj same ▸ holds⟩
        rw [atPage]
        by_cases noWrap : alignUp align len < 2 ^ 64
        · rw [Nat.mod_eq_of_lt noWrap] at small ⊢
          rw [dvd_blockPtr_iff page rounded small, and_iff_right noWrap]
          exact and_iff_left (Nat.le_trans longer (le_roundLen small).1)
        · have short := roundLen_wrapped positive word lenWord noWrap small
          exact iff_of_false (fun served => Nat.not_le.mpr short served.2)
            fun blockFits => noWrap blockFits.1
  · rw [if_neg fits]
    exact iff_of_true (served_failed _ _ _ _ (by decide)) fun page _ small => absurd small fits

/-! ## Calls -/

/-- The pointer of `posix_memalign` is what the other two calls return. -/
theorem run_memalign (st : State) (map : Option Nat) (align len : Nat) :
    AlignedCall.run config st map align len .memalign =
      AlignedCall.run config st map align len .posixMemalign := by
  unfold AlignedCall.run memalign
  cases posixMemalign config st map 0 align len with
  | error reason => rfl
  | ok result => rfl

theorem run_alignedAlloc (st : State) (map : Option Nat) (align len : Nat) :
    AlignedCall.run config st map align len .alignedAlloc =
      if align = 0 then .error .divisionByZero
      else if len % align ≠ 0 then .ok (st, 0)
      else AlignedCall.run config st map align len .posixMemalign := by
  rw [← run_memalign]
  rfl

theorem run_refused (st : State) (map : Option Nat) {align : Nat} (len : Nat)
    (refused : acceptsAlign align ≠ true) :
    AlignedCall.run config st map align len .posixMemalign = .ok (st, 0) := by
  rw [AlignedCall.run, Dislocator.posixMemalign, if_pos (by simpa using refused)]
  rfl

theorem run_zero (st : State) (map : Option Nat) (len : Nat) :
    AlignedCall.run config st map 0 len .posixMemalign =
      if len = 0 then .ok (st, 0) else .error .divisionByZero := by
  by_cases none : len = 0
  · rw [if_pos none, none]
    rfl
  · simp [AlignedCall.run, posixMemalign, acceptsAlign, none, Except.map]

theorem run_posixMemalign (st : State) (map : Option Nat) {align len : Nat}
    (accepted : acceptsAlign align = true) (positive : align ≠ 0) (lenWord : len < 2 ^ 64) :
    AlignedCall.run config st map align len .posixMemalign =
      if len = 0 then .ok (st, 0)
      else (dislocatorAlloc config st map (alignUp align len % 2 ^ 64)).map fun result =>
        clobber result (alignUp align len % 2 ^ 64) := by
  have request : (if len % align ≠ 0 then (len + (align - len % align)) % 2 ^ 64 else len) =
      alignUp align len % 2 ^ 64 := by
    unfold alignUp
    split
    · rfl
    · exact (Nat.mod_eq_of_lt lenWord).symm
  simp only [AlignedCall.run]
  rw [posixMemalign, accepted, if_neg (by decide)]
  by_cases none : len = 0
  · rw [if_pos none, if_pos none]
    rfl
  · rw [if_neg none, if_neg none, if_neg positive]
    dsimp only
    rw [request]
    cases dislocatorAlloc config st map (alignUp align len % 2 ^ 64) with
    | error reason => rfl
    | ok result => rfl

theorem served_posixMemalign_iff (st : State) (map : Option Nat) {align len : Nat}
    (accepted : acceptsAlign align = true) (positive : align ≠ 0) (word : align < 2 ^ 64)
    (lenWord : len < 2 ^ 64) :
    ServedAligned align len (AlignedCall.run config st map align len .posixMemalign) ↔
      (len ≠ 0 → BlockFits config st map align len) := by
  rw [run_posixMemalign st map accepted positive lenWord]
  split
  · next none => exact iff_of_true (served_null align len st) fun some_ => absurd none some_
  · next some_ =>
    rw [served_block_iff st map positive word lenWord]
    exact ⟨fun blockFits _ => blockFits, fun blockFits => blockFits some_⟩

/-- Without an alignment there is only a request of no bytes that is served. -/
theorem served_zero_iff (st : State) (map : Option Nat) (len : Nat) (call : AlignedCall) :
    ServedAligned 0 len (call.run config st map 0 len) ↔ call ≠ .alignedAlloc ∧ len = 0 := by
  have posix : ServedAligned 0 len (AlignedCall.run config st map 0 len .posixMemalign) ↔
      len = 0 := by
    rw [run_zero]
    split
    · next none => exact iff_of_true (served_null 0 len st) none
    · next some_ => exact iff_of_false (not_served_divisionByZero 0 len) some_
  cases call with
  | posixMemalign => simpa using posix
  | memalign =>
      rw [run_memalign]
      simpa using posix
  | alignedAlloc =>
      rw [run_alignedAlloc, if_pos rfl]
      exact iff_of_false (not_served_divisionByZero 0 len) fun fits => fits.1 rfl

/-- A call serves its caller exactly when it fits. -/
theorem alignedCall_serves_iff (st : State) (map : Option Nat) (align len : UInt64)
    (call : AlignedCall) :
    ServedAligned align.toNat len.toNat (call.run config st map align.toNat len.toNat) ↔
      call.Fits config st map align.toNat len.toNat := by
  have word := align.toNat_lt
  have lenWord := len.toNat_lt
  generalize align.toNat = align at word ⊢
  generalize len.toNat = len at lenWord ⊢
  unfold AlignedCall.Fits
  by_cases accepted : acceptsAlign align = true
  · simp only [accepted, true_imp_iff]
    by_cases zero : align = 0
    · subst zero
      rw [served_zero_iff]
      simp
    · have posix := @served_posixMemalign_iff config st map align len accepted zero word lenWord
      cases call with
      | posixMemalign => simpa [zero] using posix
      | memalign =>
          rw [run_memalign]
          simpa [zero] using posix
      | alignedAlloc =>
          rw [run_alignedAlloc, if_neg zero]
          by_cases divides : align ∣ len
          · rw [if_neg (not_not.mpr (Nat.mod_eq_zero_of_dvd divides))]
            exact posix.trans (by simp [zero, divides])
          · rw [if_pos fun none => divides (Nat.dvd_of_mod_eq_zero none)]
            exact iff_of_true (served_null align len st) (by simp [zero, divides])
  · have positive : align ≠ 0 := by
      rintro rfl
      exact accepted rfl
    refine iff_of_true ?_ fun isAccepted => absurd isAccepted accepted
    have posix : ServedAligned align len
        (AlignedCall.run config st map align len .posixMemalign) := by
      rw [run_refused st map len accepted]
      exact served_null align len st
    cases call with
    | posixMemalign => exact posix
    | memalign =>
        rw [run_memalign]
        exact posix
    | alignedAlloc =>
        rw [run_alignedAlloc, if_neg positive]
        split
        · exact served_null align len st
        · exact posix

/-- A block of two pages ends at its guard page, which lies at an odd page. -/
theorem posixMemalign_misaligns :
    ¬ ∀ (config : Config) (st : State) (map : Option Nat) (align len : UInt64)
      (call : AlignedCall), acceptsAlign align.toNat = true →
        ServedAligned align.toNat len.toNat
          (call.run config st map align.toNat len.toNat) := by
  intro all
  have served := all ⟨2 ^ 30, false, false, false, 0xaaccaacc, by decide, by decide⟩
    ⟨0, fun _ => 0, [], []⟩ (some 2) 8192 8192 .posixMemalign (by decide)
  have blockFits := (served_posixMemalign_iff _ _ (by decide) (by decide) (by decide)
    (by decide)).mp served (by decide)
  exact absurd (blockFits 2 rfl (by decide)).2 (by decide)

end SbFuzz.Utils.Dislocator
