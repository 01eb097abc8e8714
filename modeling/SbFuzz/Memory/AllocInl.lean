import SbFuzz.Numeric.Smearing

/-! The growing buffers of `alloc-inl.h`: a header with the complete size in front of the bytes,
and growth to the next power of two. -/

set_option autoImplicit false

namespace SbFuzz.Memory.AllocInl

open SbFuzz.Numeric

/-! ### The size to grow to -/

def nextPow2 (size : UInt64) : UInt64 :=
  let out := size - 1
  let out := out ||| out >>> 1
  let out := out ||| out >>> 2
  let out := out ||| out >>> 4
  let out := out ||| out >>> 8
  let out := out ||| out >>> 16
  out + 1

/-- The least power of two from `n` on, or 0 when it does not fit a word. -/
def IsNextPow2 (n result : Nat) : Prop :=
  (∃ k < 64, result = 2 ^ k ∧ n ≤ 2 ^ k ∧ ∀ j, n ≤ 2 ^ j → k ≤ j) ∨
    (result = 0 ∧ ∀ k < 64, 2 ^ k < n)

theorem toNat_smear (out : UInt64) {shift : UInt64} (short : shift.toNat < 64) :
    (out ||| out >>> shift).toNat = out.toNat ||| out.toNat >>> shift.toNat := by
  rw [UInt64.toNat_or, UInt64.toNat_shiftRight, Nat.mod_eq_of_lt short]

/-- The shifts reach 32 bits down. -/
theorem nextPow2_smeared (size : UInt64) :
    ∃ out, Smeared 32 (size - 1).toNat out ∧ out < 2 ^ 64 ∧
      (nextPow2 size).toNat = (out + 1) % 2 ^ 64 := by
  have start := Smeared.self (size - 1).toNat
  have first := start.step (show 1 ≤ 1 by decide)
  have second := first.step (show 2 ≤ 2 by decide)
  have third := second.step (show 4 ≤ 4 by decide)
  have fourth := third.step (show 8 ≤ 8 by decide)
  have fifth := fourth.step (show 16 ≤ 16 by decide)
  refine ⟨_, fifth, fifth.lt_two_pow (size - 1).toNat_lt, ?_⟩
  rw [nextPow2, UInt64.toNat_add]
  simp only [toNat_smear _ (show (1 : UInt64).toNat < 64 by decide),
    toNat_smear _ (show (2 : UInt64).toNat < 64 by decide),
    toNat_smear _ (show (4 : UInt64).toNat < 64 by decide),
    toNat_smear _ (show (8 : UInt64).toNat < 64 by decide),
    toNat_smear _ (show (16 : UInt64).toNat < 64 by decide)]
  rfl

theorem isNextPow2_iff {x : Nat} (word : x < 2 ^ 64) (result : Nat) :
    IsNextPow2 (x + 1) result ↔ result = 2 ^ x.size % 2 ^ 64 := by
  have least : ∀ k, x + 1 ≤ 2 ^ k ↔ x.size ≤ k := fun k => Nat.size_le.symm
  have inWord : x.size ≤ 64 := (least 64).mp word
  constructor
  · intro isNext
    rcases isNext with ⟨k, below, rfl, reaches, all⟩ | ⟨rfl, beyond⟩
    · have same : k = x.size := le_antisymm (all _ ((least _).mpr le_rfl)) ((least k).mp reaches)
      subst same
      exact (Nat.mod_eq_of_lt (Nat.pow_lt_pow_right (by decide) below)).symm
    · have top : x.size = 64 := by
        by_contra lower
        have small := beyond x.size (by omega)
        exact absurd ((least x.size).mpr le_rfl) (by omega)
      rw [top, Nat.mod_self]
  · intro isPower
    by_cases below : x.size < 64
    · rw [Nat.mod_eq_of_lt (Nat.pow_lt_pow_right (by decide) below)] at isPower
      exact .inl ⟨x.size, below, isPower, (least _).mpr le_rfl, fun j => (least j).mp⟩
    · have top : x.size = 64 := by omega
      rw [top, Nat.mod_self] at isPower
      refine .inr ⟨isPower, fun k inRange => ?_⟩
      by_contra reaches
      have lower := (least k).mp (by omega)
      omega

theorem toNat_pred_add_one {size : UInt64} (some_ : size ≠ 0) :
    (size - 1).toNat + 1 = size.toNat := by
  have positive : size.toNat ≠ 0 := fun zero => some_ (UInt64.toNat_inj.mp zero)
  have one : (1 : UInt64) ≤ size := by
    rw [UInt64.le_iff_toNat_le]
    exact Nat.pos_of_ne_zero positive
  rw [UInt64.toNat_sub_of_le _ _ one]
  have unit : (1 : UInt64).toNat = 1 := rfl
  omega

/-- The shift by 32 is missing, so a gap of 32 zeros below the highest bit stays open. -/
theorem nextPow2_isNextPow2_iff {size : UInt64} (some_ : size ≠ 0) :
    IsNextPow2 size.toNat (nextPow2 size).toNat ↔ Dense 32 (size - 1).toNat := by
  obtain ⟨out, smeared, word, isResult⟩ := nextPow2_smeared size
  have inWord := (size - 1).toNat_lt
  rw [← toNat_pred_add_one some_, isNextPow2_iff inWord, isResult, ← smeared.add_one_eq_iff]
  have small : (size - 1).toNat.size ≤ 64 := Nat.size_le.mpr inWord
  have bounded : out + 1 ≤ 2 ^ (size - 1).toNat.size :=
    smeared.lt_two_pow (Nat.lt_size_self _)
  constructor
  · intro same
    rcases Nat.lt_or_eq_of_le small with below | top
    · have power : 2 ^ (size - 1).toNat.size < 2 ^ 64 := Nat.pow_lt_pow_right (by decide) below
      rwa [Nat.mod_eq_of_lt (by omega), Nat.mod_eq_of_lt power] at same
    · rw [top, Nat.mod_self] at same
      rw [top]
      omega
  · intro same
    rw [same]

theorem le_nextPow2 {size : UInt64} (fits : nextPow2 size ≠ 0) : size ≤ nextPow2 size := by
  by_cases zero : size = 0
  · rw [zero]
    exact UInt64.zero_le
  · obtain ⟨out, smeared, word, isResult⟩ := nextPow2_smeared size
    have reached := smeared.le (by decide)
    have before := toNat_pred_add_one zero
    have notZero : (nextPow2 size).toNat ≠ 0 := fun zero => fits (UInt64.toNat_inj.mp zero)
    rw [UInt64.le_iff_toNat_le]
    omega

def sizeOffset : UInt64 := 8

def initialGrowthSize : UInt64 := 64

/-- With no power of two left the buffer grows to the needed size itself. -/
def nextSize (sizeNeeded : UInt64) : UInt64 :=
  if sizeNeeded < initialGrowthSize then initialGrowthSize
  else if nextPow2 sizeNeeded = 0 then sizeNeeded
  else nextPow2 sizeNeeded

theorem le_nextSize (sizeNeeded : UInt64) :
    sizeNeeded ≤ nextSize sizeNeeded ∧ initialGrowthSize ≤ nextSize sizeNeeded := by
  rw [nextSize]
  split
  · next small => exact ⟨UInt64.le_of_lt small, UInt64.le_refl _⟩
  · next large =>
    have initial : initialGrowthSize ≤ sizeNeeded := UInt64.not_lt.mp large
    split
    · exact ⟨UInt64.le_refl _, initial⟩
    · next fits => exact ⟨le_nextPow2 fits, UInt64.le_trans initial (le_nextPow2 fits)⟩

/-! ### Buffers -/

/-- `afl_alloc_buf`; the header counts itself. -/
structure AflAllocBuf where
  completeSize : UInt64
  buf : List UInt8
  whole : completeSize.toNat = 8 + buf.length

def AflAllocBuf.bufsize (buf : AflAllocBuf) : UInt64 := buf.completeSize - sizeOffset

theorem AflAllocBuf.toNat_bufsize (buf : AflAllocBuf) : buf.bufsize.toNat = buf.buf.length := by
  have header : sizeOffset ≤ buf.completeSize := by
    rw [UInt64.le_iff_toNat_le, buf.whole]
    exact Nat.le_add_right 8 _
  rw [bufsize, UInt64.toNat_sub_of_le _ _ header, buf.whole]
  exact Nat.add_sub_cancel_left 8 _

def currentSize (buf : Option AflAllocBuf) : UInt64 :=
  match buf with
  | none => 0
  | some buf => buf.completeSize

def contents (buf : Option AflAllocBuf) : List UInt8 :=
  match buf with
  | none => []
  | some buf => buf.buf

theorem length_contents_le (buf : Option AflAllocBuf) {size : UInt64}
    (smaller : currentSize buf < size) : (contents buf).length ≤ (nextSize size).toNat - 8 := by
  obtain ⟨reaches, initial⟩ := le_nextSize size
  rw [UInt64.lt_iff_toNat_lt] at smaller
  rw [UInt64.le_iff_toNat_le] at reaches
  cases buf with
  | none => exact Nat.zero_le _
  | some buf =>
      have whole := buf.whole
      simp only [currentSize, contents] at smaller ⊢
      omega

/-- The block after `realloc`; `memset` clears what has come to it. -/
def grown (buf : Option AflAllocBuf) (size : UInt64) (smaller : currentSize buf < size) :
    AflAllocBuf where
  completeSize := nextSize size
  buf := contents buf ++
    List.replicate ((nextSize size).toNat - 8 - (contents buf).length) 0
  whole := by
    have inside := length_contents_le buf smaller
    have initial := (le_nextSize size).2
    rw [UInt64.le_iff_toNat_le] at initial
    have sixtyFour : initialGrowthSize.toNat = 64 := rfl
    rw [List.length_append, List.length_replicate]
    omega

/-- `afl_realloc`; `allocated` is whether `realloc` finds the memory. -/
def aflRealloc (buf : Option AflAllocBuf) (sizeNeeded : UInt64) (allocated : Bool) :
    Option AflAllocBuf :=
  if smaller : currentSize buf < sizeNeeded + sizeOffset then
    if allocated then some (grown buf (sizeNeeded + sizeOffset) smaller) else none
  else buf

/-- What the call hands to `next_pow2`. -/
def roundedSize (buf : Option AflAllocBuf) (sizeNeeded : UInt64) : Option UInt64 :=
  if currentSize buf < sizeNeeded + sizeOffset ∧
      ¬ sizeNeeded + sizeOffset < initialGrowthSize then
    some (sizeNeeded + sizeOffset)
  else none

/-! ### Calls -/

/-- What a call promises about the buffer it returns. -/
structure Served (before : Option AflAllocBuf) (size : UInt64) (after : Option AflAllocBuf) :
    Prop where
  capacity : ∀ buf, after = some buf → size ≤ buf.bufsize
  grows : ∀ old buf, before = some old → after = some buf → old.bufsize ≤ buf.bufsize
  kept : ∀ old buf, before = some old → after = some buf → old.buf <+: buf.buf
  rounded : ∀ n, roundedSize before size = some n → IsNextPow2 n.toNat (nextPow2 n).toNat

/-- The header fits on top of the size, and the size to round up has no gap of 32 zeros; or there
is no buffer, before the call and after it. -/
def Fits (before : Option AflAllocBuf) (size : UInt64) (allocated : Bool) : Prop :=
  if size.toNat + 8 < 2 ^ 64 then
    ∀ n, roundedSize before size = some n → Dense 32 (n - 1).toNat
  else before = none ∧ (size + sizeOffset = 0 ∨ allocated = false)

theorem grows_and_keeps {before : Option AflAllocBuf} {size : UInt64} {allocated : Bool}
    {old buf : AflAllocBuf} (isOld : before = some old)
    (returned : aflRealloc before size allocated = some buf) :
    old.bufsize ≤ buf.bufsize ∧ old.buf <+: buf.buf := by
  subst isOld
  rw [aflRealloc] at returned
  split at returned
  · next smaller =>
    split at returned
    · obtain rfl := Option.some_inj.mp returned
      have isPrefix : old.buf <+: (grown (some old) (size + sizeOffset) smaller).buf :=
        List.prefix_append _ _
      refine ⟨?_, isPrefix⟩
      rw [UInt64.le_iff_toNat_le, old.toNat_bufsize, AflAllocBuf.toNat_bufsize]
      exact isPrefix.length_le
    · cases returned
  · obtain rfl := Option.some_inj.mp returned
    exact ⟨UInt64.le_refl _, List.prefix_refl _⟩

theorem toNat_add_sizeOffset {size : UInt64} (fits : size.toNat + 8 < 2 ^ 64) :
    (size + sizeOffset).toNat = size.toNat + 8 := by
  rw [UInt64.toNat_add]
  exact Nat.mod_eq_of_lt fits

theorem capacity_of_fits {before : Option AflAllocBuf} {size : UInt64} {allocated : Bool}
    {buf : AflAllocBuf} (fits : size.toNat + 8 < 2 ^ 64)
    (returned : aflRealloc before size allocated = some buf) : size ≤ buf.bufsize := by
  have needed := toNat_add_sizeOffset fits
  have enough : size + sizeOffset ≤ buf.completeSize := by
    rw [aflRealloc] at returned
    split at returned
    · split at returned
      · obtain rfl := Option.some_inj.mp returned
        exact (le_nextSize _).1
      · cases returned
    · next notSmaller =>
      subst returned
      exact UInt64.not_lt.mp notSmaller
  rw [UInt64.le_iff_toNat_le, needed, buf.whole] at enough
  rw [UInt64.le_iff_toNat_le, buf.toNat_bufsize]
  omega

/-- The sum of the size and the header wraps around. -/
theorem capacity_of_wraps {buf : AflAllocBuf} {size : UInt64} (wraps : ¬ size.toNat + 8 < 2 ^ 64) :
    ¬ size ≤ buf.bufsize := by
  have word := buf.completeSize.toNat_lt
  rw [buf.whole] at word
  rw [UInt64.le_iff_toNat_le, buf.toNat_bufsize]
  omega

theorem aflRealloc_eq_none_iff {before : Option AflAllocBuf} {size : UInt64} {allocated : Bool}
    (wraps : ¬ size.toNat + 8 < 2 ^ 64) :
    aflRealloc before size allocated = none ↔
      before = none ∧ (size + sizeOffset = 0 ∨ allocated = false) := by
  have word := size.toNat_lt
  have small : (size + sizeOffset).toNat = size.toNat + 8 - 2 ^ 64 := by
    rw [UInt64.toNat_add]
    have header : sizeOffset.toNat = 8 := rfl
    omega
  cases before with
  | none =>
      have isZero : ¬ (0 : UInt64) < size + sizeOffset ↔ size + sizeOffset = 0 := by
        rw [UInt64.not_lt, UInt64.le_zero_iff]
      by_cases zero : size + sizeOffset = 0
      · simp [aflRealloc, currentSize, zero]
      · have smaller : (0 : UInt64) < size + sizeOffset := not_not.mp (mt isZero.mp zero)
        cases allocated <;> simp [aflRealloc, currentSize, zero, smaller]
  | some old =>
      have header : ¬ currentSize (some old) < size + sizeOffset := by
        rw [UInt64.lt_iff_toNat_lt, currentSize, old.whole, small]
        omega
      simp [aflRealloc, header]

theorem served_iff_fits (before : Option AflAllocBuf) (size : UInt64) (allocated : Bool) :
    Served before size (aflRealloc before size allocated) ↔ Fits before size allocated := by
  have rounded : (∀ n, roundedSize before size = some n →
      IsNextPow2 n.toNat (nextPow2 n).toNat) ↔
        ∀ n, roundedSize before size = some n → Dense 32 (n - 1).toNat := by
    refine forall_congr' fun n => imp_congr_right fun called => nextPow2_isNextPow2_iff ?_
    rw [roundedSize] at called
    split at called
    · next large =>
      obtain rfl := Option.some_inj.mp called
      intro zero
      rw [zero] at large
      exact large.2 (by decide)
    · cases called
  rw [Fits]
  by_cases fits : size.toNat + 8 < 2 ^ 64
  · rw [if_pos fits, ← rounded]
    exact ⟨Served.rounded, fun isNext =>
      { capacity := fun buf returned => capacity_of_fits fits returned
        grows := fun old buf isOld returned => (grows_and_keeps isOld returned).1
        kept := fun old buf isOld returned => (grows_and_keeps isOld returned).2
        rounded := isNext }⟩
  · rw [if_neg fits, ← aflRealloc_eq_none_iff fits]
    constructor
    · intro served
      cases returned : aflRealloc before size allocated with
      | none => rfl
      | some buf => exact absurd (served.capacity buf returned) (capacity_of_wraps fits)
    · intro nothing
      have small : roundedSize before size = none := by
        have word := size.toNat_lt
        have below : size + sizeOffset < initialGrowthSize := by
          rw [UInt64.lt_iff_toNat_lt, UInt64.toNat_add]
          have header : sizeOffset.toNat = 8 := rfl
          have sixtyFour : initialGrowthSize.toNat = 64 := rfl
          omega
        rw [roundedSize, if_neg fun large => large.2 below]
      rw [nothing]
      exact
        { capacity := fun buf returned => by cases returned
          grows := fun old buf _ returned => by cases returned
          kept := fun old buf _ returned => by cases returned
          rounded := fun n called => by rw [small] at called; cases called }

/-- The requests one after the other, each with the answer of `realloc`. -/
def AllServed : Option AflAllocBuf → List (UInt64 × Bool) → Prop
  | _, [] => True
  | buf, (size, allocated) :: rest =>
      Served buf size (aflRealloc buf size allocated) ∧
        AllServed (aflRealloc buf size allocated) rest

def AllFit : Option AflAllocBuf → List (UInt64 × Bool) → Prop
  | _, [] => True
  | buf, (size, allocated) :: rest =>
      Fits buf size allocated ∧ AllFit (aflRealloc buf size allocated) rest

theorem aflRealloc_serves_iff (buf : Option AflAllocBuf) (calls : List (UInt64 × Bool)) :
    AllServed buf calls ↔ AllFit buf calls := by
  induction calls generalizing buf with
  | nil => exact Iff.rfl
  | cons call rest ih => exact and_congr (served_iff_fits buf call.1 call.2) (ih _)

example : nextPow2 0x100000001 = 0x1ffffffff := by decide

/-- The request grows the buffer to 2^33 - 1 bytes. -/
theorem aflRealloc_misrounds :
    ¬ ∀ (buf : Option AflAllocBuf) (calls : List (UInt64 × Bool)),
      (∀ call ∈ calls, call.1.toNat + 8 < 2 ^ 64) → AllServed buf calls := by
  intro all
  have served := (all none [(0xfffffff9, true)] (by simp)).1
  have isNext := served.rounded 0x100000001 (by decide)
  have dense := (nextPow2_isNextPow2_iff (by decide)).mp isNext
  obtain ⟨j, inWindow, bit⟩ := dense 0 (by decide)
  have gap : ∀ j : Fin 32, Nat.testBit (0x100000001 - 1 : UInt64).toNat (0 + j.val) = false := by
    decide
  exact absurd bit (by rw [gap ⟨j, inWindow⟩]; exact Bool.false_ne_true)

end SbFuzz.Memory.AllocInl
