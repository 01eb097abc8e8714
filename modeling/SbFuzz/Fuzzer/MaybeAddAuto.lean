import SbFuzz.Fuzzer.DeterministicCoverage
import SbFuzz.Fuzzer.DictionaryStages
import SbFuzz.Fuzzer.Splicing

/-! `maybe_add_auto`: the automatic tokens, and which of the new ones are refused. -/

set_option autoImplicit false

namespace SbFuzz.Fuzzer.MaybeAddAuto

open Deterministic (interesting16 interesting32 swap16 swap32 unsigned)

def maxAutoExtra : Nat := 32

def maxAutoExtras : Nat := useAutoExtras * 8

/-- `struct auto_extra_data` -/
structure AutoExtra where
  data : Token
  hitCnt : UInt32

structure Tokens where
  extras : List Token
  aExtras : List AutoExtra
  autoChanged : Bool

/-! ## Comparisons -/

def toLower (c : UInt8) : UInt8 := if 0x41 ≤ c ∧ c ≤ 0x5a then c + 0x20 else c

/-- Whether two tokens of one length differ. -/
def memcmpNocase : List UInt8 → List UInt8 → Bool
  | c :: m1, d :: m2 => if toLower c ^^^ toLower d ≠ 0 then true else memcmpNocase m1 m2
  | _, _ => false

/-- The difference, in an `int`. -/
def compareAutoExtrasUseD (ae1 ae2 : AutoExtra) : Int :=
  ((ae2.hitCnt.toNat : Int) - ae1.hitCnt.toNat).bmod 0x100000000

def compareAutoExtrasLen (ae1 ae2 : AutoExtra) : Int := ae1.data.length - ae2.data.length

/-- `qsort` of the automatic tokens. Where the comparison is no order, because a difference
does not fit, they are in no particular order. -/
structure AutoQSort where
  byUse : List AutoExtra → List AutoExtra
  byLen : List AutoExtra → List AutoExtra
  perm_byUse : ∀ aExtras, (byUse aExtras).Perm aExtras
  perm_byLen : ∀ aExtras, (byLen aExtras).Perm aExtras
  sorted_byUse : ∀ aExtras, (∀ ae ∈ aExtras, ae.hitCnt.toNat < 0x80000000) →
    (byUse aExtras).Pairwise fun ae1 ae2 => compareAutoExtrasUseD ae1 ae2 ≤ 0
  sorted_byLen : ∀ aExtras,
    (byLen aExtras).Pairwise fun ae1 ae2 => compareAutoExtrasLen ae1 ae2 ≤ 0

theorem pairwise_mergeSort_rank (rank : AutoExtra → Nat) (aExtras : List AutoExtra) :
    (aExtras.mergeSort fun ae1 ae2 => rank ae1 ≤ rank ae2).Pairwise
      fun ae1 ae2 => rank ae1 ≤ rank ae2 := by
  have sorted := @List.pairwise_mergeSort AutoExtra (fun ae1 ae2 => decide (rank ae1 ≤ rank ae2))
    (fun ae1 ae2 ae3 first second => by
      simp only [decide_eq_true_eq] at first second ⊢
      omega)
    (fun ae1 ae2 => by
      simp only [Bool.or_eq_true, decide_eq_true_eq]
      omega) aExtras
  exact sorted.imp of_decide_eq_true

/-- By what is left to the largest count. -/
def AutoQSort.stable : AutoQSort where
  byUse := fun aExtras => aExtras.mergeSort fun ae1 ae2 =>
    0xffffffff - ae1.hitCnt.toNat ≤ 0xffffffff - ae2.hitCnt.toNat
  byLen := fun aExtras => aExtras.mergeSort fun ae1 ae2 => ae1.data.length ≤ ae2.data.length
  perm_byUse := fun aExtras => List.mergeSort_perm aExtras _
  perm_byLen := fun aExtras => List.mergeSort_perm aExtras _
  sorted_byUse := by
    intro aExtras small
    have sorted := pairwise_mergeSort_rank (fun ae => 0xffffffff - ae.hitCnt.toNat) aExtras
    refine sorted.imp_of_mem fun {ae1 ae2} member1 member2 ordered => ?_
    have small1 := small ae1 (List.mem_mergeSort.mp member1)
    have small2 := small ae2 (List.mem_mergeSort.mp member2)
    unfold compareAutoExtrasUseD
    rw [Int.bmod_eq_of_le (by omega) (by omega)]
    omega
  sorted_byLen := by
    intro aExtras
    refine (pairwise_mergeSort_rank (fun ae => ae.data.length) aExtras).imp fun ordered => ?_
    unfold compareAutoExtrasLen
    omega

/-! ## Refusals -/

/-- The index behind the bytes that are like the first one. -/
def skipSame (first : UInt8) : List UInt8 → Nat → Nat
  | [], i => i
  | c :: rest, i => if first ^^^ c ≠ 0 then i else skipSame first rest (i + 1)

def isRun (mem : Token) : Bool := skipSame (mem.getD 0 0) (mem.drop 1) 1 = mem.length

/-- The loops over the interesting values. A `u16` is compared with an `s16` as an `int`. -/
def isBuiltin (mem : Token) : Bool :=
  (mem.length == 2 && interesting16.any fun v =>
    (Memory.load 2 mem 0 : Int) == v || Memory.load 2 mem 0 == swap16 (unsigned 16 v)) ||
  (mem.length == 4 && interesting32.any fun v =>
    Memory.load 4 mem 0 == unsigned 32 v || Memory.load 4 mem 0 == swap32 (unsigned 32 v))

/-- The loops over the user's tokens. -/
def matchesExtra (extras : List Token) (mem : Token) : Bool :=
  ((extras.dropWhile fun extra => extra.length < mem.length).takeWhile
    fun extra => extra.length = mem.length).any fun extra => !memcmpNocase extra mem

/-! ## New tokens -/

def AutoExtra.matches (mem : Token) (ae : AutoExtra) : Bool :=
  ae.data.length = mem.length && !memcmpNocase ae.data mem

def place (random : Nat) (aExtras : List AutoExtra) (mem : Token) : List AutoExtra :=
  match aExtras.findIdx? (AutoExtra.matches mem) with
  | some i => aExtras.modify i fun ae => { ae with hitCnt := ae.hitCnt + 1 }
  | none =>
    if aExtras.length < maxAutoExtras then aExtras ++ [⟨mem, 0⟩]
    else
      aExtras.set (maxAutoExtras / 2 + Splicing.randBelow ((maxAutoExtras + 1) / 2) random) ⟨mem, 0⟩

def sortAExtras (qsort : AutoQSort) (aExtras : List AutoExtra) : List AutoExtra :=
  let used := qsort.byUse aExtras
  qsort.byLen (used.take useAutoExtras) ++ used.drop useAutoExtras

def maybeAddAuto (qsort : AutoQSort) (random : Nat) (tokens : Tokens) (mem : Token) : Tokens :=
  if isRun mem ∨ maxAutoExtra < mem.length then tokens
  else if isBuiltin mem then tokens
  else if matchesExtra tokens.extras mem then tokens
  else
    { tokens with
      aExtras := sortAExtras qsort (place random tokens.aExtras mem)
      autoChanged := true }

/-! ## Interesting values -/

/-- The value in either byte order is one of those that are built in. -/
def Interesting (values : List Int) (mem : Token) : Prop :=
  ∃ v ∈ values, Memory.load mem.length mem 0 = unsigned (8 * mem.length) v ∨
    Memory.load mem.length mem.reverse 0 = unsigned (8 * mem.length) v

/-- A token that is turned down for another reason. -/
def Unwanted (tokens : Tokens) (mem : Token) : Prop :=
  isRun mem ∨ maxAutoExtra < mem.length ∨ matchesExtra tokens.extras mem

/-- The call leaves before the tokens are changed. -/
def Refused (qsort : AutoQSort) (random : Nat) (tokens : Tokens) (mem : Token) : Prop :=
  (maybeAddAuto qsort random { tokens with autoChanged := false } mem).autoChanged = false

theorem load_reverse_two (a b : UInt8) :
    Memory.load 2 [b, a] 0 = swap16 (Memory.load 2 [a, b] 0) := by
  have low := Deterministic.swap16_low (Memory.load_lt 2 [a, b] 0)
  have high := Deterministic.swap16_high (Memory.load 2 [a, b] 0)
  have smallA := UInt8.toNat_lt a
  have smallB := UInt8.toNat_lt b
  simp only [Memory.load, List.getD_cons_zero, List.getD_cons_succ] at low high ⊢
  omega

theorem load_reverse_four (a b c d : UInt8) :
    Memory.load 4 [d, c, b, a] 0 = swap32 (Memory.load 4 [a, b, c, d] 0) := by
  have word : Memory.load 4 [a, b, c, d] 0 =
      Memory.load 2 [a, b] 0 + 2 ^ 16 * Memory.load 2 [c, d] 0 := Memory.load_add 2 2 _ 0
  have low := Deterministic.swap32_low (Memory.load 4 [a, b, c, d] 0)
  have high := Deterministic.swap32_high (Memory.load 4 [a, b, c, d] 0)
  have smallAB := Memory.load_lt 2 [a, b] 0
  rw [word, Nat.add_mul_div_left _ _ (by decide), Nat.div_eq_of_lt smallAB, Nat.zero_add,
    ← load_reverse_two] at low
  rw [word, Nat.add_mul_mod_self_left, Nat.mod_eq_of_lt smallAB, ← load_reverse_two] at high
  have swapped : Memory.load 4 [d, c, b, a] 0 =
      Memory.load 2 [d, c] 0 + 2 ^ 16 * Memory.load 2 [b, a] 0 := Memory.load_add 2 2 _ 0
  rw [swapped, word]
  omega

theorem unsigned_lt (bits : Nat) (v : Int) : unsigned bits v < 2 ^ bits := by
  have positive : (0 : Int) < 2 ^ bits := Int.pow_pos (by decide)
  have bound := Int.emod_lt_of_pos v positive
  have nonneg := Int.emod_nonneg v (Int.ne_of_gt positive)
  have power : ((2 ^ bits : Nat) : Int) = 2 ^ bits := by push_cast; rfl
  unfold unsigned
  omega

theorem eq_swap16_iff {w u : Nat} (fitsW : w < 2 ^ 16) (fitsU : u < 2 ^ 16) :
    w = swap16 u ↔ swap16 w = u := by
  constructor
  · rintro rfl
    exact Deterministic.swap16_swap16 fitsU
  · rintro rfl
    exact (Deterministic.swap16_swap16 fitsW).symm

theorem eq_swap32_iff {w u : Nat} (fitsW : w < 2 ^ 32) (fitsU : u < 2 ^ 32) :
    w = swap32 u ↔ swap32 w = u := by
  constructor
  · rintro rfl
    exact Deterministic.swap32_swap32 fitsU
  · rintro rfl
    exact (Deterministic.swap32_swap32 fitsW).symm

/-- The bytes of a negative value in the other order are those of another value, but for one. -/
theorem swapped_negative : ∀ v ∈ interesting16, v < 0 → v ≠ -128 →
    ∃ other ∈ interesting16, swap16 (unsigned 16 v) = unsigned 16 other := by decide

theorem isBuiltin_two_iff (a b : UInt8) :
    isBuiltin [a, b] = true ↔ ∃ v ∈ interesting16, (Memory.load 2 [a, b] 0 : Int) = v ∨
      Memory.load 2 [b, a] 0 = unsigned 16 v := by
  have swapped (v : Int) : Memory.load 2 [a, b] 0 = swap16 (unsigned 16 v) ↔
      Memory.load 2 [b, a] 0 = unsigned 16 v := by
    rw [eq_swap16_iff (Memory.load_lt 2 _ 0) (unsigned_lt 16 v), ← load_reverse_two]
  simp [isBuiltin, swapped]

theorem isBuiltin_four_iff (a b c d : UInt8) :
    isBuiltin [a, b, c, d] = true ↔ Interesting interesting32 [a, b, c, d] := by
  have swapped (v : Int) : Memory.load 4 [a, b, c, d] 0 = swap32 (unsigned 32 v) ↔
      Memory.load 4 [d, c, b, a] 0 = unsigned 32 v := by
    rw [eq_swap32_iff (Memory.load_lt 4 _ 0) (unsigned_lt 32 v), ← load_reverse_four]
  simp [isBuiltin, Interesting, swapped]

/-- Only -128 is not recognized in the order it has in memory. -/
theorem isBuiltin_two_iff_interesting (a b : UInt8) :
    (isBuiltin [a, b] = true ↔ Interesting interesting16 [a, b]) ↔ [a, b] ≠ [0x80, 0xff] := by
  rw [isBuiltin_two_iff]
  have fits := Memory.load_lt 2 [a, b] 0
  constructor
  · rintro same ⟨⟩
    exact absurd (same.mpr ⟨-128, by decide, .inl (by decide)⟩) (by decide)
  · intro other
    constructor
    · rintro ⟨v, member, native | swapped⟩
      · refine ⟨v, member, .inl ?_⟩
        change Memory.load 2 [a, b] 0 = unsigned 16 v
        unfold unsigned
        omega
      · exact ⟨v, member, .inr swapped⟩
    · rintro ⟨v, member, native | swapped⟩
      · change Memory.load 2 [a, b] 0 = unsigned 16 v at native
        by_cases negative : v < 0
        · have apart : v ≠ -128 := by
            rintro rfl
            have smallA := UInt8.toNat_lt a
            have smallB := UInt8.toNat_lt b
            have word : Memory.load 2 [a, b] 0 = 0xff80 := native
            simp only [Memory.load, List.getD_cons_zero, List.getD_cons_succ] at word
            have byteA : a = 0x80 := UInt8.toNat_inj.mp (by change a.toNat = 0x80; omega)
            have byteB : b = 0xff := UInt8.toNat_inj.mp (by change b.toNat = 0xff; omega)
            exact other (by rw [byteA, byteB])
          obtain ⟨v', member', same⟩ := swapped_negative v member negative apart
          exact ⟨v', member', .inr (by rw [load_reverse_two, native, same])⟩
        · refine ⟨v, member, .inl ?_⟩
          unfold unsigned at native
          have small : ∀ v ∈ interesting16, v < 2 ^ 16 := by decide
          have bound := small v member
          omega
      · exact ⟨v, member, .inr swapped⟩

def builtins (mem : Token) : List Int := if mem.length = 2 then interesting16 else interesting32

theorem refused_iff {qsort : AutoQSort} {random : Nat} {tokens : Tokens} {mem : Token} :
    Refused qsort random tokens mem ↔ Unwanted tokens mem ∨ isBuiltin mem = true := by
  unfold Refused Unwanted maybeAddAuto
  dsimp only
  split
  · next unwanted =>
    tauto
  · next wanted =>
    split
    · tauto
    · split
      · tauto
      · simp only [Bool.true_eq_false, false_iff]
        tauto

/-- A token of two or four bytes that nothing else speaks against is refused exactly when it is an
interesting value in one of the byte orders, unless it is -128 as it lies in memory. -/
theorem maybeAddAuto_refuses_iff (qsort : AutoQSort) (random : Nat) (tokens : Tokens) {mem : Token}
    (word : mem.length = 2 ∨ mem.length = 4) :
    (¬ Unwanted tokens mem →
        (Refused qsort random tokens mem ↔ Interesting (builtins mem) mem)) ↔
      Unwanted tokens mem ∨ mem ≠ [0x80, 0xff] := by
  by_cases unwanted : Unwanted tokens mem
  · exact ⟨fun _ => .inl unwanted, fun _ wanted => absurd unwanted wanted⟩
  · rw [refused_iff, or_iff_right unwanted, or_iff_right unwanted, forall_prop_of_true unwanted]
    rcases word with two | four
    · obtain ⟨a, b, rfl⟩ := List.length_eq_two.mp two
      exact isBuiltin_two_iff_interesting a b
    · obtain ⟨a, b, c, d, rfl⟩ : ∃ a b c d, mem = [a, b, c, d] := by
        match mem, four with
        | [a, b, c, d], _ => exact ⟨a, b, c, d, rfl⟩
      refine iff_of_true (isBuiltin_four_iff a b c d) fun same => ?_
      exact absurd (congrArg List.length same) (by simp)

def noTokens : Tokens := ⟨[], [], false⟩

/-- A token of the bytes 1 and 0. -/
theorem maybeAddAuto_refuses_iff_one :
    (¬ Unwanted noTokens [1, 0] →
        (Refused .stable 0 noTokens [1, 0] ↔ Interesting (builtins [1, 0]) [1, 0])) ↔
      Unwanted noTokens [1, 0] ∨ [1, 0] ≠ ([0x80, 0xff] : Token) :=
  @maybeAddAuto_refuses_iff .stable 0 noTokens [1, 0] (.inl rfl)

/-- The bytes of -128 become a token. -/
theorem maybeAddAuto_takes_interesting :
    ¬ Unwanted noTokens [0x80, 0xff] ∧ Interesting (builtins [0x80, 0xff]) [0x80, 0xff] ∧
      ¬ Refused .stable 0 noTokens [0x80, 0xff] := by
  have wanted : ¬ Unwanted noTokens [0x80, 0xff] := by
    unfold Unwanted
    decide
  refine ⟨wanted, ⟨-128, by decide, .inl (by decide)⟩, ?_⟩
  rw [refused_iff, or_iff_right wanted]
  decide

end SbFuzz.Fuzzer.MaybeAddAuto
