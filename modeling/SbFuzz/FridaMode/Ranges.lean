import Mathlib.Algebra.Ring.Nat
import Mathlib.Data.List.Basic
import SbFuzz.Systems.Intervals

/-! `ranges.c`: the ranges that the stalker of FRIDA mode leaves uninstrumented. -/

set_option autoImplicit false

namespace SbFuzz.FridaMode

structure GumMemoryRange where
  baseAddress : UInt64
  size : UInt64
  deriving DecidableEq

/-- `G_MAXULONG` of 64 bits. -/
def gMaxUlong : UInt64 := 0xFFFFFFFFFFFFFFFF

/-- The flag is false when `ra` is before `rb`; without an intersection the range has size 0. -/
def intersectRange (ra rb : GumMemoryRange) : Bool × GumMemoryRange :=
  let rab := ra.baseAddress
  let ral := rab + ra.size
  let rbb := rb.baseAddress
  let rbl := rbb + rb.size
  if ral < rbb then (false, ⟨0, 0⟩)
  else if rab > rbl then (true, ⟨0, 0⟩)
  else
    let rrb := if rab > rbb then rab else rbb
    let rrl := if ral < rbl then ral else rbl
    (true, ⟨rrb, rrl - rrb⟩)

/-- The inner loop of `intersect_ranges`. -/
def intersectLoop (ra : GumMemoryRange) : List GumMemoryRange → List GumMemoryRange
  | [] => []
  | rb :: b =>
      let (goesOn, ri) := intersectRange ra rb
      if !goesOn then []
      else if ri.size = 0 then intersectLoop ra b
      else ri :: intersectLoop ra b

def intersectRanges (a b : List GumMemoryRange) : List GumMemoryRange :=
  a.flatMap fun ra => intersectLoop ra b

/-- What is left of a range after the inner loop. -/
def GumMemoryRange.rest (ra : GumMemoryRange) : List GumMemoryRange :=
  if ra.size ≠ 0 then [ra] else []

/-- The inner loop of `subtract_ranges`, which moves the base of `ra` up in its array; the array
is not read again. -/
def subtractLoop (ra : GumMemoryRange) : List GumMemoryRange → List GumMemoryRange
  | [] => ra.rest
  | rb :: b =>
      let ral := ra.baseAddress + ra.size
      let (goesOn, ri) := intersectRange ra rb
      if !goesOn then ra.rest
      else if ri.size = 0 then subtractLoop ra b
      else
        (if ra.baseAddress < ri.baseAddress then
          [⟨ra.baseAddress, ri.baseAddress - ra.baseAddress⟩]
        else []) ++
          if ri.baseAddress + ri.size > ral then []
          else subtractLoop ⟨ri.baseAddress + ri.size, ral - (ri.baseAddress + ri.size)⟩ b

def subtractRanges (a b : List GumMemoryRange) : List GumMemoryRange :=
  a.flatMap fun ra => subtractLoop ra b

/-- The loop of `merge_ranges`. -/
def mergeLoop (rp : GumMemoryRange) : List GumMemoryRange → List GumMemoryRange
  | [] => [rp]
  | r :: a =>
      if rp.baseAddress + rp.size = r.baseAddress then
        mergeLoop ⟨rp.baseAddress, rp.size + r.size⟩ a
      else rp :: mergeLoop r a

def mergeRanges : List GumMemoryRange → List GumMemoryRange
  | [] => []
  | rp :: a => mergeLoop rp a

/-- The options, and what Gum and the environment say about the process. -/
structure Config where
  instLibs : Bool
  instJit : Bool
  instDynamicLoad : Bool
  textBase : UInt64
  textLimit : UInt64
  moduleRanges : List GumMemoryRange
  /-- The executable ranges without a file. -/
  anonymousRanges : List GumMemoryRange
  includeRanges : List GumMemoryRange
  excludeRanges : List GumMemoryRange

def collectWholeMemRanges : List GumMemoryRange := [⟨0, gMaxUlong⟩]

def Config.collectLibsRanges (config : Config) : List GumMemoryRange :=
  if config.instLibs then [⟨0, gMaxUlong⟩]
  else [⟨config.textBase, config.textLimit - config.textBase⟩]

def Config.collectJitRanges (config : Config) : List GumMemoryRange :=
  if config.instJit then [] else config.anonymousRanges

/-- An empty list includes everything. -/
def Config.included (config : Config) : List GumMemoryRange :=
  if config.includeRanges.length = 0 then [⟨0, gMaxUlong⟩] else config.includeRanges

def Config.step4 (config : Config) : List GumMemoryRange :=
  let step1 := intersectRanges config.moduleRanges config.collectLibsRanges
  let step2 := intersectRanges step1 config.included
  let step3 := subtractRanges step2 config.excludeRanges
  subtractRanges step3 config.collectJitRanges

def rangesInit (config : Config) : List GumMemoryRange :=
  let step5 :=
    if config.instDynamicLoad then subtractRanges config.moduleRanges config.step4
    else subtractRanges collectWholeMemRanges config.step4
  mergeRanges step5

/-- The loop of `range_is_excluded`. -/
def excludedLoop (address : UInt64) : List GumMemoryRange → Bool
  | [] => false
  | curr :: ranges =>
      if address < curr.baseAddress then false
      else if address < curr.baseAddress + curr.size then true
      else excludedLoop address ranges

/-- Before `ranges_init` there are no ranges. -/
def rangeIsExcluded (ranges : Option (List GumMemoryRange)) (address : UInt64) : Bool :=
  match ranges with
  | none => false
  | some ranges => excludedLoop address ranges

/-! The loops over ranges compute what the ones over intervals of numbers do, and with them the
set of excluded addresses. -/

open SbFuzz.Systems.Intervals

namespace GumMemoryRange

def interval (r : GumMemoryRange) : HalfOpen Nat :=
  ⟨r.baseAddress.toNat, r.baseAddress.toNat + r.size.toNat⟩

def Fits (r : GumMemoryRange) : Prop := r.interval.hi < 2 ^ 64

variable {r ra rb : GumMemoryRange}

theorem toNat_limit (fits : r.Fits) : (r.baseAddress + r.size).toNat = r.interval.hi := by
  rw [UInt64.toNat_add]
  exact Nat.mod_eq_of_lt fits

theorem size_eq_zero_iff : r.size = 0 ↔ ¬ r.interval.lo < r.interval.hi := by
  rw [← UInt64.toNat_inj, interval]
  simp

theorem size_ne_zero (some : r.interval.lo < r.interval.hi) : r.size ≠ 0 :=
  mt size_eq_zero_iff.mp (not_not_intro some)

theorem interval_between {base limit : UInt64} (ordered : base ≤ limit) :
    interval ⟨base, limit - base⟩ = ⟨base.toNat, limit.toNat⟩ := by
  rw [UInt64.le_iff_toNat_le] at ordered
  rw [interval, UInt64.toNat_sub_of_le _ _ (UInt64.le_iff_toNat_le.mpr ordered),
    Nat.add_sub_cancel' ordered]

theorem fits_between {base limit : UInt64} (ordered : base ≤ limit) :
    Fits ⟨base, limit - base⟩ := by
  rw [Fits, interval_between ordered]
  exact limit.toNat_lt

end GumMemoryRange

def intervals (rs : List GumMemoryRange) : List (HalfOpen Nat) := rs.map GumMemoryRange.interval

section

variable {r ra rb : GumMemoryRange} {a b : List GumMemoryRange}

inductive Intersected (ra rb : GumMemoryRange) : Bool × GumMemoryRange → Prop where
  | behind (ri : GumMemoryRange) (before : ra.interval.hi < rb.interval.lo) :
      Intersected ra rb (false, ri)
  | apart (ri : GumMemoryRange) (notBehind : ¬ ra.interval.hi < rb.interval.lo)
      (none : ¬ (inter ra.interval rb.interval).lo < (inter ra.interval rb.interval).hi)
      (empty : ri.size = 0) : Intersected ra rb (true, ri)
  | meets (ri : GumMemoryRange) (notBehind : ¬ ra.interval.hi < rb.interval.lo)
      (some : (inter ra.interval rb.interval).lo < (inter ra.interval rb.interval).hi)
      (fits : ri.Fits) (same : ri.interval = inter ra.interval rb.interval) :
      Intersected ra rb (true, ri)

theorem toNat_max (x y : UInt64) : (if x > y then x else y).toNat = max x.toNat y.toNat := by
  split
  · next above => exact (max_eq_left_of_lt (UInt64.lt_iff_toNat_lt.mp above)).symm
  · next notAbove =>
    rw [gt_iff_lt, UInt64.lt_iff_toNat_lt] at notAbove
    exact (max_eq_right (not_lt.mp notAbove)).symm

theorem toNat_min (x y : UInt64) : (if x < y then x else y).toNat = min x.toNat y.toNat := by
  split
  · next below => exact (min_eq_left_of_lt (UInt64.lt_iff_toNat_lt.mp below)).symm
  · next notBelow =>
    rw [UInt64.lt_iff_toNat_lt] at notBelow
    exact (min_eq_right (not_lt.mp notBelow)).symm

theorem intersectRange_intersected (fits : ra.Fits) (fits' : rb.Fits) :
    Intersected ra rb (intersectRange ra rb) := by
  have limit := GumMemoryRange.toNat_limit fits
  have limit' := GumMemoryRange.toNat_limit fits'
  rw [intersectRange]
  simp only
  split
  · next before =>
    rw [UInt64.lt_iff_toNat_lt, limit] at before
    exact .behind _ before
  · next notBehind =>
    rw [UInt64.lt_iff_toNat_lt, limit] at notBehind
    split
    · next after =>
      rw [gt_iff_lt, UInt64.lt_iff_toNat_lt, limit'] at after
      refine .apart _ notBehind (not_lt.mpr ?_) rfl
      exact le_trans (min_le_right _ _) (le_trans (le_of_lt after) (le_max_left _ _))
    · next notAfter =>
      rw [gt_iff_lt, UInt64.lt_iff_toNat_lt, limit'] at notAfter
      have base := toNat_max ra.baseAddress rb.baseAddress
      have least := toNat_min (ra.baseAddress + ra.size) (rb.baseAddress + rb.size)
      rw [limit, limit'] at least
      have ordered : (if ra.baseAddress > rb.baseAddress then ra.baseAddress else rb.baseAddress) ≤
          (if ra.baseAddress + ra.size < rb.baseAddress + rb.size then ra.baseAddress + ra.size
            else rb.baseAddress + rb.size) := by
        rw [UInt64.le_iff_toNat_le, base, least]
        exact max_le (le_min (Nat.le_add_right _ _) (not_lt.mp notAfter))
          (le_min (not_lt.mp notBehind) (Nat.le_add_right _ _))
      have same := GumMemoryRange.interval_between ordered
      have fits := GumMemoryRange.fits_between ordered
      rw [base, least] at same
      by_cases meets : (inter ra.interval rb.interval).lo < (inter ra.interval rb.interval).hi
      · exact .meets _ notBehind meets fits same
      · refine .apart _ notBehind meets (GumMemoryRange.size_eq_zero_iff.mpr ?_)
        rw [same]
        exact meets

/-! ## Refinement -/

/-- The ranges are the intervals, and their limits are addresses. -/
structure Refines (rs : List GumMemoryRange) (expected : List (HalfOpen Nat)) : Prop where
  same : intervals rs = expected
  fit : ∀ r ∈ rs, r.Fits

theorem Refines.nil : Refines [] [] := ⟨rfl, List.forall_mem_nil _⟩

theorem Refines.cons {rs : List GumMemoryRange} {expected : List (HalfOpen Nat)} (fits : r.Fits)
    (rest : Refines rs expected) : Refines (r :: rs) (r.interval :: expected) :=
  ⟨congrArg (r.interval :: ·) rest.same, List.forall_mem_cons.mpr ⟨fits, rest.fit⟩⟩

theorem Refines.append {rs ss : List GumMemoryRange} {one two : List (HalfOpen Nat)}
    (first : Refines rs one) (second : Refines ss two) : Refines (rs ++ ss) (one ++ two) := by
  refine ⟨?_, List.forall_mem_append.mpr ⟨first.fit, second.fit⟩⟩
  rw [intervals, List.map_append]
  exact congrArg₂ _ first.same second.same

theorem Refines.flatMap {rs : List GumMemoryRange} (fit : ∀ r ∈ rs, r.Fits)
    {loop : GumMemoryRange → List GumMemoryRange} {pieces : HalfOpen Nat → List (HalfOpen Nat)}
    (each : ∀ r, r.Fits → Refines (loop r) (pieces r.interval)) :
    Refines (rs.flatMap loop) ((intervals rs).flatMap pieces) := by
  induction rs with
  | nil => exact .nil
  | cons r rs ih =>
      obtain ⟨first, later⟩ := List.forall_mem_cons.mp fit
      exact (each r first).append (ih later)

theorem intersectLoop_refines (fits : ra.Fits) (fit : ∀ r ∈ b, r.Fits) :
    Refines (intersectLoop ra b) (intersectOne ra.interval (intervals b)) := by
  induction b with
  | nil => exact .nil
  | cons rb b ih =>
      obtain ⟨first, later⟩ := List.forall_mem_cons.mp fit
      have found := intersectRange_intersected fits first
      rw [intersectLoop, intervals, List.map_cons, intersectOne]
      generalize intersectRange ra rb = result at found
      cases found with
      | behind ri before =>
          rw [if_pos before]
          exact .nil
      | apart ri notBehind none empty =>
          rw [if_neg notBehind, if_neg none]
          simp only [empty, Bool.not_true, Bool.false_eq_true, if_false, if_true]
          exact ih later
      | meets ri notBehind some fits' same =>
          have size : ri.size ≠ 0 := GumMemoryRange.size_ne_zero (same.symm ▸ some)
          rw [if_neg notBehind, if_pos some, ← same]
          simp only [size, Bool.not_true, Bool.false_eq_true, if_false]
          exact .cons fits' (ih later)

theorem intersectRanges_refines (fit : ∀ r ∈ a, r.Fits) (fit' : ∀ r ∈ b, r.Fits) :
    Refines (intersectRanges a b) (intersectAll (intervals a) (intervals b)) :=
  .flatMap fit fun _ fits => intersectLoop_refines fits fit'

theorem rest_refines (fits : ra.Fits) :
    Refines ra.rest (piece ra.interval.lo ra.interval.hi) := by
  rw [GumMemoryRange.rest, piece]
  by_cases some : ra.interval.lo < ra.interval.hi
  · have size : ra.size ≠ 0 := mt GumMemoryRange.size_eq_zero_iff.mp (not_not_intro some)
    rw [if_pos size, if_pos some]
    exact .cons fits .nil
  · rw [if_neg (not_not_intro (GumMemoryRange.size_eq_zero_iff.mpr some)), if_neg some]
    exact .nil

/-- A range between two addresses, if there is something between them. -/
theorem between_refines {base limit : UInt64} :
    Refines (if base < limit then [⟨base, limit - base⟩] else []) (piece base.toNat limit.toNat) := by
  rw [piece]
  simp only [UInt64.lt_iff_toNat_lt]
  split
  · next below =>
    have ordered : base ≤ limit := UInt64.le_iff_toNat_le.mpr (le_of_lt below)
    rw [← GumMemoryRange.interval_between ordered]
    exact .cons (GumMemoryRange.fits_between ordered) .nil
  · exact .nil

theorem subtractLoop_refines (fits : ra.Fits) (fit : ∀ r ∈ b, r.Fits) :
    Refines (subtractLoop ra b) (subtractOne ra.interval (intervals b)) := by
  induction b generalizing ra with
  | nil => exact rest_refines fits
  | cons rb b ih =>
      obtain ⟨first, later⟩ := List.forall_mem_cons.mp fit
      have found := intersectRange_intersected fits first
      rw [subtractLoop, intervals, List.map_cons, subtractOne]
      generalize intersectRange ra rb = result at found
      cases found with
      | behind ri before =>
          rw [if_pos before]
          exact rest_refines fits
      | apart ri notBehind none empty =>
          rw [if_neg notBehind, if_neg none]
          simp only [empty, Bool.not_true, Bool.false_eq_true, if_false, if_true]
          exact ih fits later
      | meets ri notBehind some fits' same =>
          have size : ri.size ≠ 0 := GumMemoryRange.size_ne_zero (same.symm ▸ some)
          have limit := GumMemoryRange.toNat_limit fits
          have cut := GumMemoryRange.toNat_limit fits'
          have inside : ri.baseAddress + ri.size ≤ ra.baseAddress + ra.size := by
            rw [UInt64.le_iff_toNat_le, limit, cut, same]
            exact min_le_left _ _
          have left := GumMemoryRange.interval_between inside
          rw [limit, cut, same] at left
          have before : (inter ra.interval rb.interval).lo = ri.baseAddress.toNat :=
            congrArg HalfOpen.lo same.symm
          rw [if_neg notBehind, if_pos some]
          simp only [size, Bool.not_true, Bool.false_eq_true, if_false, gt_iff_lt,
            UInt64.not_lt.mpr inside]
          rw [before]
          refine between_refines.append ?_
          rw [← left]
          exact ih (GumMemoryRange.fits_between inside) later

theorem subtractRanges_refines (fit : ∀ r ∈ a, r.Fits) (fit' : ∀ r ∈ b, r.Fits) :
    Refines (subtractRanges a b) (subtractAll (intervals a) (intervals b)) :=
  .flatMap fit fun _ fits => subtractLoop_refines fits fit'

theorem joined_interval {rp : GumMemoryRange} (fits : rp.Fits) (fits' : r.Fits)
    (touch : rp.interval.hi = r.interval.lo) :
    GumMemoryRange.interval ⟨rp.baseAddress, rp.size + r.size⟩ =
        ⟨rp.interval.lo, r.interval.hi⟩ ∧
      GumMemoryRange.Fits ⟨rp.baseAddress, rp.size + r.size⟩ := by
  simp only [GumMemoryRange.Fits, GumMemoryRange.interval] at fits fits' touch ⊢
  have sum : (rp.size + r.size).toNat = rp.size.toNat + r.size.toNat := by
    rw [UInt64.toNat_add]
    exact Nat.mod_eq_of_lt (by omega)
  rw [sum, ← Nat.add_assoc, touch]
  exact ⟨rfl, fits'⟩

theorem mergeLoop_refines {rp : GumMemoryRange} (fits : rp.Fits) (fit : ∀ r ∈ a, r.Fits) :
    Refines (mergeLoop rp a) (mergeFrom rp.interval (intervals a)) := by
  induction a generalizing rp with
  | nil => exact .cons fits .nil
  | cons r a ih =>
      obtain ⟨first, later⟩ := List.forall_mem_cons.mp fit
      have touches : rp.baseAddress + rp.size = r.baseAddress ↔
          rp.interval.hi = r.interval.lo := by
        rw [← UInt64.toNat_inj, GumMemoryRange.toNat_limit fits]
        rfl
      rw [mergeLoop, intervals, List.map_cons, mergeFrom]
      by_cases touch : rp.interval.hi = r.interval.lo
      · obtain ⟨same, fits'⟩ := joined_interval fits first touch
        rw [if_pos (touches.mpr touch), if_pos touch, ← same]
        exact ih fits' later
      · rw [if_neg (mt touches.mp touch), if_neg touch]
        exact .cons fits (ih first later)

theorem mergeRanges_refines (fit : ∀ r ∈ a, r.Fits) :
    Refines (mergeRanges a) (mergeAll (intervals a)) := by
  cases a with
  | nil => exact .nil
  | cons rp a =>
      obtain ⟨first, later⟩ := List.forall_mem_cons.mp fit
      exact mergeLoop_refines first later

theorem excludedLoop_eq (fit : ∀ r ∈ a, r.Fits) (address : UInt64) :
    excludedLoop address a = contains address.toNat (intervals a) := by
  induction a with
  | nil => rfl
  | cons curr a ih =>
      obtain ⟨first, later⟩ := List.forall_mem_cons.mp fit
      rw [excludedLoop, intervals, List.map_cons, contains]
      simp only [UInt64.lt_iff_toNat_lt, GumMemoryRange.toNat_limit first]
      rw [ih later]
      rfl

/-! ## The set of excluded addresses -/

def GumMemoryRange.Contains (r : GumMemoryRange) (address : UInt64) : Prop :=
  r.baseAddress.toNat ≤ address.toNat ∧ address.toNat < r.baseAddress.toNat + r.size.toNat

def InRanges (rs : List GumMemoryRange) (address : UInt64) : Prop :=
  ∃ r ∈ rs, r.Contains address

/-- The limit of a range that does not wrap around is an address. -/
structure WellFormed (rs : List GumMemoryRange) : Prop where
  sorted : rs.Pairwise fun r s => r.baseAddress ≤ s.baseAddress
  disjoint : rs.Pairwise fun r s => ∀ address, ¬ (r.Contains address ∧ s.Contains address)
  fit : ∀ r ∈ rs, r.baseAddress.toNat + r.size.toNat < 2 ^ 64

theorem inRanges_iff {address : UInt64} :
    InRanges a address ↔ address.toNat ∈ points (intervals a) := by
  simp [InRanges, GumMemoryRange.Contains, points, intervals, HalfOpen.points,
    GumMemoryRange.interval]

theorem WellFormed.valid (wellFormed : WellFormed a) : Valid (intervals a) := by
  refine List.pairwise_map.mpr ?_
  refine (wellFormed.sorted.and wellFormed.disjoint).imp_of_mem fun {r s} inR inS both => ?_
  have sorted := UInt64.le_iff_toNat_le.mp both.1
  refine ⟨sorted, ?_⟩
  by_contra meets
  obtain ⟨below, some⟩ := not_or.mp meets
  exact both.2 s.baseAddress ⟨⟨sorted, not_le.mp below⟩, le_rfl, not_le.mp some⟩

theorem wellFormed_singleton (fits : r.baseAddress.toNat + r.size.toNat < 2 ^ 64) :
    WellFormed [r] :=
  ⟨List.pairwise_singleton _ _, List.pairwise_singleton _ _, List.forall_mem_singleton.mpr fits⟩

/-- All addresses but the last one. -/
theorem inRanges_whole {address : UInt64} : InRanges [⟨0, gMaxUlong⟩] address ↔ address ≠ gMaxUlong := by
  have bound := address.toNat_lt
  have top : gMaxUlong.toNat = 2 ^ 64 - 1 := rfl
  rw [Ne, ← UInt64.toNat_inj, top]
  simp only [InRanges, List.mem_singleton, exists_eq_left, GumMemoryRange.Contains, top,
    UInt64.toNat_zero]
  omega

/-- What the process and the options allow to be instrumented. An empty list of ranges to include
stands for all addresses. -/
structure Instrumented (config : Config) (address : UInt64) : Prop where
  modules : InRanges config.moduleRanges address
  libs : InRanges config.collectLibsRanges address
  included : config.includeRanges = [] ∨ InRanges config.includeRanges address
  excluded : ¬ InRanges config.excludeRanges address
  jit : ¬ InRanges config.collectJitRanges address

/-- Sorted, disjoint, and no range touches the next one. -/
structure Merged (rs : List GumMemoryRange) : Prop where
  nonempty : ∀ r ∈ rs, r.size ≠ 0
  gaps : rs.Pairwise fun r s => r.baseAddress.toNat + r.size.toNat < s.baseAddress.toNat

/-- Ranges that were computed, and the addresses in them. -/
structure Computed (rs : List GumMemoryRange) (addresses : Set Nat) : Prop where
  fit : ∀ r ∈ rs, r.Fits
  ordered : Ordered (intervals rs)
  points : points (intervals rs) = addresses

theorem Refines.computed {expected : List (HalfOpen Nat)} {addresses : Set Nat}
    (refines : Refines a expected) (ordered : Ordered expected)
    (covers : points expected = addresses) : Computed a addresses :=
  ⟨refines.fit, refines.same ▸ ordered, refines.same ▸ covers⟩

section

variable {config : Config} {one two : Set Nat}

theorem computed_intersectRanges (fit : ∀ r ∈ a, r.Fits) (valid : Valid (intervals a))
    (covers : points (intervals a) = one) (wellFormed : WellFormed b) :
    Computed (intersectRanges a b) (one ∩ points (intervals b)) :=
  (intersectRanges_refines fit wellFormed.fit).computed
    (ordered_intersectAll valid wellFormed.valid)
    ((points_intersectAll wellFormed.valid).trans (congrArg (· ∩ _) covers))

theorem computed_subtractRanges (fit : ∀ r ∈ a, r.Fits) (valid : Valid (intervals a))
    (covers : points (intervals a) = one) (fit' : ∀ r ∈ b, r.Fits) (valid' : Valid (intervals b))
    (covers' : points (intervals b) = two) :
    Computed (subtractRanges a b) (one \ two) :=
  (subtractRanges_refines fit fit').computed (ordered_subtractAll valid)
    ((points_subtractAll valid').trans (covers ▸ covers' ▸ rfl))

theorem computed_mergeRanges (computed : Computed a one) :
    Computed (mergeRanges a) one ∧ Merged (mergeRanges a) := by
  have refines := mergeRanges_refines computed.fit
  have separated := separated_mergeAll computed.ordered
  refine ⟨refines.computed separated.ordered
    ((points_mergeAll computed.ordered).trans computed.points), ?_, ?_⟩
  · intro r member
    have some := separated.nonempty r.interval (refines.same ▸ List.mem_map_of_mem member)
    exact mt GumMemoryRange.size_eq_zero_iff.mp (not_not_intro some)
  · have gaps := separated.pairwise
    rw [← refines.same] at gaps
    exact List.pairwise_map.mp gaps

end

/-- The lists that the process and the environment give. -/
structure Config.WellFormed (config : Config) : Prop where
  modules : FridaMode.WellFormed config.moduleRanges
  anonymous : FridaMode.WellFormed config.anonymousRanges
  includes : FridaMode.WellFormed config.includeRanges
  excludes : FridaMode.WellFormed config.excludeRanges
  text : config.textBase ≤ config.textLimit

theorem wellFormed_whole : WellFormed [⟨0, gMaxUlong⟩] := wellFormed_singleton (by decide)

section

variable {config : Config}

theorem Config.WellFormed.libs (wellFormed : config.WellFormed) :
    FridaMode.WellFormed config.collectLibsRanges := by
  rw [Config.collectLibsRanges]
  split
  · exact wellFormed_whole
  · exact wellFormed_singleton (GumMemoryRange.fits_between wellFormed.text)

theorem Config.WellFormed.jit (wellFormed : config.WellFormed) :
    FridaMode.WellFormed config.collectJitRanges := by
  rw [Config.collectJitRanges]
  split
  · exact ⟨.nil, .nil, List.forall_mem_nil _⟩
  · exact wellFormed.anonymous

theorem Config.WellFormed.included (wellFormed : config.WellFormed) :
    FridaMode.WellFormed config.included := by
  rw [Config.included]
  split
  · exact wellFormed_whole
  · exact wellFormed.includes

/-- No module has the last address. -/
theorem inRanges_included (wellFormed : config.WellFormed) {address : UInt64}
    (inModule : InRanges config.moduleRanges address) : InRanges config.included address ↔
      config.includeRanges = [] ∨ InRanges config.includeRanges address := by
  rw [Config.included]
  split
  · next empty =>
    refine iff_of_true (inRanges_whole.mpr ?_) (.inl (List.length_eq_zero_iff.mp empty))
    rintro rfl
    obtain ⟨r, member, _, below⟩ := inModule
    have fits := wellFormed.modules.fit r member
    have top : gMaxUlong.toNat = 2 ^ 64 - 1 := rfl
    omega
  · next some =>
    exact ⟨.inr, fun either => either.resolve_left (mt List.length_eq_zero_iff.mpr some)⟩

theorem computed_step4 (wellFormed : config.WellFormed) :
    Computed config.step4 {x | ∃ address : UInt64, address.toNat = x ∧ Instrumented config address} := by
  have modules := wellFormed.modules
  have step1 := computed_intersectRanges modules.fit modules.valid rfl wellFormed.libs
  have step2 := computed_intersectRanges step1.fit step1.ordered.valid step1.points
    wellFormed.included
  have step3 := computed_subtractRanges step2.fit step2.ordered.valid step2.points
    wellFormed.excludes.fit wellFormed.excludes.valid rfl
  have step4 := computed_subtractRanges step3.fit step3.ordered.valid step3.points
    wellFormed.jit.fit wellFormed.jit.valid rfl
  refine ⟨step4.fit, step4.ordered, step4.points.trans (Set.ext fun x => ⟨?_, ?_⟩)⟩
  · intro ⟨⟨⟨⟨inModules, inLibs⟩, inIncluded⟩, notExcluded⟩, notJit⟩
    have bound : x < 2 ^ 64 := by
      obtain ⟨interval, member, inside⟩ := inModules
      obtain ⟨r, inRanges, rfl⟩ := List.mem_map.mp member
      exact lt_trans (HalfOpen.mem_points.mp inside).2 (modules.fit r inRanges)
    have same : (UInt64.ofNat x).toNat = x := UInt64.toNat_ofNat_of_lt' bound
    rw [← same] at inModules inLibs inIncluded notExcluded notJit
    have inModule := inRanges_iff.mpr inModules
    exact ⟨UInt64.ofNat x, same, inModule, inRanges_iff.mpr inLibs,
      (inRanges_included wellFormed inModule).mp (inRanges_iff.mpr inIncluded),
      mt inRanges_iff.mp notExcluded, mt inRanges_iff.mp notJit⟩
  · intro ⟨address, same, instrumented⟩
    subst same
    have included := (inRanges_included wellFormed instrumented.modules).mpr instrumented.included
    exact ⟨⟨⟨⟨inRanges_iff.mp instrumented.modules, inRanges_iff.mp instrumented.libs⟩,
      inRanges_iff.mp included⟩, mt inRanges_iff.mpr instrumented.excluded⟩,
      mt inRanges_iff.mpr instrumented.jit⟩

end

/-- Without dynamic loading all addresses but the last one are excluded that are not
instrumented. -/
theorem rangesInit_exact (config : Config) (wellFormed : config.WellFormed) :
    (∀ address, rangeIsExcluded (some (rangesInit config)) address ↔
      (if config.instDynamicLoad then InRanges config.moduleRanges address
        else address ≠ gMaxUlong) ∧ ¬ Instrumented config address) ∧
      Merged (rangesInit config) := by
  have step4 := computed_step4 wellFormed
  have source : ∃ base : List GumMemoryRange, WellFormed base ∧
      rangesInit config = mergeRanges (subtractRanges base config.step4) ∧
      ∀ address, InRanges base address ↔ if config.instDynamicLoad then
        InRanges config.moduleRanges address else address ≠ gMaxUlong := by
    rw [rangesInit]
    cases config.instDynamicLoad with
    | true => exact ⟨_, wellFormed.modules, rfl, fun _ => Iff.rfl⟩
    | false => exact ⟨_, wellFormed_whole, rfl, fun _ => inRanges_whole⟩
  obtain ⟨base, baseWellFormed, result, inBase⟩ := source
  obtain ⟨computed, merged⟩ := computed_mergeRanges (computed_subtractRanges baseWellFormed.fit
    baseWellFormed.valid rfl step4.fit step4.ordered.valid step4.points)
  rw [result]
  refine ⟨fun address => ?_, merged⟩
  rw [rangeIsExcluded, excludedLoop_eq computed.fit, contains_iff computed.ordered.valid,
    computed.points, ← inBase, inRanges_iff]
  refine and_congr Iff.rfl (not_congr ⟨?_, fun instrumented => ⟨address, rfl, instrumented⟩⟩)
  intro ⟨other, same, instrumented⟩
  rwa [← UInt64.toNat_inj.mp same]

end

def oneModule (instDynamicLoad : Bool) : Config where
  instLibs := true
  instJit := false
  instDynamicLoad := instDynamicLoad
  textBase := 0x1000
  textLimit := 0x2000
  moduleRanges := [⟨0x1000, 0x1000⟩]
  anonymousRanges := []
  includeRanges := []
  excludeRanges := []

theorem oneModule_wellFormed (instDynamicLoad : Bool) : (oneModule instDynamicLoad).WellFormed where
  modules := wellFormed_singleton (by decide)
  anonymous := ⟨.nil, .nil, List.forall_mem_nil _⟩
  includes := ⟨.nil, .nil, List.forall_mem_nil _⟩
  excludes := ⟨.nil, .nil, List.forall_mem_nil _⟩
  text := show (0x1000 : UInt64) ≤ 0x2000 by decide

theorem rangesInit_exact_oneModule :
    (∀ address, rangeIsExcluded (some (rangesInit (oneModule true))) address ↔
      (if (oneModule true).instDynamicLoad then InRanges (oneModule true).moduleRanges address
        else address ≠ gMaxUlong) ∧ ¬ Instrumented (oneModule true) address) ∧
      Merged (rangesInit (oneModule true)) :=
  rangesInit_exact (oneModule true) (oneModule_wellFormed true)

/-- The module is not excluded although nothing is listed to be included; and without dynamic
loading the last address is not excluded although it is in no module. -/
theorem rangesInit_exceptions :
    (InRanges (oneModule true).moduleRanges 0x1000 ∧
      ¬ InRanges (oneModule true).includeRanges 0x1000 ∧
      rangeIsExcluded (some (rangesInit (oneModule true))) 0x1000 = false) ∧
    ((oneModule false).instDynamicLoad = false ∧
      ¬ InRanges (oneModule false).moduleRanges gMaxUlong ∧
      rangeIsExcluded (some (rangesInit (oneModule false))) gMaxUlong = false) := by
  refine ⟨⟨⟨_, List.mem_cons_self, by decide, by decide⟩, ?_, by decide⟩, rfl, ?_, by decide⟩
  · simp [InRanges, oneModule]
  · rintro ⟨r, member, _, below⟩
    obtain rfl := List.mem_singleton.mp member
    exact absurd below (by decide)

end SbFuzz.FridaMode
